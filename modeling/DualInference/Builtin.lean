/-
What every program starts from: the built-in types and the primitive operations, under their fixed names.

Operations on scalars have a signature: so many operands of one scalar type, and a scalar result. The four others
work at every type and have rules of their own.
-/
import DualInference.Ty.Basic

namespace DualInference

/-! ## Types -/

inductive Builtin where
  | scalar (s : Scalar)
  | array
  | arrayValue
  | ref
deriving DecidableEq

namespace Builtin

def all : List Builtin :=
  [.scalar .bool, .scalar .char, .scalar .int, .scalar .void, .array, .arrayValue, .ref]

def name : Builtin → String
  | .scalar s => s.render
  | .array => "Array"
  | .arrayValue => "ArrayValue"
  | .ref => "Ref"

/-- the type that the bare name denotes, if it denotes one -/
def scalar? : Builtin → Option Ty
  | .scalar s => some (.scalar s)
  | .array => none
  | .arrayValue => none
  | .ref => none

/-- number of parameters that make a type of it -/
def paramCount : Builtin → Nat
  | .scalar _ => 0
  | .array => 1
  | .arrayValue => 2
  | .ref => 1

end Builtin

/-! ## Operations -/

inductive Comparison where
  | equals
  | lesser
  | lesserEquals
  | greater
  | greaterEquals
deriving DecidableEq

namespace Comparison

def all : List Comparison :=
  [.equals, .lesser, .lesserEquals, .greater, .greaterEquals]

def name : Comparison → String
  | .equals => "Equals"
  | .lesser => "Lesser"
  | .lesserEquals => "LesserEquals"
  | .greater => "Greater"
  | .greaterEquals => "GreaterEquals"

end Comparison

inductive Arithmetic where
  | add
  | subtract
  | multiply
  | divide
  | modulus
deriving DecidableEq

namespace Arithmetic

def all : List Arithmetic :=
  [.add, .subtract, .multiply, .divide, .modulus]

def name : Arithmetic → String
  | .add => "Add"
  | .subtract => "Subtract"
  | .multiply => "Multiply"
  | .divide => "Divide"
  | .modulus => "Modulus"

end Arithmetic

/-- operations on scalars -/
inductive ScalarOp where
  | boolNot
  | charToInt
  | intToChar
  | charCompare (c : Comparison)
  | intArith (a : Arithmetic)
  | intNegate
  | intCompare (c : Comparison)
deriving DecidableEq

/-- operands of one scalar type, and a scalar result -/
structure Signature where
  arity : Nat
  operand : Scalar
  result : Scalar
deriving DecidableEq

namespace ScalarOp

def all : List ScalarOp :=
  [.boolNot, .charToInt, .intToChar] ++ Comparison.all.map .charCompare ++ Arithmetic.all.map .intArith ++
    [.intNegate] ++ Comparison.all.map .intCompare

def name : ScalarOp → String
  | .boolNot => "boolNot"
  | .charToInt => "charToInt"
  | .intToChar => "intToChar"
  | .charCompare c => "char" ++ c.name
  | .intArith a => "int" ++ a.name
  | .intNegate => "intNegate"
  | .intCompare c => "int" ++ c.name

def signature : ScalarOp → Signature
  | .boolNot => ⟨1, .bool, .bool⟩
  | .charToInt => ⟨1, .char, .int⟩
  | .intToChar => ⟨1, .int, .char⟩
  | .charCompare _ => ⟨2, .char, .bool⟩
  | .intArith _ => ⟨2, .int, .int⟩
  | .intNegate => ⟨1, .int, .int⟩
  | .intCompare _ => ⟨2, .int, .bool⟩

end ScalarOp

inductive Operation where
  /-- the default value of a type -/
  | default
  /-- an array of so many copies of a value -/
  | array
  | arraySize
  /-- an array whose size is part of its type -/
  | arrayValue
  | scalar (op : ScalarOp)
deriving DecidableEq

namespace Operation

def all : List Operation :=
  [.default, .array, .arraySize, .arrayValue] ++ ScalarOp.all.map .scalar

def name : Operation → String
  | .default => "default"
  | .array => "array"
  | .arraySize => "arraySize"
  | .arrayValue => "arrayValue"
  | .scalar op => op.name

/-- the signature of an operation on scalars; the operations that work at every type have none -/
def signature? : Operation → Option Signature
  | .scalar op => some op.signature
  | .default => none
  | .array => none
  | .arraySize => none
  | .arrayValue => none

end Operation

end DualInference
