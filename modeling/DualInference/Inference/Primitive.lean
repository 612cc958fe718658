/-
Calls on primitive operations. Operations with a signature check their operands against it, from left to
right. The four others: `default` turns a type into a value of it, `array` and `arrayValue` make arrays of a value,
the latter with a literal size, and `arraySize` takes an array whose size is no part of its type.
-/
import DualInference.Inference.Basic

namespace DualInference

namespace Context

variable (cx : Context)

/-- the type of a value whose shape has to be the one described by `expected` -/
def operand (env : Env) (fits : Ty → Bool) (expected : String) (e : Expr) : Infer Ty := do
  let t ← cx.value env e
  if fits ((← Infer.store).prune t) then return t
  else Infer.fail (.typeMismatch expected (← cx.display t)) e.span

/-- operands that have to be of one scalar type -/
def operands (env : Env) (s : Scalar) : List Expr → Infer Unit
  | [] => return ()
  | e :: es => do
    let _ ← cx.operand env (· = .scalar s) s.render e
    operands env s es

/-- a call on an operation with a signature -/
def callSigned (sig : Signature) (span : Span) (env : Env) (args : List Expr) : Infer Ty := do
  arity "argument(s)" sig.arity args.length span
  cx.operands env sig.operand args
  return .scalar sig.result

/-- a call on an operation that works at every type -/
def callPolymorphic (op : Operation) (span : Span) (env : Env) (args : List Expr) : Infer Ty :=
  match op, args with
  | .default, [type] => cx.type env type
  | .default, _ => Infer.fail (.arity "argument(s)" 1 args.length) span
  | .array, [size, element] => do
    let _ ← cx.operand env (· = .int) "Int" size
    return .array (← cx.value env element)
  | .array, _ => Infer.fail (.arity "argument(s)" 2 args.length) span
  | .arraySize, [array] => do
    let _ ← cx.operand env Shape.array.fits "an array" array
    return .int
  | .arraySize, _ => Infer.fail (.arity "argument(s)" 1 args.length) span
  | .arrayValue, [size, element] => do
    let n ← natLiteral size
    return .arrayValue (← cx.value env element) n
  | .arrayValue, _ => Infer.fail (.arity "argument(s)" 2 args.length) span
  | .scalar _, _ => Infer.fail (.kindMismatch op.name "a polymorphic primitive") span

/-- the type of what a primitive operation returns -/
def callPrimitive (op : Operation) (span : Span) (env : Env) (args : List Expr) : Infer Ty :=
  match op.signature? with
  | some sig => cx.callSigned sig span env args
  | none => cx.callPolymorphic op span env args

end Context

end DualInference
