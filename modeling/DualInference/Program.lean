/-
Programs: expressions and top-level items, each node with its span.

Types and values share one expression language. `Array[Int]` and `xs[0]` are both index expressions, `Pair(1, 2)`
and `intAdd(1, 2)` are both calls; which of them denotes a type is found by inference and not by the grammar.
-/
import DualInference.Location

namespace DualInference

/-- a name as written at one place -/
structure Ident where
  name : String
  span : Span := {}
deriving DecidableEq, Inhabited

/-! ## Expressions -/

inductive Expr where
  /-- the address of a value -/
  | addressOf (span : Span) (operand : Expr)
  /-- `base[index, …]`: an array element, or a generic type applied to parameters -/
  | index (span : Span) (base : Expr) (indexes : List Expr)
  /-- `callee(arg, …)` -/
  | call (span : Span) (callee : Expr) (args : List Expr)
  /-- a named field of a record or struct value -/
  | field (span : Span) (base : Expr) (name : Ident)
  /-- an element of a tuple value, counted from zero -/
  | element (span : Span) (base : Expr) (position : Nat)
  /-- what a reference points at -/
  | pointee (span : Span) (base : Expr)
  | array (span : Span) (elements : List Expr)
  | tuple (span : Span) (elements : List Expr)
  /-- a name; the span of the identifier may differ from the span of the expression -/
  | name (span : Span) (ident : Ident)
  | bool (span : Span) (value : Bool)
  | int (span : Span) (value : Int)
  | char (span : Span) (value : Char)
deriving Inhabited

namespace Expr

def span : Expr → Span
  | .addressOf s _ => s
  | .index s _ _ => s
  | .call s _ _ => s
  | .field s _ _ => s
  | .element s _ _ => s
  | .pointee s _ => s
  | .array s _ => s
  | .tuple s _ => s
  | .name s _ => s
  | .bool s _ => s
  | .int s _ => s
  | .char s _ => s

/-- the identifier of an expression that is a bare name -/
def bareName? : Expr → Option Ident
  | .name _ ident => some ident
  | _ => none

/-- the value of an expression that is a literal natural number -/
def natLiteral? : Expr → Option Nat
  | .int _ (.ofNat n) => some n
  | _ => none

end Expr

/-! ## Items -/

/-- the two sorts of aggregate, alike in all but name -/
inductive AggregateKind where
  | record
  | struct
deriving DecidableEq

structure Predicate where
  name : Ident
  typeVars : List Ident

/-- an instance of the predicate it is named after -/
structure PredicateInstance where
  name : Ident
  typeVars : List Ident
  typeArgs : List Expr

structure Field where
  name : Ident
  type : Expr

structure Aggregate where
  name : Ident
  typeVars : List Ident
  fields : List Field

/-- one name of a variable definition, with its annotation if it has one -/
structure Variable where
  name : Ident
  type : Option Expr

/-- one or several names sharing an initializer -/
structure Variables where
  names : List Variable
  init : Expr

/-- how an argument is passed -/
inductive Passing where
  | byValue
  | byRef
deriving DecidableEq

/-- a formal parameter: a named value, or a type to be matched -/
inductive Formal where
  | value (passing : Passing) (name : Ident) (type : Expr)
  | type (type : Expr)

structure Procedure where
  name : Ident
  typeVars : List Ident
  formals : List Formal
  conditions : List Expr
  returnType : Option Expr
  body : Option Expr
  span : Span

/-- a top-level item -/
inductive Item where
  | predicate (d : Predicate)
  /-- attaches to the predicate of its name -/
  | predicateInstance (d : PredicateInstance)
  | aggregate (kind : AggregateKind) (d : Aggregate)
  | vars (d : Variables)
  | procedure (d : Procedure)
  | overloadable (name : Ident)
  /-- attaches to the overloadable of its name -/
  | overload (d : Procedure)

end DualInference
