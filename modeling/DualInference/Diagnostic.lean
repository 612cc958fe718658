/-
Errors of the analysis. An error is a cause together with the span of the one node it is about. The wording of a
cause is fixed here (`Cause.message`), and so is the short text a report puts under the offending node
(`ErrorKind.label`).

Types appear in causes as text: the text is taken when the error is raised, and later bindings do not change it.
-/
import DualInference.Location

namespace DualInference

/-! ## Causes -/

/-- what is wrong with a node -/
inductive Cause where
  /-- a second declaration of a name in one scope -/
  | nameRedefinition (name : String)
  /-- a name, or a field, that nothing declares -/
  | undefinedName (name : String)
  /-- a name of another kind than the position asks for -/
  | kindMismatch (name expected : String)
  /-- a list of another length than declared -/
  | arity (what : String) (expected found : Nat)
  | typeMismatch (expected found : String)
  /-- a type stands where a value is needed -/
  | valueExpected
  /-- a value stands where a type is needed -/
  | typeExpected
  /-- a type of the wrong shape -/
  | invalidType (found : String)
  /-- a size that is not a literal natural number -/
  | intLiteralExpected
  /-- a type that the arguments leave open -/
  | unresolvedTypeVariable (name : String)
  /-- the answer of a call or an initializer is needed to find that answer -/
  | recursiveInference
  | unsupported (what : String)
  | emptyArrayLiteral
  /-- the scope a declaration belongs to no longer exists -/
  | scopeClosed (name : String)
deriving DecidableEq

/-- causes without their details -/
inductive ErrorKind where
  | nameRedefinition
  | undefinedName
  | kindMismatch
  | arity
  | typeMismatch
  | valueExpected
  | typeExpected
  | invalidType
  | intLiteralExpected
  | unresolvedTypeVariable
  | recursiveInference
  | unsupported
  | emptyArrayLiteral
  | scopeClosed
deriving DecidableEq

/-- the text under the offending node -/
def ErrorKind.label : ErrorKind → String
  | .nameRedefinition => "already defined in this scope"
  | .undefinedName => "not found in scope"
  | .kindMismatch => "wrong kind of name"
  | .arity => "wrong number of parameters"
  | .typeMismatch => "type does not match"
  | .valueExpected => "this denotes a type"
  | .typeExpected => "this denotes a value"
  | .invalidType => "type not accepted here"
  | .intLiteralExpected => "must be an integer literal"
  | .unresolvedTypeVariable => "cannot be inferred from the arguments"
  | .recursiveInference => "call is already being inferred"
  | .unsupported => "not supported yet"
  | .emptyArrayLiteral => "empty array literal"
  | .scopeClosed => "scope dropped"

namespace Cause

def kind : Cause → ErrorKind
  | .nameRedefinition _ => .nameRedefinition
  | .undefinedName _ => .undefinedName
  | .kindMismatch _ _ => .kindMismatch
  | .arity _ _ _ => .arity
  | .typeMismatch _ _ => .typeMismatch
  | .valueExpected => .valueExpected
  | .typeExpected => .typeExpected
  | .invalidType _ => .invalidType
  | .intLiteralExpected => .intLiteralExpected
  | .unresolvedTypeVariable _ => .unresolvedTypeVariable
  | .recursiveInference => .recursiveInference
  | .unsupported _ => .unsupported
  | .emptyArrayLiteral => .emptyArrayLiteral
  | .scopeClosed _ => .scopeClosed

/-- a name as messages quote it -/
def quoted (name : String) : String :=
  "`" ++ name ++ "`"

def message : Cause → String
  | .nameRedefinition name => "name redefinition: " ++ quoted name
  | .undefinedName name => "undefined name: " ++ quoted name
  | .kindMismatch name expected => quoted name ++ " is not " ++ expected
  | .arity what expected found => s!"expected {expected} {what}, found {found}"
  | .typeMismatch expected found => "type mismatch: expected " ++ expected ++ ", found " ++ found
  | .valueExpected => "value expected"
  | .typeExpected => "type expected"
  | .invalidType found => "invalid type: " ++ found
  | .intLiteralExpected => "int literal expected"
  | .unresolvedTypeVariable name => "unresolved type variable: " ++ quoted name
  | .recursiveInference => "recursive inference: the return type depends on itself"
  | .unsupported what => "not supported: " ++ what
  | .emptyArrayLiteral => "cannot infer the element type of an empty array literal"
  | .scopeClosed name => "declaring scope of " ++ quoted name ++ " is no longer alive"

end Cause

/-! ## Errors and reports -/

/-- a cause at a place -/
structure Error where
  cause : Cause
  span : Span
deriving DecidableEq

namespace Error

def kind (e : Error) : ErrorKind :=
  e.cause.kind

def message (e : Error) : String :=
  e.cause.message

def label (e : Error) : String :=
  e.kind.label

/-- the error that cuts off circular demands -/
def isRecursive (e : Error) : Bool :=
  e.cause == .recursiveInference

end Error

/-- an error laid over the source text: a title, and a label under one region -/
structure Report where
  title : String
  source : String
  region : Region
  label : String
deriving DecidableEq

/-- the report of an error: its message, with its label under its span -/
def Error.report (e : Error) (source : String) : Report :=
  ⟨e.message, source, e.span.region, e.label⟩

end DualInference
