/-
What one can ask of a session, and what it answers.

A session keeps a bound program together with the scopes, symbols and type variables made since. Scopes go by
number, in the order in which they were made, the top-level scope of the program being number 0; type variables go
by label.
-/
import DualInference.Inference.Infer
import DualInference.Session.Description

namespace DualInference

/-- a symbol to be made -/
inductive SymbolForm where
  | localVar (type : TypeForm)
  | typeVar (type : TypeForm) (span : Span)
  /-- one name of a definition of its own -/
  | global (d : Variables) (position : Nat)
  | item (i : Item)

/-- two types are made equal, compared up to bindings, or compared as they are -/
inductive Comparing where
  | unify
  | equal
  | identical
deriving DecidableEq

inductive Request where
  /-- what an expression denotes -/
  | infer (e : Expr)
  /-- the type of a value, or a denoted type, perhaps of a certain shape -/
  | project (side : Side) (e : Expr) (shape : Option Shape)
  /-- what a name stands for, perhaps of a certain kind -/
  | lookup (name : Ident) (owner : Option SymbolTable.Owner)
  /-- the home of a symbol, asked for at a span -/
  | home (name : Ident) (span : Span)
  /-- is a name bound by the scope itself, or around it -/
  | has (name : String)
  | debugScope
  | debugSymbol (name : String)
  /-- open a scope inside this one -/
  | openChild
  /-- open an outermost scope, empty -/
  | openRoot
  /-- open an outermost scope that binds the primitives -/
  | openPrimitives
  | letGo
  /-- make a symbol at home in scope `home` and bind it here; `checked` makes a failure an error -/
  | bind (name : Ident) (symbol : SymbolForm) (home : Nat) (checked : Bool)
  /-- bind a symbol known here to a name in another scope -/
  | aliasTo (name : Ident) (target : Nat) (newName : Ident)
  /-- give a type variable symbol another type -/
  | setType (name : String) (type : TypeForm)
  /-- the state of a key in the cache of a procedure or variable -/
  | state (name : String) (key : List DenotationForm)
  /-- make a type variable -/
  | fresh (label : String)
  /-- all labelled type variables -/
  | vars
  | compare (how : Comparing) (x y : TypeForm)
  /-- all there is to say about a type -/
  | inspect (t : TypeForm)

/-- a request, and the number of the scope it is made in -/
structure Step where
  scope : Nat := 0
  request : Request

/-- why a request has no answer -/
inductive Refusal where
  | unknownScope
  | unknownName
  | unknownType
  | unsuitableSymbol
  | unknownGuard
  | tooDeep
deriving DecidableEq

def Refusal.message : Refusal → String
  | .unknownScope => "no such scope"
  | .unknownName => "no such name"
  | .unknownType => "type with an unknown name or label"
  | .unsuitableSymbol => "symbol of an unsuitable kind"
  | .unknownGuard => "no such guard"
  | .tooDeep => "inference too deep"

/-- the state of a key -/
inductive KeyState where
  | notStarted
  | inProgress
  | resolved (t : Snapshot)

/-- number of recorded inferences by name, without the names that have none -/
abbrev CacheSizes := List (String × Nat)

abbrev LabelledVars := List (String × Snapshot)

inductive Answer where
  | denotes (isValue : Bool) (text : String) (type : Snapshot) (sizes : CacheSizes)
  | hasType (text : String) (type : Snapshot) (sizes : CacheSizes)
  /-- an inference failed -/
  | inferenceError (e : Error) (sizes : CacheSizes)
  /-- another request failed -/
  | error (e : Error)
  | symbol (card : Card SymbolDetail)
  | scope (number : Option Nat)
  | membership (own found : Bool) (depth : Nat)
  | debug (text : Option String)
  | dropped (number : Nat)
  | added (ok : Bool)
  | typeSet
  | keyState (state : KeyState) (size : Nat)
  | madeVar (v : VarId)
  | vars (vars : LabelledVars)
  | compared (result : Bool) (x y : String) (vars : LabelledVars)
  | inspected (text : String) (pruned : Snapshot) (deref element : Option Snapshot) (shapes : List Shape)
  | refused (why : Refusal)

end DualInference
