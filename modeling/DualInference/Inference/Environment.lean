/-
Where an expression is read. An environment is a scope of the table, and in front of it the names that exist only
while one declaration is being looked into: its type variables, and for the body of a procedure its parameters.

Inference asks of a name only what it means here (`Meaning`): a type variable and a local value mean the same
whether they come from the front of the environment or from the table.
-/
import DualInference.SymbolTable

namespace DualInference

/-- a name that exists while a declaration is looked into -/
inductive LocalName where
  | typeVar (t : Ty)
  | param (t : Ty)

/-- local names, innermost first -/
abbrev Frame := List (String × LocalName)

/-- add a name to a frame; a second one of that name is an error at the identifier -/
def Frame.add (frame : Frame) (name : Ident) (entry : LocalName) : Except Error Frame :=
  match frame.lookup name.name with
  | some _ => .error ⟨.nameRedefinition name.name, name.span⟩
  | none => .ok ((name.name, entry) :: frame)

/-- a frame of type variables with their types, position by position -/
def Frame.ofTypeVars (names : List Ident) (types : List Ty) : Except Error Frame :=
  (names.zip types).foldlM (fun frame (name, t) => frame.add name (.typeVar t)) []

structure Env where
  locals : Frame := []
  scope : ScopeId

/-- a symbol as its uses see it -/
structure Origin where
  id : SymbolId
  name : String
  home : ScopeId
deriving DecidableEq

/-- what a name means to inference -/
inductive Meaning where
  | typeVar (t : Ty)
  | localVar (t : Ty)
  | builtin (b : Builtin)
  | primitive (op : Operation)
  | aggregate (origin : Origin) (kind : AggregateKind) (d : Aggregate)
  | procedure (origin : Origin) (d : Procedure)
  | overloadable
  | global (origin : Origin) (d : Variables) (group : SymbolId) (position : Nat)
  /-- predicates, instances and overloads: no expression can use them -/
  | unusable

def LocalName.meaning : LocalName → Meaning
  | .typeVar t => .typeVar t
  | .param t => .localVar t

def Symbol.meaning (id : SymbolId) (symbol : Symbol) : Meaning :=
  let origin : Origin := ⟨id, symbol.name, symbol.home⟩
  match symbol.kind with
  | .predicate _ _ => .unusable
  | .predicateInstance _ => .unusable
  | .aggregate kind d => .aggregate origin kind d
  | .procedure d => .procedure origin d
  | .overloadable _ _ => .overloadable
  | .overload _ => .unusable
  | .global d group position => .global origin d group position
  | .typeVar _ t => .typeVar t
  | .localVar t => .localVar t
  | .builtin b => .builtin b
  | .primitive op => .primitive op

/-- what a name means in an environment -/
def Env.meaning? (tab : SymbolTable) (env : Env) (name : String) : Option Meaning :=
  match env.locals.lookup name with
  | some entry => some entry.meaning
  | none => do
    let id ← tab.lookup env.scope name
    let symbol ← tab.symbol? id
    return symbol.meaning id

end DualInference
