/-
The symbol table: a forest of scopes, and the symbols their names stand for.

A scope maps names to symbols and lies inside its ancestors, nearest first. A name is looked up in the scope itself
and then outwards; within one scope it is bound once, and an inner scope may bind it again.

Scopes are held by whoever opened them until they are let go. A scope is alive while it, or some scope inside it, is
held. Symbols outlive their home, so a declaration may be reached whose home is gone.
-/
import DualInference.Diagnostic
import DualInference.Symbol

namespace DualInference

structure Scope where
  /-- the scopes around this one, nearest first -/
  ancestors : List ScopeId
  names : List (String × SymbolId) := []
  held : Bool := true

structure SymbolTable where
  scopes : Array Scope := #[]
  symbols : Array Symbol := #[]

namespace SymbolTable

/-! ## Reading -/

def symbol? (tab : SymbolTable) (id : SymbolId) : Option Symbol :=
  tab.symbols[id]?

/-- the declared name of a symbol -/
def nameOf (tab : SymbolTable) (id : SymbolId) : String :=
  ((tab.symbol? id).map (·.name)).getD ""

def ancestors (tab : SymbolTable) (s : ScopeId) : List ScopeId :=
  ((tab.scopes[s]?).map (·.ancestors)).getD []

/-- what a scope itself binds -/
def names (tab : SymbolTable) (s : ScopeId) : List (String × SymbolId) :=
  ((tab.scopes[s]?).map (·.names)).getD []

/-- the symbol a scope itself binds the name to -/
def own? (tab : SymbolTable) (s : ScopeId) (name : String) : Option SymbolId :=
  (tab.names s).lookup name

/-- the symbol the name stands for in a scope: the binding of the nearest scope that has one -/
def lookup (tab : SymbolTable) (s : ScopeId) (name : String) : Option SymbolId :=
  (s :: tab.ancestors s).findSome? (tab.own? · name)

def isHeld (tab : SymbolTable) (s : ScopeId) : Bool :=
  ((tab.scopes[s]?).map (·.held)).getD false

/-- is the scope, or some scope inside it, held -/
def alive (tab : SymbolTable) (s : ScopeId) : Bool :=
  (List.range tab.scopes.size).any fun t => tab.isHeld t && (t == s || (tab.ancestors t).contains s)

/-! ## Scopes -/

/-- open a scope inside the given ones, nearest first -/
def openScope (tab : SymbolTable) (ancestors : List ScopeId) : ScopeId × SymbolTable :=
  (tab.scopes.size, { tab with scopes := tab.scopes.push { ancestors } })

/-- open a scope inside `parent` -/
def openChild (tab : SymbolTable) (parent : ScopeId) : ScopeId × SymbolTable :=
  tab.openScope (parent :: tab.ancestors parent)

/-- let go of a scope -/
def letGo (tab : SymbolTable) (s : ScopeId) : SymbolTable :=
  { tab with scopes := tab.scopes.modify s ({ · with held := false }) }

/-! ## Bindings -/

/-- bind a name in a scope, unless the scope binds it already -/
def bind (tab : SymbolTable) (s : ScopeId) (name : String) (id : SymbolId) : Option SymbolTable :=
  match tab.own? s name with
  | some _ => none
  | none => some { tab with scopes := tab.scopes.modify s fun sc => { sc with names := (name, id) :: sc.names } }

/-- add a symbol, not yet bound to any name -/
def add (tab : SymbolTable) (symbol : Symbol) : SymbolId × SymbolTable :=
  (tab.symbols.size, { tab with symbols := tab.symbols.push symbol })

/-- change the kind of a symbol -/
def modifyKind (tab : SymbolTable) (id : SymbolId) (f : SymbolKind → SymbolKind) : SymbolTable :=
  { tab with symbols := tab.symbols.modify id fun symbol => { symbol with kind := f symbol.kind } }

/-- bind an identifier; a second binding in the scope is an error at the identifier -/
def bindIdent (tab : SymbolTable) (s : ScopeId) (name : Ident) (id : SymbolId) : Except Error SymbolTable :=
  match tab.bind s name.name id with
  | some tab' => .ok tab'
  | none => .error ⟨.nameRedefinition name.name, name.span⟩

/-- add a symbol and bind an identifier to it -/
def declare (tab : SymbolTable) (s : ScopeId) (name : Ident) (symbol : Symbol) : Except Error SymbolTable :=
  let (id, tab') := tab.add symbol
  tab'.bindIdent s name id

/-! ## Checked look-up -/

def lookupIdent (tab : SymbolTable) (s : ScopeId) (name : Ident) : Except Error SymbolId :=
  match tab.lookup s name.name with
  | some id => .ok id
  | none => .error ⟨.undefinedName name.name, name.span⟩

/-- the kinds of symbol that others attach to -/
inductive Owner where
  | predicate
  | overloadable
deriving DecidableEq

/-- the owner's kind as an error names it -/
def Owner.text : Owner → String
  | .predicate => "a predicate"
  | .overloadable => "an overloadable"

def Owner.accepts : Owner → SymbolKind → Bool
  | .predicate, .predicate _ _ => true
  | .overloadable, .overloadable _ _ => true
  | _, _ => false

/-- look up an identifier that has to name an owner -/
def lookupOwner (tab : SymbolTable) (s : ScopeId) (owner : Owner) (name : Ident) : Except Error SymbolId := do
  let id ← tab.lookupIdent s name
  if (tab.symbol? id).any (owner.accepts ·.kind) then .ok id
  else .error ⟨.kindMismatch name.name owner.text, name.span⟩

/-! ## The primitives -/

/-- bind symbols of the given names and kinds in their home -/
def bindAll (tab : SymbolTable) (s : ScopeId) (entries : List (String × SymbolKind)) : SymbolTable :=
  entries.foldl (fun tab (name, kind) =>
    let (id, tab') := tab.add ⟨name, s, kind⟩
    (tab'.bind s name id).getD tab') tab

/-- names and kinds of the built-in types and the primitive operations -/
def primitives : List (String × SymbolKind) :=
  Builtin.all.map (fun b => (b.name, .builtin b)) ++ Operation.all.map (fun op => (op.name, .primitive op))

/-- open an outermost scope that binds the primitives -/
def openPrimitives (tab : SymbolTable) : ScopeId × SymbolTable :=
  let (s, tab') := tab.openScope []
  (s, tab'.bindAll s primitives)

end SymbolTable

end DualInference
