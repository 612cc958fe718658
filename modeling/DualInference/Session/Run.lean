/-
Sessions run step by step. A step that fails, or that has no answer, does not end the session.
-/
import DualInference.Module
import DualInference.Session.Request
import DualInference.Ty.InPlace

namespace DualInference

structure Session where
  table : SymbolTable
  state : State := {}
  /-- scopes by number -/
  scopes : List ScopeId
  /-- type variables by label -/
  labels : List (String × VarId) := []
  /-- names of the program's procedures and variables, with the symbols their caches go by -/
  cached : List (String × SymbolId)

/-- the symbol that the cache of a symbol goes by, if it has one -/
def SymbolKind.cacheOwner? (id : SymbolId) : SymbolKind → Option SymbolId
  | .procedure _ => some id
  | .global _ group _ => some group
  | _ => none

namespace Session

/-- a session on a module -/
def ofModule (m : Module) : Session where
  table := m.table
  scopes := [m.scope]
  cached := (m.table.names m.scope).filterMap fun (name, id) => do
    let symbol ← m.table.symbol? id
    return (name, ← symbol.kind.cacheOwner? id)

/-! ## Readings -/

/-- the scope of a number, unless it was let go -/
def scope (s : Session) (number : Nat) : Except Refusal ScopeId :=
  match s.scopes[number]? with
  | some scope => if s.table.isHeld scope then .ok scope else .error .unknownScope
  | none => .error .unknownScope

/-- the first number of a scope that was not let go -/
def number? (s : Session) (scope : ScopeId) : Option Nat :=
  s.scopes.findIdx? fun t => t == scope && s.table.isHeld t

/-- the symbol of a number -/
def symbol (s : Session) (id : SymbolId) : Except Refusal Symbol :=
  (s.table.symbol? id).elim (.error .unknownName) .ok

/-- the symbol that a name stands for in a scope -/
def named (s : Session) (scope : ScopeId) (name : String) : Except Refusal (SymbolId × Symbol) := do
  let id ← (s.table.lookup scope name).elim (.error .unknownName) .ok
  return (id, ← s.symbol id)

/-- the type variable of a label -/
def var? (s : Session) (label : String) : Option VarId :=
  s.labels.lookup label

/-- the symbol that a name in a type stands for in the scope of a number -/
def symbol? (s : Session) (number : Nat) (name : String) : Option SymbolId := do
  let scope ← (s.scope number).toOption
  s.table.lookup scope name

/-- the type that a form means in the scope of a number; a form without names means the same everywhere -/
def type (s : Session) (number : Nat) (t : TypeForm) : Except Refusal Ty :=
  (t.read (s.symbol? number) s.var?).elim (.error .unknownType) .ok

/-- the key that forms mean in the scope of a number -/
def key (s : Session) (number : Nat) (ds : List DenotationForm) : Except Refusal Key :=
  (ds.mapM (DenotationForm.read (s.symbol? number) s.var?)).elim (.error .unknownType) .ok

def display (s : Session) (t : Ty) : String :=
  s.state.store.display s.table.nameOf t

def snapshot (s : Session) (t : Ty) : Snapshot :=
  s.state.store.snapshot s.table.nameOf t

def cacheSizes (s : Session) : CacheSizes :=
  (s.cached.map fun (name, id) => (name, (s.state.memo.cache id).size)).filter (·.2 != 0)

def vars (s : Session) : LabelledVars :=
  s.labels.map fun (label, v) => (label, s.snapshot (.var v))

/-- the text of a denotation -/
def denotationText (s : Session) : Denotation → String
  | .value t => "value of type " ++ s.display t
  | .type t => "type " ++ s.display t

/-! ## Inference -/

/-- run an inference, and answer with its result -/
def runInfer {α : Type} (s : Session) (x : Infer α) (answer : Session → α → Answer) :
    Except Refusal (Answer × Session) :=
  match x s.state with
  | none => .error .tooDeep
  | some (.ok a, state) =>
    let s' := { s with state }
    .ok (answer s' a, s')
  | some (.error e, state) =>
    let s' := { s with state }
    .ok (.inferenceError e s'.cacheSizes, s')

/-! ## Scopes and symbols -/

/-- look up an identifier, which has to name an owner of the given kind if one is given -/
def find (s : Session) (scope : ScopeId) (owner : Option SymbolTable.Owner) (name : Ident) : Except Error SymbolId :=
  match owner with
  | some owner => s.table.lookupOwner scope owner name
  | none => s.table.lookupIdent scope name

/-- number a new scope -/
def addScope (s : Session) : ScopeId × SymbolTable → Answer × Session
  | (scope, table) => (.scope (some s.scopes.length), { s with table, scopes := s.scopes ++ [scope] })

/-- the symbol a form describes, at home in the scope of a number and named `name` unless the form has a name of its
own -/
def makeSymbol (s : Session) (number : Nat) (name : String) (form : SymbolForm) : Except Refusal Symbol := do
  let home ← s.scope number
  match form with
  | .localVar t => return ⟨name, home, .localVar (← s.type number t)⟩
  | .typeVar t span => return ⟨name, home, .typeVar span (← s.type number t)⟩
  | .global d position =>
    match d.names[position]? with
    | some v => return ⟨v.name.name, home, .global d s.table.symbols.size position⟩
    | none => .error .unsuitableSymbol
  | .item i => (Symbol.ofItem? home i).elim (.error .unsuitableSymbol) .ok

/-- give a type variable another type -/
def retype (t : Ty) : SymbolKind → Option SymbolKind
  | .typeVar span _ => some (.typeVar span t)
  | _ => none

/-! ## Types -/

def compare (s : Session) (x y : Ty) : Comparing → Bool × Session
  | .unify =>
    let (result, store) := s.state.store.unifyInPlace x y
    (result, { s with state.store := store })
  | .equal => (s.state.store.equal x y, s)
  | .identical => (x = y, s)

/-- all there is to say about a type -/
def inspect (s : Session) (t : Ty) : Answer :=
  let pruned := s.state.store.prune t
  .inspected (s.display t) (s.snapshot pruned) ((s.state.store.deref? t).map s.snapshot)
    (pruned.element?.map s.snapshot) (Shape.all.filter (s.state.store.hasShape · t))

/-- the state of a key of a cache -/
def keyState (s : Session) (c : Cache) (key : Key) : KeyState :=
  match c.state? key with
  | none => .notStarted
  | some .inProgress => .inProgress
  | some (.resolved t) => .resolved (s.snapshot t)

/-! ## Steps -/

/-- the answer to a request made in the scope of a number, and the session after it; inferences may go `depth` levels
deep. Only the requests that look something up in the scope, or act on it, need it to be there. -/
def respond (depth : Nat) (s : Session) (number : Nat) : Request → Except Refusal (Answer × Session)
  | .infer e => do
    let scope ← s.scope number
    s.runInfer (inferWithin depth s.table { scope } e) fun s' d =>
      .denotes d.isValue (s'.denotationText d) (s'.snapshot d.ty) s'.cacheSizes
  | .project side e shape => do
    let scope ← s.scope number
    s.runInfer (projectWithin depth s.table side { scope } e shape) fun s' t =>
      .hasType (s'.display t) (s'.snapshot t) s'.cacheSizes
  | .lookup name owner => do
    match s.find (← s.scope number) owner name with
    | .error e => return (.error e, s)
    | .ok id =>
      let symbol ← s.symbol id
      return (.symbol (symbol.describe s.table s.state id), s)
  | .home name span => do
    match s.table.lookupIdent (← s.scope number) name with
    | .error e => return (.error e, s)
    | .ok id =>
      let symbol ← s.symbol id
      if s.table.alive symbol.home then return (.scope (s.number? symbol.home), s)
      else return (.error ⟨.scopeClosed symbol.name, span⟩, s)
  | .has name => do
    let scope ← s.scope number
    let own := (s.table.own? scope name).isSome
    let found := (s.table.lookup scope name).isSome
    return (.membership own found (s.table.ancestors scope).length, s)
  | .debugScope => do
    return (.debug (some (s.table.debugScope (← s.scope number))), s)
  | .debugSymbol name => do
    let scope ← s.scope number
    return (.debug (((s.table.lookup scope name).bind s.table.symbol?).map (·.debugText)), s)
  | .openChild => do
    return s.addScope (s.table.openChild (← s.scope number))
  | .openRoot => return s.addScope (s.table.openScope [])
  | .openPrimitives => return s.addScope s.table.openPrimitives
  | .letGo => do
    return (.dropped number, { s with table := s.table.letGo (← s.scope number) })
  | .bind name form home checked => do
    let scope ← s.scope number
    let symbol ← s.makeSymbol home name.name form
    match s.table.declare scope name symbol with
    | .ok table => return (.added true, { s with table })
    | .error e => return (if checked then .error e else .added false, s)
  | .aliasTo name target newName => do
    let scope ← s.scope number
    let target ← s.scope target
    match (s.table.lookupIdent scope name).bind (s.table.bindIdent target newName) with
    | .ok table => return (.added true, { s with table })
    | .error e => return (.error e, s)
  | .setType name form => do
    let (id, symbol) ← s.named (← s.scope number) name
    let t ← s.type number form
    match retype t symbol.kind with
    | some kind => return (.typeSet, { s with table := s.table.modifyKind id fun _ => kind })
    | none => .error .unsuitableSymbol
  | .state name form => do
    let (id, symbol) ← s.named (← s.scope number) name
    let key ← s.key number form
    match symbol.kind.cacheOwner? id with
    | some owner =>
      let cache := s.state.memo.cache owner
      return (.keyState (s.keyState cache key) cache.size, s)
    | none => .error .unsuitableSymbol
  | .fresh label =>
    let (v, store) := s.state.store.fresh
    let labels := s.labels.filter (·.1 != label) ++ [(label, v)]
    return (.madeVar v, { s with state.store := store, labels })
  | .vars => return (.vars s.vars, s)
  | .compare how x y => do
    let x ← s.type number x
    let y ← s.type number y
    let (result, s') := s.compare x y how
    return (.compared result (s'.display x) (s'.display y) s'.vars, s')
  | .inspect t => do
    let t ← s.type number t
    return (s.inspect t, s)

/-- one step of a session; a step without an answer changes nothing -/
def step (depth : Nat) (s : Session) (step : Step) : Answer × Session :=
  match s.respond depth step.scope step.request with
  | .ok r => r
  | .error why => (.refused why, s)

/-- the answers to some steps, in order -/
def run (depth : Nat) : Session → List Step → List Answer
  | _, [] => []
  | s, st :: sts =>
    let (answer, s') := s.step depth st
    answer :: run depth s' sts

end Session

/-- bind a program, then run a session on it -/
def runSession (depth : Nat) (items : List Item) (steps : List Step) : Except Error (List Answer) := do
  let m ← Module.ofItems items
  return (Session.ofModule m).run depth steps

end DualInference
