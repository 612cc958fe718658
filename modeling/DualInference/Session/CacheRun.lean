/-
Sessions on one cache. Keys are begun under guards; each guard is used up once, by resolving or abandoning its key.
Guards of one key do not know of each other: the last event on the key decides.
-/
import DualInference.Session.Run

namespace DualInference

inductive CacheRequest where
  /-- begin a key under a guard -/
  | start (guard : String) (key : List DenotationForm)
  | resolve (guard : String) (type : TypeForm)
  | abandon (guard : String)
  | state (key : List DenotationForm)
  | unify (x y : TypeForm)

inductive CacheEvent where
  /-- a guard was made or used up -/
  | guarded
  | state (state : KeyState)
  | unified (result : Bool)

/-- what a request brought about, and the number of keys afterwards -/
structure CacheAnswer where
  event : CacheEvent
  size : Nat

structure CacheSession where
  /-- names of aggregates; the position is the symbol -/
  names : List String
  labels : List (String × VarId)
  store : Store
  cache : Cache := {}
  guards : List (String × Key) := []

namespace CacheSession

/-- a session with aggregates of the given names, and a new type variable for each label -/
def make (names labels : List String) : CacheSession :=
  let (store, vars) := labels.foldl (fun (store, vars) label =>
    let (v, store') := store.fresh
    (store', (label, v) :: vars)) (({} : Store), [])
  { names, labels := vars, store }

/-- the aggregate of a name -/
def symbol? (s : CacheSession) (name : String) : Option SymbolId :=
  s.names.idxOf? name

/-- the type variable of a label -/
def var? (s : CacheSession) (label : String) : Option VarId :=
  s.labels.lookup label

def type (s : CacheSession) (t : TypeForm) : Except Refusal Ty :=
  (t.read s.symbol? s.var?).elim (.error .unknownType) .ok

def key (s : CacheSession) (ds : List DenotationForm) : Except Refusal Key :=
  (ds.mapM (DenotationForm.read s.symbol? s.var?)).elim (.error .unknownType) .ok

/-- take a guard away, with its key -/
def takeGuard (s : CacheSession) (guard : String) : Except Refusal (Key × CacheSession) :=
  match s.guards.lookup guard with
  | some key => .ok (key, { s with guards := s.guards.filter (·.1 != guard) })
  | none => .error .unknownGuard

def keyState (s : CacheSession) (key : Key) : KeyState :=
  match s.cache.state? key with
  | none => .notStarted
  | some .inProgress => .inProgress
  | some (.resolved t) => .resolved (s.store.snapshot (fun e => (s.names[e]?).getD "") t)

def respond (s : CacheSession) : CacheRequest → Except Refusal (CacheEvent × CacheSession)
  | .start guard form => do
    let key ← s.key form
    return (.guarded, { s with cache := s.cache.start key, guards := (guard, key) :: s.guards })
  | .resolve guard form => do
    let t ← s.type form
    let (key, s') ← s.takeGuard guard
    return (.guarded, { s' with cache := s'.cache.resolve key t })
  | .abandon guard => do
    let (key, s') ← s.takeGuard guard
    return (.guarded, { s' with cache := s'.cache.abandon key })
  | .state form => do
    let key ← s.key form
    return (.state (s.keyState key), s)
  | .unify x y => do
    let x ← s.type x
    let y ← s.type y
    match s.store.unify x y with
    | some store => return (.unified true, { s with store })
    | none => return (.unified false, s)

/-- the answers to some requests, in order; a request without an answer changes nothing -/
def run : CacheSession → List CacheRequest → List (Except Refusal CacheAnswer)
  | _, [] => []
  | s, r :: rs =>
    match s.respond r with
    | .ok (event, s') => .ok ⟨event, s'.cache.size⟩ :: run s' rs
    | .error why => .error why :: run s rs

end CacheSession

end DualInference
