/-
The monad of inference and the steps that all rules share.

An inference reads the symbol table, which stays as it is, and changes the store of type variables and the memo. It
ends with a result or with an error, and what it did to the state stays done in both cases. Nothing bounds how deep
one inference leads into others, so inference is told how deep it may go, and gives no answer at all (`none`) if it
would have to go deeper.

Rules are written without recursion: a rule gets the inference of other expressions as part of its `Context`.
-/
import DualInference.Cache
import DualInference.Inference.Environment
import DualInference.Ty.Shape
import DualInference.Ty.Unify

namespace DualInference

/-- what inference changes -/
structure State where
  store : Store := {}
  memo : Memo := {}
deriving DecidableEq

/-- computations that may fail with an error, change the state in any case, and may run out of depth -/
abbrev Infer := ExceptT Error (StateT State Option)

namespace Infer

def fail {α : Type} (cause : Cause) (span : Span) : Infer α :=
  throw ⟨cause, span⟩

/-- a computation without effect -/
def lift {α : Type} : Except Error α → Infer α
  | .ok a => pure a
  | .error e => throw e

/-- the depth is used up -/
def tooDeep {α : Type} : Infer α :=
  fun _ => none

/-- the current store -/
def store : Infer Store :=
  return (← get).store

/-- new type variables, one for each name -/
def freshVars : List Ident → Infer (List Ty)
  | [] => return []
  | _ :: names => do
    let (v, store) := (← get).store.fresh
    modify ({ · with store })
    return .var v :: (← freshVars names)

/-- the variable-free form of a type; if the type is still open it goes by `name` in the error -/
def closed (t : Ty) (name : Infer String) (span : Span) : Infer Ty := do
  match (← store).deref? t with
  | some t' => return t'
  | none => fail (.unresolvedTypeVariable (← name)) span

/-- the variable-free types of some type variables, position by position -/
def solution (span : Span) : List Ident → List Ty → Infer (List Ty)
  | name :: names, t :: ts => do
    let t' ← closed t (pure name.name) span
    return t' :: (← solution span names ts)
  | _, _ => return []

/-- mark a key as in progress -/
def start (id : SymbolId) (key : Key) : Infer Unit :=
  modify fun st => { st with memo := st.memo.modify id (·.start key) }

/-- the answer recorded for a key, or else the one `compute` finds, recorded. While it is sought the key is in
progress, marked by `start`; to need it then is an error at `span`. A search that fails leaves no record. -/
def memoized (start : SymbolId → Key → Infer Unit) (id : SymbolId) (key : Key) (span : Span) (compute : Infer Ty) :
    Infer Ty := fun st =>
  match st.memo.state? id key with
  | some (.resolved t) => some (.ok t, st)
  | some .inProgress => some (.error ⟨.recursiveInference, span⟩, st)
  | none =>
    match (start id key >>= fun _ => compute) st with
    | some (.ok t, st') => some (.ok t, { st' with memo := st'.memo.modify id (·.resolve key t) })
    | some (.error err, st') => some (.error err, { st' with memo := st'.memo.modify id (·.abandon key) })
    | none => none

/-! ### Runs of computations -/

theorem bind_apply {α β : Type} (x : Infer α) (f : α → Infer β) (st : State) :
    (x >>= f) st = match x st with
      | some (.ok a, st') => f a st'
      | some (.error e, st') => some (.error e, st')
      | none => none := by
  simp only [bind, ExceptT.bind, ExceptT.mk, StateT.bind]
  cases x st with
  | none => rfl
  | some p =>
    obtain ⟨r, st'⟩ := p
    cases r <;> rfl

/-- A sequence comes to a result if its parts do. -/
theorem bind_eq_ok {α β : Type} {x : Infer α} {f : α → Infer β} {st st' : State} {b : β} :
    (x >>= f) st = some (.ok b, st') ↔ ∃ a st₁, x st = some (.ok a, st₁) ∧ f a st₁ = some (.ok b, st') := by
  rw [bind_apply]
  constructor
  · intro h
    split at h
    · rename_i a st₁ ha
      exact ⟨a, st₁, ha, h⟩
    · cases h
    · cases h
  · rintro ⟨a, st₁, ha, h⟩
    rw [ha]
    exact h

theorem store_apply (st : State) : store st = some (.ok st.store, st) :=
  rfl

theorem start_apply (id : SymbolId) (key : Key) (st : State) :
    start id key st = some (.ok (), { st with memo := st.memo.modify id (·.start key) }) :=
  rfl

end Infer

/-- what a rule works with: the symbol table, the inference of other expressions, how to get at an answer that may have
been found before, and how to make two types equal -/
structure Context where
  table : SymbolTable
  infer : Env → Expr → Infer Denotation
  remember : SymbolId → Key → Span → Infer Ty → Infer Ty := Infer.memoized Infer.start
  unify : Store → Ty → Ty → Option Store := Store.unify

namespace Context

variable (cx : Context)

/-! ## Demands on one expression -/

/-- the type of an expression that has to be a value -/
def value (env : Env) (e : Expr) : Infer Ty := do
  match ← cx.infer env e with
  | .value t => return t
  | .type _ => Infer.fail .valueExpected e.span

/-- the type that an expression has to denote -/
def type (env : Env) (e : Expr) : Infer Ty := do
  match ← cx.infer env e with
  | .value _ => Infer.fail .typeExpected e.span
  | .type t => return t

/-- the denotations of some expressions, from left to right -/
def denotations (env : Env) : List Expr → Infer (List Denotation)
  | [] => return []
  | e :: es => do
    let d ← cx.infer env e
    return d :: (← denotations env es)

/-- the types of some values, from left to right -/
def values (env : Env) : List Expr → Infer (List Ty)
  | [] => return []
  | e :: es => do
    let t ← cx.value env e
    return t :: (← values env es)

/-- the types denoted by some expressions, from left to right -/
def types (env : Env) : List Expr → Infer (List Ty)
  | [] => return []
  | e :: es => do
    let t ← cx.type env e
    return t :: (← types env es)

/-! ## Demands on types -/

/-- the text of a type as things stand -/
def display (t : Ty) : Infer String :=
  return (← Infer.store).display cx.table.nameOf t

def invalidType {α : Type} (t : Ty) (span : Span) : Infer α := do
  Infer.fail (.invalidType (← cx.display t)) span

def mismatch {α : Type} (expected found : Ty) (span : Span) : Infer α := do
  let expected ← cx.display expected
  let found ← cx.display found
  Infer.fail (.typeMismatch expected found) span

/-- take apart a type that has to be of the shape a view asks for -/
def view {α : Type} (look : Ty → Option α) (t : Ty) (span : Span) : Infer α := do
  match look ((← Infer.store).prune t) with
  | some a => return a
  | none => cx.invalidType t span

/-- a type that has to be of a shape -/
def shaped (shape : Shape) (t : Ty) (span : Span) : Infer Unit := do
  if (← Infer.store).hasShape shape t then return () else cx.invalidType t span

/-- two types that have to be equal as they are -/
def same (expected found : Ty) (span : Span) : Infer Unit := do
  if (← Infer.store).equal expected found then return () else cx.mismatch expected found span

/-- two types that have to be made equal -/
def unified (formal actual : Ty) (span : Span) : Infer Unit := do
  match cx.unify (← Infer.store) formal actual with
  | some store => modify ({ · with store })
  | none => cx.mismatch formal actual span

end Context

/-! ## Demands on the program text -/

/-- a list that has to be of the declared length -/
def arity (what : String) (expected found : Nat) (span : Span) : Infer Unit :=
  if found = expected then return () else Infer.fail (.arity what expected found) span

/-- an expression that has to be a literal natural number -/
def natLiteral (e : Expr) : Infer Nat :=
  match e.natLiteral? with
  | some n => return n
  | none => Infer.fail .intLiteralExpected e.span

/-- the home of a symbol, which has to be alive -/
def Context.home (cx : Context) (origin : Origin) (span : Span) : Infer Env :=
  if cx.table.alive origin.home then return { scope := origin.home }
  else Infer.fail (.scopeClosed origin.name) span

end DualInference
