/-
What single steps come to.

For each step of a rule, when it succeeds and with what. A run that succeeded is taken apart by these, one step after the
other (`Infer.bind_eq_ok`), and a run that has to succeed is put together from them in the same way.
-/
import DualInference.Inference.Infer
import Mathlib.Data.List.Forall2

namespace DualInference

/-! ## Names and symbols -/

/-- What a name means is what the front of the environment or a symbol makes of it. -/
theorem Env.meaning?_cases {tab : SymbolTable} {env : Env} {name : String} {m : Meaning}
    (h : env.meaning? tab name = some m) :
    (∃ entry, env.locals.lookup name = some entry ∧ m = entry.meaning) ∨
    ∃ id symbol, tab.lookup env.scope name = some id ∧ tab.symbol? id = some symbol ∧ m = symbol.meaning id := by
  unfold Env.meaning? at h
  split at h
  · rename_i entry hentry
    cases h
    exact .inl ⟨entry, hentry, rfl⟩
  · obtain ⟨id, hid, h⟩ := Option.bind_eq_some_iff.1 h
    obtain ⟨symbol, hsymbol, h⟩ := Option.bind_eq_some_iff.1 h
    cases h
    exact .inr ⟨id, symbol, hid, hsymbol, rfl⟩

/-- What is neither a type variable nor a local value comes from a symbol. -/
theorem Env.meaning?_symbol {tab : SymbolTable} {env : Env} {name : String} {m : Meaning}
    (h : env.meaning? tab name = some m) (htype : ∀ t, m ≠ .typeVar t) (hlocal : ∀ t, m ≠ .localVar t) :
    ∃ id symbol, tab.symbol? id = some symbol ∧ symbol.meaning id = m := by
  rcases Env.meaning?_cases h with ⟨entry, _, rfl⟩ | ⟨id, symbol, _, hsymbol, rfl⟩
  · cases entry with
    | typeVar t => exact absurd rfl (htype t)
    | param t => exact absurd rfl (hlocal t)
  · exact ⟨id, symbol, hsymbol, rfl⟩

theorem Symbol.meaning_eq_aggregate {id : SymbolId} {symbol : Symbol} {origin : Origin} {kind : AggregateKind}
    {d : Aggregate} (h : symbol.meaning id = .aggregate origin kind d) :
    id = origin.id ∧ symbol = ⟨origin.name, origin.home, .aggregate kind d⟩ := by
  obtain ⟨name, home, k⟩ := symbol
  cases k <;> cases h
  exact ⟨rfl, rfl⟩

theorem Symbol.meaning_procedure {id : SymbolId} {symbol : Symbol} {origin : Origin} {d : Procedure}
    (h : symbol.meaning id = .procedure origin d) :
    id = origin.id ∧ symbol = ⟨origin.name, origin.home, .procedure d⟩ := by
  obtain ⟨name, home, k⟩ := symbol
  cases k <;> cases h
  exact ⟨rfl, rfl⟩

theorem Symbol.meaning_global {id : SymbolId} {symbol : Symbol} {origin : Origin} {d : Variables} {group : SymbolId}
    {position : Nat} (h : symbol.meaning id = .global origin d group position) :
    id = origin.id ∧ symbol = ⟨origin.name, origin.home, .global d group position⟩ := by
  obtain ⟨name, home, k⟩ := symbol
  cases k <;> cases h
  exact ⟨rfl, rfl⟩

/-- What a name means is declared by a symbol. -/
theorem Env.symbol?_of_meaning?_aggregate {tab : SymbolTable} {env : Env} {name : String} {origin : Origin}
    {kind : AggregateKind} {d : Aggregate} (h : env.meaning? tab name = some (.aggregate origin kind d)) :
    tab.symbol? origin.id = some ⟨origin.name, origin.home, .aggregate kind d⟩ := by
  obtain ⟨id, symbol, hsymbol, hmeaning⟩ := Env.meaning?_symbol h nofun nofun
  obtain ⟨rfl, rfl⟩ := Symbol.meaning_eq_aggregate hmeaning
  exact hsymbol

theorem Env.symbol?_of_meaning?_procedure {tab : SymbolTable} {env : Env} {name : String} {origin : Origin}
    {d : Procedure} (h : env.meaning? tab name = some (.procedure origin d)) :
    tab.symbol? origin.id = some ⟨origin.name, origin.home, .procedure d⟩ := by
  obtain ⟨id, symbol, hsymbol, hmeaning⟩ := Env.meaning?_symbol h nofun nofun
  obtain ⟨rfl, rfl⟩ := Symbol.meaning_procedure hmeaning
  exact hsymbol

theorem Env.symbol?_of_meaning?_global {tab : SymbolTable} {env : Env} {name : String} {origin : Origin} {d : Variables}
    {group : SymbolId} {position : Nat} (h : env.meaning? tab name = some (.global origin d group position)) :
    tab.symbol? origin.id = some ⟨origin.name, origin.home, .global d group position⟩ := by
  obtain ⟨id, symbol, hsymbol, hmeaning⟩ := Env.meaning?_symbol h nofun nofun
  obtain ⟨rfl, rfl⟩ := Symbol.meaning_global hmeaning
  exact hsymbol

/-! ## Steps without a context -/

section

variable {st st' : State} {span : Span}

theorem Infer.bind_of_ok {α β : Type} {x : Infer α} {f : α → Infer β} {st₁ : State} {a : α}
    (h : x st = some (.ok a, st₁)) : (x >>= f) st = f a st₁ := by
  rw [bind_apply, h]

theorem Infer.lift_eq_ok {α : Type} {x : Except Error α} {a : α} :
    Infer.lift x st = some (.ok a, st') ↔ x = .ok a ∧ st' = st := by
  cases x with
  | ok b =>
    constructor
    · intro h
      cases h
      exact ⟨rfl, rfl⟩
    · rintro ⟨hb, rfl⟩
      cases hb
      rfl
  | error e => exact ⟨nofun, fun h => nomatch h.1⟩

theorem Infer.closed_of_some {t p : Ty} (name : Infer String) (h : st.store.deref? t = some p) :
    Infer.closed t name span st = some (.ok p, st) := by
  rw [Infer.closed, bind_apply, store_apply]
  dsimp only
  rw [h]
  rfl

theorem Infer.closed_of_none {t : Ty} {name : String} (h : st.store.deref? t = none) :
    Infer.closed t (pure name) span st = some (.error ⟨.unresolvedTypeVariable name, span⟩, st) := by
  rw [Infer.closed, bind_apply, store_apply]
  dsimp only
  rw [h]
  rfl

theorem Infer.closed_eq_ok {t p : Ty} {name : Infer String} :
    Infer.closed t name span st = some (.ok p, st') ↔ st.store.deref? t = some p ∧ st' = st := by
  constructor
  · intro h
    cases hd : st.store.deref? t with
    | some u =>
      rw [closed_of_some name hd] at h
      cases h
      exact ⟨rfl, rfl⟩
    | none =>
      rw [closed, bind_apply, store_apply] at h
      dsimp only at h
      rw [hd] at h
      obtain ⟨_, _, _, hfail⟩ := bind_eq_ok.1 h
      cases hfail
  · rintro ⟨h, rfl⟩
    exact closed_of_some name h

/-- A new variable goes before the others. -/
theorem Infer.freshVars_cons (name : Ident) (names : List Ident) (st : State) :
    freshVars (name :: names) st =
      (freshVars names >>= fun ts => pure (.var st.store.size :: ts)) { st with store := st.store.fresh.2 } :=
  rfl

theorem arity_eq_ok {what : String} {expected found : Nat} :
    arity what expected found span st = some (.ok (), st') ↔ found = expected ∧ st' = st := by
  unfold arity
  split
  · rename_i h
    constructor
    · intro hrun
      cases hrun
      exact ⟨h, rfl⟩
    · rintro ⟨_, rfl⟩
      rfl
  · rename_i h
    exact ⟨nofun, fun hrun => absurd hrun.1 h⟩

theorem natLiteral_eq_ok {e : Expr} {n : Nat} :
    natLiteral e st = some (.ok n, st') ↔ e.natLiteral? = some n ∧ st' = st := by
  unfold natLiteral
  cases e.natLiteral? with
  | none => exact ⟨nofun, fun h => nomatch h.1⟩
  | some n' =>
    constructor
    · intro h
      cases h
      exact ⟨rfl, rfl⟩
    · rintro ⟨hn, rfl⟩
      cases hn
      rfl

end

/-- is a value asked for, and not a type -/
def Formal.isValue : Formal → Bool
  | .value _ _ _ => true
  | .type _ => false

theorem accept_eq_ok {formal : Formal} {actual : Denotation} {span : Span} {st st' : State} :
    formal.accept actual span st = some (.ok (), st') ↔ formal.isValue = actual.isValue ∧ st' = st := by
  have hpass : ∀ {P : Prop}, P → ((pure () : Infer Unit) st = some (.ok (), st') ↔ P ∧ st' = st) := by
    intro P hP
    constructor
    · intro h
      cases h
      exact ⟨hP, rfl⟩
    · rintro ⟨_, rfl⟩
      rfl
  cases formal <;> cases actual
  · exact hpass rfl
  · exact ⟨nofun, fun h => nomatch h.1⟩
  · exact ⟨nofun, fun h => nomatch h.1⟩
  · exact hpass rfl

/-! ## Searches -/

/-- what the end of a search leaves for its key -/
def Progress.ofOutcome : Except Error Ty → Option Progress
  | .ok t => some (.resolved t)
  | .error _ => none

namespace Memo

/-- the memo after a search for the key has ended -/
def finish (m : Memo) (id : SymbolId) (key : Key) : Except Error Ty → Memo
  | .ok t => m.modify id (·.resolve key t)
  | .error _ => m.modify id (·.abandon key)

theorem state?_finish (m : Memo) (id id' : SymbolId) (key key' : Key) (r : Except Error Ty) :
    (m.finish id key r).state? id' key' = if id' = id ∧ key' = key then Progress.ofOutcome r else m.state? id' key' := by
  cases r with
  | ok t => exact m.state?_insert id id' key key' (.resolved t)
  | error e => exact m.state?_erase id id' key key'

theorem state?_start (m : Memo) (id id' : SymbolId) (key key' : Key) :
    (m.modify id (·.start key)).state? id' key' =
      if id' = id ∧ key' = key then some .inProgress else m.state? id' key' :=
  m.state?_insert id id' key key' .inProgress

theorem resolved_start {m : Memo} {id id' : SymbolId} {key key' : Key} {t : Ty}
    (h : (m.modify id (·.start key)).state? id' key' = some (.resolved t)) : m.state? id' key' = some (.resolved t) := by
  rw [state?_start] at h
  split at h
  · cases h
  · exact h

/-- An answer was recorded before a search ended, or it is what the search came to. -/
theorem resolved_finish {m : Memo} {id id' : SymbolId} {key key' : Key} {r : Except Error Ty} {t : Ty}
    (h : (m.finish id key r).state? id' key' = some (.resolved t)) :
    r = .ok t ∨ m.state? id' key' = some (.resolved t) := by
  rw [state?_finish] at h
  split at h
  · cases r with
    | ok u =>
      cases h
      exact .inl rfl
    | error e => cases h
  · exact .inr h

end Memo

namespace Infer

variable {id : SymbolId} {key : Key} {span : Span} {compute : Infer Ty} {st st' : State}

/-- A search under way goes on with the key in progress, and ends with the record of what it came to. -/
theorem memoized_none (h : st.memo.state? id key = none) (span : Span) (compute : Infer Ty) :
    memoized start id key span compute st =
      (compute { st with memo := st.memo.modify id (·.start key) }).map fun p =>
        (p.1, { p.2 with memo := p.2.memo.finish id key p.1 }) := by
  rw [memoized, h]
  dsimp only
  rw [bind_apply, start_apply]
  dsimp only
  cases compute { st with memo := st.memo.modify id (·.start key) } with
  | none => rfl
  | some p =>
    obtain ⟨r, st'⟩ := p
    cases r <;> rfl

/-- The three ways in which a search can come out: with what is recorded, with an error while it is in progress, or with
what the computation comes to. -/
theorem memoized_cases {r : Except Error Ty} (h : memoized start id key span compute st = some (r, st')) :
    (∃ t, st.memo.state? id key = some (.resolved t) ∧ r = .ok t ∧ st' = st) ∨
    (st.memo.state? id key = some .inProgress ∧ r = .error ⟨.recursiveInference, span⟩ ∧ st' = st) ∨
    (st.memo.state? id key = none ∧ ∃ st₁, compute { st with memo := st.memo.modify id (·.start key) } = some (r, st₁) ∧
      st' = { st₁ with memo := st₁.memo.finish id key r }) := by
  cases hp : st.memo.state? id key with
  | some p =>
    rw [memoized, hp] at h
    cases p with
    | resolved t =>
      cases h
      exact .inl ⟨t, rfl, rfl, rfl⟩
    | inProgress =>
      cases h
      exact .inr (.inl ⟨rfl, rfl, rfl⟩)
  | none =>
    rw [memoized_none hp, Option.map_eq_some_iff] at h
    obtain ⟨⟨r₁, st₁⟩, hcompute, heq⟩ := h
    cases heq
    exact .inr (.inr ⟨rfl, st₁, hcompute, rfl⟩)

end Infer

/-! ## Steps in a context -/

namespace Context

open Infer

variable {cx : Context} {env : Env} {st st' : State} {span : Span}

theorem meaning_eq_ok {name : Ident} {m : Meaning} :
    cx.meaning env name st = some (.ok m, st') ↔ env.meaning? cx.table name.name = some m ∧ st' = st := by
  unfold meaning
  cases env.meaning? cx.table name.name with
  | none => exact ⟨nofun, fun h => nomatch h.1⟩
  | some m' =>
    constructor
    · intro h
      cases h
      exact ⟨rfl, rfl⟩
    · rintro ⟨hm, rfl⟩
      cases hm
      rfl

theorem home_eq_ok {origin : Origin} :
    cx.home origin span st = some (.ok env, st') ↔
      (cx.table.alive origin.home = true ∧ env = { scope := origin.home }) ∧ st' = st := by
  unfold home
  split
  · rename_i h
    constructor
    · intro hrun
      cases hrun
      exact ⟨⟨h, rfl⟩, rfl⟩
    · rintro ⟨⟨_, rfl⟩, rfl⟩
      rfl
  · rename_i h
    exact ⟨nofun, fun hrun => absurd hrun.1.1 h⟩

theorem value_eq_ok {e : Expr} {t : Ty} :
    cx.value env e st = some (.ok t, st') ↔ cx.infer env e st = some (.ok (.value t), st') := by
  rw [value, bind_eq_ok]
  constructor
  · rintro ⟨d, st₁, hd, h⟩
    cases d with
    | value u =>
      cases h
      exact hd
    | type u => cases h
  · intro h
    exact ⟨_, _, h, rfl⟩

theorem type_eq_ok {e : Expr} {t : Ty} :
    cx.type env e st = some (.ok t, st') ↔ cx.infer env e st = some (.ok (.type t), st') := by
  rw [type, bind_eq_ok]
  constructor
  · rintro ⟨d, st₁, hd, h⟩
    cases d with
    | value u => cases h
    | type u =>
      cases h
      exact hd
  · intro h
    exact ⟨_, _, h, rfl⟩

theorem length_of_denotations {es : List Expr} {key : Key} (h : cx.denotations env es st = some (.ok key, st')) :
    key.length = es.length := by
  induction es generalizing key st with
  | nil =>
    cases h
    rfl
  | cons e es ih =>
    obtain ⟨d, st₁, _, h⟩ := bind_eq_ok.1 h
    obtain ⟨ds, st₂, hds, h⟩ := bind_eq_ok.1 h
    cases h
    exact congrArg Nat.succ (ih hds)

theorem types_of_infer {es : List Expr} {ts : List Ty}
    (h : List.Forall₂ (fun e t => cx.infer env e st = some (.ok (.type t), st)) es ts) :
    cx.types env es st = some (.ok ts, st) := by
  induction h with
  | nil => rfl
  | @cons e t es ts he _ ih =>
    exact bind_eq_ok.2 ⟨t, st, type_eq_ok.2 he, bind_eq_ok.2 ⟨ts, st, ih, rfl⟩⟩

theorem instantiate_eq_ok {origin : Origin} {kind : AggregateKind} {d : Aggregate} {params : List Ty} {t : Ty} :
    instantiate origin kind d params span st = some (.ok t, st') ↔
      (params.length = d.typeVars.length ∧ t = .aggregate kind origin.id params) ∧ st' = st := by
  rw [instantiate, bind_eq_ok]
  constructor
  · rintro ⟨_, st₁, h, hrun⟩
    obtain ⟨hlen, rfl⟩ := arity_eq_ok.1 h
    cases hrun
    exact ⟨⟨hlen, rfl⟩, rfl⟩
  · rintro ⟨⟨hlen, rfl⟩, rfl⟩
    exact ⟨(), _, arity_eq_ok.2 ⟨hlen, rfl⟩, rfl⟩

/-! ### Views -/

theorem view_of_some {α : Type} {look : Ty → Option α} {t : Ty} {a : α} (h : look (st.store.prune t) = some a) :
    cx.view look t span st = some (.ok a, st) := by
  rw [view, bind_apply, store_apply]
  dsimp only
  rw [h]
  rfl

theorem view_of_none {α : Type} {look : Ty → Option α} {t : Ty} (h : look (st.store.prune t) = none) :
    cx.view look t span st =
      some (.error ⟨.invalidType (st.store.display cx.table.nameOf t), span⟩, st) := by
  rw [view, bind_apply, store_apply]
  dsimp only
  rw [h]
  rfl

/-! ### Comparisons -/

theorem mismatch_ne_ok {α : Type} {t u : Ty} {a : α} : cx.mismatch t u span st ≠ some (.ok a, st') := by
  intro hrun
  obtain ⟨_, _, _, hrun₁⟩ := bind_eq_ok.1 hrun
  obtain ⟨_, _, _, hrun₂⟩ := bind_eq_ok.1 hrun₁
  cases hrun₂

theorem same_eq_ok {t u : Ty} : cx.same t u span st = some (.ok (), st') ↔ st.store.equal t u = true ∧ st' = st := by
  rw [same, bind_eq_ok]
  constructor
  · rintro ⟨s, st₁, hs, hrun⟩
    cases hs
    split at hrun
    · rename_i h
      cases hrun
      exact ⟨h, rfl⟩
    · exact absurd hrun mismatch_ne_ok
  · rintro ⟨h, rfl⟩
    exact ⟨_, _, rfl, by rw [if_pos h]; rfl⟩

theorem unified_of_some {t u : Ty} {s : Store} (h : cx.unify st.store t u = some s) :
    cx.unified t u span st = some (.ok (), { st with store := s }) := by
  rw [unified, bind_apply, store_apply]
  dsimp only
  rw [h]
  rfl

theorem unified_of_none {t u : Ty} (h : cx.unify st.store t u = none) :
    cx.unified t u span st = cx.mismatch t u span st := by
  rw [unified, bind_apply, store_apply]
  dsimp only
  rw [h]

theorem unified_eq_ok {t u : Ty} :
    cx.unified t u span st = some (.ok (), st') ↔
      ∃ s, cx.unify st.store t u = some s ∧ st' = { st with store := s } := by
  constructor
  · intro hrun
    cases hu : cx.unify st.store t u with
    | some s =>
      rw [unified_of_some hu] at hrun
      cases hrun
      exact ⟨s, rfl, rfl⟩
    | none =>
      rw [unified_of_none hu] at hrun
      exact absurd hrun mismatch_ne_ok
  · rintro ⟨s, hs, rfl⟩
    exact unified_of_some hs

theorem mismatch_apply {α : Type} (cx : Context) (t u : Ty) (span : Span) (st : State) : cx.mismatch (α := α) t u span st =
    some (.error ⟨.typeMismatch (st.store.display cx.table.nameOf t) (st.store.display cx.table.nameOf u), span⟩, st) :=
  rfl

/-! ### Before the body -/

/-- where the return type is read or the body is inferred, once the formals are matched: behind the parameters and the
type variables of the procedure -/
def bodyEnv (cx : Context) (origin : Origin) (d : Procedure) (key : Key) (args : List Expr) (span : Span) :
    Infer Env := do
  arity "argument(s)" d.formals.length key.length span
  let home ← cx.home origin span
  let vars ← Infer.freshVars d.typeVars
  let locals ← Infer.lift (Frame.ofTypeVars d.typeVars vars)
  cx.unifyFormals { home with locals } d.formals key args
  unconditional d.conditions
  let types ← Infer.solution span d.typeVars vars
  let solved ← Infer.lift (Frame.ofTypeVars d.typeVars types)
  let params ← cx.addParams [] d.formals key
  return { home with locals := params ++ solved }

theorem returnType_eq (cx : Context) (origin : Origin) (d : Procedure) (key : Key) (args : List Expr) (span : Span) :
    cx.returnType origin d key args span = cx.bodyEnv origin d key args span >>= fun env =>
      cx.result env d >>= fun t => Infer.closed t (cx.display t) d.span := by
  simp only [returnType, bodyEnv, bind_assoc, pure_bind]

end Context

end DualInference
