/-
Computations that come to an end.

Whether an inference ends may depend on the keys that are in progress when it starts. So it is said of a computation in a
situation (`Situation`): from every state with these keys in progress and without variables in its recorded answers, the
computation ends, in such a state again, with a result of the kind that is asked for or with an error (`Infer.Halts`). A
situation may also rule out that a key in progress is needed; then no error is one of recursive inference.

Sequences halt if their parts do. A remembered answer halts if its computation halts with its key in progress too
(`Halts.memoized`). The other steps halt in all situations.
-/
import DualInference.Proofs.Inference.Confinement
import DualInference.Proofs.Store.Matching

namespace DualInference

/-- what is under way while something is computed -/
structure Situation where
  /-- the keys in progress -/
  busy : SymbolId → Key → Prop
  /-- may a key in progress be needed -/
  cyclic : Prop

namespace Situation

/-- one key more is in progress -/
def begin (S : Situation) (id : SymbolId) (key : Key) : Situation :=
  { S with busy := fun id' key' => (id' = id ∧ key' = key) ∨ S.busy id' key' }

/-- the state is one of the situation, and no recorded answer has a variable -/
structure Holds (S : Situation) (st : State) : Prop where
  busy : ∀ id key, st.memo.state? id key = some .inProgress ↔ S.busy id key
  answers : ∀ {id key t}, st.memo.state? id key = some (.resolved t) → Below 0 t

namespace Holds

variable {S : Situation} {st : State} {id : SymbolId} {key : Key}

theorem start (h : S.Holds st) :
    (S.begin id key).Holds { st with memo := st.memo.modify id (·.start key) } := by
  constructor
  · intro id' key'
    rw [Memo.state?_start, begin]
    by_cases hk : id' = id ∧ key' = key
    · simp [hk]
    · rw [if_neg hk, h.busy]
      simp [hk]
  · exact fun ht => h.answers (Memo.resolved_start ht)

/-- When the search for a key has ended, the situation is the one before. -/
theorem finish (h : (S.begin id key).Holds st) (hidle : ¬S.busy id key) {r : Except Error Ty}
    (hr : ∀ t, r = .ok t → Below 0 t) : S.Holds { st with memo := st.memo.finish id key r } := by
  constructor
  · intro id' key'
    rw [Memo.state?_finish]
    by_cases hk : id' = id ∧ key' = key
    · obtain ⟨rfl, rfl⟩ := hk
      cases r <;> simp [Progress.ofOutcome, hidle]
    · rw [if_neg hk, h.busy, begin]
      simp [hk]
  · intro id' key' t ht
    rcases Memo.resolved_finish ht with hok | ht
    · exact hr t hok
    · exact h.answers ht

end Holds

end Situation

namespace Infer

variable {S : Situation} {α β : Type}

/-- in the situation, the computation ends with a result of the given kind or with an error, and the situation is the same
afterwards -/
def Halts (S : Situation) (P : α → Prop) (x : Infer α) : Prop :=
  ∀ st, S.Holds st → ∃ r st', x st = some (r, st') ∧ S.Holds st' ∧ (∀ a, r = .ok a → P a) ∧
    ∀ e, r = .error e → e.cause = .recursiveInference → S.cyclic

namespace Halts

variable {P Q : α → Prop} {R : β → Prop}

theorem mono {x : Infer α} (h : Halts S P x) (hPQ : ∀ a, P a → Q a) : Halts S Q x := by
  intro st hst
  obtain ⟨r, st', hrun, hst', hok, herror⟩ := h st hst
  exact ⟨r, st', hrun, hst', fun a ha => hPQ a (hok a ha), herror⟩

/-- The result also has what every result of the computation has. -/
theorem also {x : Infer α} (h : Halts S P x) (hQ : ∀ {st a st'}, x st = some (.ok a, st') → Q a) :
    Halts S (fun a => P a ∧ Q a) x := by
  intro st hst
  obtain ⟨r, st', hrun, hst', hok, herror⟩ := h st hst
  refine ⟨r, st', hrun, hst', fun a ha => ⟨hok a ha, ?_⟩, herror⟩
  subst ha
  exact hQ hrun

theorem pure {a : α} (h : P a) : Halts S P (pure a) := by
  refine fun st hst => ⟨.ok a, st, rfl, hst, fun b hb => ?_, nofun⟩
  cases hb
  exact h

theorem fail {cause : Cause} (h : cause ≠ .recursiveInference) (span : Span) :
    Halts S P (fail cause span) := by
  refine fun st hst => ⟨.error ⟨cause, span⟩, st, rfl, hst, nofun, fun e he hcause => ?_⟩
  cases he
  exact absurd hcause h

theorem bind {x : Infer α} {f : α → Infer β} (hx : Halts S P x) (hf : ∀ a, P a → Halts S R (f a)) :
    Halts S R (x >>= f) := by
  intro st hst
  obtain ⟨r, st₁, hrun, hst₁, hok, herror⟩ := hx st hst
  rw [bind_apply, hrun]
  cases r with
  | ok a => exact hf a (hok a rfl) st₁ hst₁
  | error e =>
    refine ⟨.error e, st₁, rfl, hst₁, nofun, fun e' he' => ?_⟩
    cases he'
    exact herror e rfl

/-- A computation that goes on with the store it finds. -/
theorem store {f : Store → Infer β} (hf : ∀ s, Halts S R (f s)) : Halts S R (Infer.store >>= f) :=
  fun st hst => hf st.store st hst

theorem modifyStore (f : State → Store) {P : Unit → Prop} (h : P ()) :
    Halts S P (modify fun st => { st with store := f st }) :=
  fun st hst => ⟨.ok (), { st with store := f st }, rfl, ⟨hst.busy, hst.answers⟩, fun _ _ => h, nofun⟩

/-- An answer is there, or its key is in progress, or its computation halts with the key in progress. -/
theorem memoized {id : SymbolId} {key : Key} {compute : Infer Ty} (hbusy : S.busy id key → S.cyclic)
    (h : ¬S.busy id key → Halts (S.begin id key) (Below 0) compute) (span : Span) :
    Halts S (Below 0) (memoized start id key span compute) := by
  intro st hst
  cases hp : st.memo.state? id key with
  | some p =>
    rw [Infer.memoized, hp]
    cases p with
    | resolved t => exact pure (hst.answers hp) st hst
    | inProgress =>
      exact ⟨_, st, rfl, hst, (fun _ h => by cases h), fun _ _ _ => hbusy ((hst.busy id key).1 hp)⟩
  | none =>
    have hidle : ¬S.busy id key := by
      rw [← hst.busy, hp]
      intro h
      cases h
    obtain ⟨r, st₁, hrun, hst₁, hok, herror⟩ := h hidle _ hst.start
    rw [memoized_none hp, hrun]
    exact ⟨r, _, rfl, hst₁.finish hidle hok, hok, herror⟩

/-! ### Steps without a context -/

theorem lift {x : Except Error α} (hok : ∀ a, x = .ok a → P a)
    (herror : ∀ e, x = .error e → e.cause ≠ .recursiveInference) : Halts S P (lift x) := by
  cases x with
  | ok a => exact pure (hok a rfl)
  | error e => exact fail (herror e rfl) e.span

theorem freshVars (names : List Ident) : Halts S (fun ts => ts.length = names.length) (freshVars names) := by
  induction names with
  | nil => exact pure rfl
  | cons name names ih =>
    intro st hst
    have hrest : Halts S (fun ts : List Ty => ts.length = names.length + 1)
        (Infer.freshVars names >>= fun ts => Pure.pure (.var st.store.size :: ts)) :=
      ih.bind fun ts hts => pure (by rw [List.length_cons, hts])
    exact hrest { st with store := st.store.fresh.2 } ⟨hst.busy, hst.answers⟩

theorem closed {name : Infer String} (t : Ty) (h : Halts S (fun _ => True) name) (span : Span) :
    Halts S (Below 0) (closed t name span) := by
  refine store fun s => ?_
  cases hd : s.deref? t with
  | some u => exact pure (below_closed (Store.vars_deref? hd))
  | none => exact h.bind fun _ _ => fail (by nofun) span

theorem solution (span : Span) {names : List Ident} {ts : List Ty} (hlen : ts.length = names.length) :
    Halts S (fun us => Below 0 us ∧ us.length = ts.length) (solution span names ts) := by
  induction names generalizing ts with
  | nil => exact pure ⟨nofun, hlen.symm⟩
  | cons name names ih =>
    cases ts with
    | nil => cases hlen
    | cons t ts =>
      have hname : Halts S (fun _ => True) (Pure.pure name.name : Infer String) := pure trivial
      refine (closed t hname span).bind fun u hu => (ih (Nat.succ.inj hlen)).bind fun us hus => ?_
      exact pure ⟨below_cons.2 ⟨hu, hus.1⟩, congrArg Nat.succ hus.2⟩

theorem arity (what : String) (expected found : Nat) (span : Span) :
    Halts S (fun _ => found = expected) (DualInference.arity what expected found span) := by
  unfold DualInference.arity
  split
  · rename_i h
    exact pure h
  · exact fail (by nofun) span

theorem natLiteral (e : Expr) : Halts S (fun _ => True) (DualInference.natLiteral e) := by
  unfold DualInference.natLiteral
  split
  · exact pure trivial
  · exact fail (by nofun) _

theorem part {P : Ty → Prop} {parts : List Ty} (h : ∀ t ∈ parts, P t) (position : Nat) (span : Span) :
    Halts S P (DualInference.part parts position span) := by
  unfold DualInference.part
  split
  · rename_i t ht
    exact pure (h t (List.mem_of_getElem? ht))
  · exact fail (fun h => by cases h) span

theorem instantiate (origin : Origin) (kind : AggregateKind) (d : Aggregate) (params : List Ty) (span : Span) :
    Halts S (fun t => t = .aggregate kind origin.id params) (DualInference.instantiate origin kind d params span) :=
  (arity _ _ _ span).bind fun _ _ => pure rfl

theorem unconditional (conditions : List Expr) : Halts S (fun _ => True) (Context.unconditional conditions) := by
  cases conditions with
  | nil => exact pure trivial
  | cons condition conditions => exact fail (by nofun) condition.span

end Halts

end Infer

end DualInference
