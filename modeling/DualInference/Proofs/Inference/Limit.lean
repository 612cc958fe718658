/-
Inference without a bound on its depth.

The deeper an inference may go the more it can answer, and an answer once given stays. So there is an inference that
gives all the answers that any depth gives (`inferFully`). It obeys its rule without loss of depth (`inferFully_eq`), and
proofs about two inferences can follow one of them without counting levels.

That the limit obeys the rule is shown for everything that is put together like a rule (`Built.limit`).
-/
import DualInference.Proofs.Inference.Built
import DualInference.Proofs.Inference.Results

namespace DualInference

namespace Infer

/-- computations at all depths, and the one that gives their answers -/
structure Limit {α : Type} (x : Option Nat → Infer α) : Prop where
  succ : ∀ {n st r}, x (some n) st = some r → x (some (n + 1)) st = some r
  reached : ∀ {st r}, x none st = some r ↔ ∃ n, x (some n) st = some r

namespace Limit

variable {α β : Type}

theorem mono {x : Option Nat → Infer α} (h : Limit x) {n m : Nat} (hnm : n ≤ m) {st : State}
    {r : Except Error α × State} (hx : x (some n) st = some r) : x (some m) st = some r := by
  induction hnm with
  | refl => exact hx
  | step _ ih => exact h.succ ih

theorem const (x : Infer α) : Limit fun _ => x :=
  ⟨fun h => h, fun h => ⟨0, h⟩, fun ⟨_, h⟩ => h⟩

theorem bind {x : Option Nat → Infer α} {f : Option Nat → α → Infer β} {P : α → Prop}
    (hP : ∀ {i st a st'}, x i st = some (.ok a, st') → P a) (hx : Limit x) (hf : ∀ a, P a → Limit fun i => f i a) :
    Limit fun i => x i >>= f i := by
  -- an answer comes of a result of the first computation and of the second one there, or of an error of the first
  have hcases : ∀ {i st r}, (x i >>= f i) st = some r ↔
      (∃ a st₁, x i st = some (.ok a, st₁) ∧ f i a st₁ = some r) ∨
      ∃ e st₁, x i st = some (.error e, st₁) ∧ r = (.error e, st₁) := by
    intro i st r
    rw [bind_apply]
    constructor
    · intro h
      split at h
      · rename_i a st₁ ha
        exact .inl ⟨a, st₁, ha, h⟩
      · rename_i e st₁ he
        cases h
        exact .inr ⟨e, st₁, he, rfl⟩
      · cases h
    · rintro (⟨a, st₁, ha, h⟩ | ⟨e, st₁, he, rfl⟩)
      · rw [ha]
        exact h
      · rw [he]
  constructor
  · intro n st r h
    rw [hcases] at h ⊢
    rcases h with ⟨a, st₁, ha, hr⟩ | ⟨e, st₁, he, hr⟩
    · exact .inl ⟨a, st₁, hx.succ ha, (hf a (hP ha)).succ hr⟩
    · exact .inr ⟨e, st₁, hx.succ he, hr⟩
  · intro st r
    rw [hcases]
    constructor
    · rintro (⟨a, st₁, ha, hr⟩ | ⟨e, st₁, he, hr⟩)
      · obtain ⟨n, hn⟩ := hx.reached.1 ha
        obtain ⟨m, hm⟩ := (hf a (hP ha)).reached.1 hr
        refine ⟨max n m, hcases.2 (.inl ⟨a, st₁, ?_, ?_⟩)⟩
        · exact hx.mono (Nat.le_max_left n m) hn
        · exact (hf a (hP ha)).mono (Nat.le_max_right n m) hm
      · obtain ⟨n, hn⟩ := hx.reached.1 he
        exact ⟨n, hcases.2 (.inr ⟨e, st₁, hn, hr⟩)⟩
    · rintro ⟨n, hn⟩
      rcases hcases.1 hn with ⟨a, st₁, ha, hr⟩ | ⟨e, st₁, he, hr⟩
      · exact .inl ⟨a, st₁, hx.reached.2 ⟨n, ha⟩, (hf a (hP ha)).reached.2 ⟨n, hr⟩⟩
      · exact .inr ⟨e, st₁, hx.reached.2 ⟨n, he⟩, hr⟩

end Limit

/-- a way to get at answers that does not notice depth -/
def Continuous (remember : SymbolId → Key → Span → Infer Ty → Infer Ty) : Prop :=
  ∀ id key span {x : Option Nat → Infer Ty}, Limit x → Limit fun i => remember id key span (x i)

/-- answers that are found anew each time -/
def plainly : SymbolId → Key → Span → Infer Ty → Infer Ty :=
  fun _ _ _ compute => compute

theorem continuous_plainly : Continuous plainly :=
  fun _ _ _ _ hx => hx

theorem continuous_memoized : Continuous (memoized start) := by
  intro id key span x hx
  have hrecorded : ∀ {st}, st.memo.state? id key ≠ none → ∀ i j,
      memoized start id key span (x i) st = memoized start id key span (x j) st := by
    intro st hst i j
    unfold memoized
    cases hs : st.memo.state? id key with
    | none => exact absurd hs hst
    | some p => cases p <;> rfl
  constructor
  · intro n st r h
    by_cases hst : st.memo.state? id key = none
    · rw [memoized_none hst, Option.map_eq_some_iff] at h ⊢
      obtain ⟨p, hp, hr⟩ := h
      exact ⟨p, hx.succ hp, hr⟩
    · rwa [hrecorded hst _ (some n)]
  · intro st r
    by_cases hst : st.memo.state? id key = none
    · simp only [memoized_none hst, Option.map_eq_some_iff]
      constructor
      · rintro ⟨p, hp, hr⟩
        obtain ⟨n, hn⟩ := hx.reached.1 hp
        exact ⟨n, p, hn, hr⟩
      · rintro ⟨n, p, hp, hr⟩
        exact ⟨p, hx.reached.2 ⟨n, hp⟩, hr⟩
    · constructor
      · intro h
        exact ⟨0, by rwa [hrecorded hst _ none]⟩
      · rintro ⟨n, h⟩
        rwa [hrecorded hst _ (some n)]

end Infer

/-! ## The limit of inferences -/

/-- What is built from inferences has as its limit what is built from their limits. -/
theorem Built.limit {F : Contexts (Option Nat)} (hinfer : ∀ env e, Infer.Limit fun i => F.infer i env e)
    (hremember : ∀ id key span {x : Option Nat → Infer Ty}, Infer.Limit x →
      Infer.Limit fun i => F.remember i id key span (x i))
    {α : Type} {x : Option Nat → Infer α} (hx : Built F x) : Infer.Limit x := by
  induction hx with
  | steady h => exact .const _
  | infer env e => exact hinfer env e
  | sequence P hP _ _ ihx ihf => exact .bind hP ihx ihf
  | answer q key _ _ ih => exact hremember q.id key q.span ih

/-- inferences at all depths, and one to be their limit -/
def Contexts.deepening (remember : SymbolId → Key → Span → Infer Ty → Infer Ty) (table : SymbolTable)
    (within : Nat → Env → Expr → Infer Denotation) (fully : Env → Expr → Infer Denotation) : Contexts (Option Nat) where
  table := table
  infer := fun i => i.elim fully within
  remember := fun _ => remember

section

variable {remember : SymbolId → Key → Span → Infer Ty → Infer Ty} (hremember : Infer.Continuous remember)
  (table : SymbolTable)

include hremember

/-- One level more keeps all answers. -/
theorem inferBy_succ (depth : Nat) {env : Env} {e : Expr} {st : State} {r : Except Error Denotation × State}
    (h : inferBy remember depth table env e st = some r) : inferBy remember (depth + 1) table env e st = some r := by
  induction depth generalizing env e st r with
  | zero => cases h
  | succ depth ih =>
    -- the two depths, taken as a sequence that does not change after its second member
    let F := Contexts.deepening remember table (fun n => inferBy remember (depth + min n 1) table)
      (inferBy remember (depth + 1) table)
    have hF : ∀ env e, Infer.Limit fun i => F.infer i env e := by
      intro env e
      constructor
      · intro n st r hr
        cases n with
        | zero => exact ih hr
        | succ n =>
          have hmin : min (n + 1 + 1) 1 = min (n + 1) 1 := by omega
          simpa [F, Contexts.deepening, hmin] using hr
      · intro st r
        constructor
        · intro hr
          exact ⟨1, hr⟩
        · rintro ⟨n, hr⟩
          cases n with
          | zero => exact ih hr
          | succ n => simpa [F, Contexts.deepening] using hr
    exact ((Built.rule (F := F) env e).limit hF hremember).succ (n := 0) h

/-- what an expression denotes, going as deep as it takes -/
noncomputable def inferFully (remember : SymbolId → Key → Span → Infer Ty → Infer Ty) (table : SymbolTable) (env : Env)
    (e : Expr) : Infer Denotation := fun st =>
  open Classical in
  if h : ∃ n, (inferBy remember n table env e st).isSome then inferBy remember h.choose table env e st else none

theorem inferBy_mono {n m : Nat} (hnm : n ≤ m) {env : Env} {e : Expr} {st : State} {r : Except Error Denotation × State}
    (h : inferBy remember n table env e st = some r) : inferBy remember m table env e st = some r := by
  induction hnm with
  | refl => exact h
  | step _ ih => exact inferBy_succ hremember table _ ih

theorem inferFully_reached {env : Env} {e : Expr} {st : State} {r : Except Error Denotation × State} :
    inferFully remember table env e st = some r ↔ ∃ n, inferBy remember n table env e st = some r := by
  unfold inferFully
  constructor
  · intro h
    split at h
    · exact ⟨_, h⟩
    · cases h
  · rintro ⟨n, hn⟩
    have hex : ∃ n, (inferBy remember n table env e st).isSome := ⟨n, by rw [hn]; rfl⟩
    rw [dif_pos hex]
    obtain ⟨r', hr'⟩ := Option.isSome_iff_exists.1 hex.choose_spec
    rw [hr']
    -- both depths are below their maximum, where there is one answer
    have h₁ := inferBy_mono hremember table (Nat.le_max_left n hex.choose) hn
    have h₂ := inferBy_mono hremember table (Nat.le_max_right n hex.choose) hr'
    rw [← h₁, ← h₂]

/-- What is built from inferences at all depths has as its limit what is built from inference without a bound. -/
theorem Built.reached {α : Type} {x : Option Nat → Infer α}
    (hx : Built (.deepening remember table (fun n => inferBy remember n table) (inferFully remember table)) x) :
    Infer.Limit x := by
  refine Built.limit (fun env e => ?_) (fun id key span _ => hremember id key span) hx
  exact ⟨fun h => inferBy_succ hremember table _ h, inferFully_reached hremember table⟩

/-- Without a bound on depth, inference goes by the rule. -/
theorem inferFully_eq (env : Env) (e : Expr) :
    inferFully remember table env e = Context.rule { table, infer := inferFully remember table, remember } env e := by
  funext st
  refine Option.ext fun r => ?_
  rw [inferFully_reached hremember table]
  refine Iff.trans ?_ (Built.reached hremember table (Built.rule env e)).reached.symm
  constructor
  · rintro ⟨n, hn⟩
    exact ⟨n, inferBy_succ hremember table n hn⟩
  · rintro ⟨n, hn⟩
    exact ⟨n + 1, hn⟩

end

end DualInference
