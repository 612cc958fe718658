/-
Keys in progress.

An inference may begin many keys, of many procedures and variable definitions, one inside the other, and any of them may
fail. Yet what it leaves behind is always in order (`Memo.Keeps`): the keys in progress afterwards are those that were in
progress before, and an answer once recorded stays the same. For this it does not matter how the inference ends.

The proof goes by the way inferences are put together (`Built`): a search begins a key that has no record, the
computation under it keeps the memo in order, and the end of the search replaces its own mark and no other.

Moreover no inference ever begins a key that has a record. This is said through a start that gives no answer on such a
key (`startUnrecorded`): inference with it is inference.
-/
import DualInference.Proofs.Inference.Built
import DualInference.Proofs.Inference.Results

namespace DualInference

/-! ## What inferences keep -/

/-- from the first memo to the second, the keys in progress are the same and recorded answers stay -/
structure Memo.Keeps (m m' : Memo) : Prop where
  inProgress : ∀ id key, m'.state? id key = some .inProgress ↔ m.state? id key = some .inProgress
  resolved : ∀ id key t, m.state? id key = some (.resolved t) → m'.state? id key = some (.resolved t)

namespace Memo.Keeps

theorem refl (m : Memo) : m.Keeps m :=
  ⟨fun _ _ => Iff.rfl, fun _ _ _ h => h⟩

theorem trans {m₁ m₂ m₃ : Memo} (h₁ : m₁.Keeps m₂) (h₂ : m₂.Keeps m₃) : m₁.Keeps m₃ :=
  ⟨fun id key => (h₂.inProgress id key).trans (h₁.inProgress id key),
    fun id key t h => h₂.resolved id key t (h₁.resolved id key t h)⟩

/-- If a key without a record is begun, and the memo is kept in order from there, then the key is still in progress,
and to resolve or abandon it brings back an orderly memo. -/
theorem of_start {m m' : Memo} {id : SymbolId} {key : Key} (hnone : m.state? id key = none)
    (h : (m.modify id (·.start key)).Keeps m') {p : Option Progress} {m'' : Memo} (hp : p ≠ some .inProgress)
    (hm'' : ∀ id' key', m''.state? id' key' = if id' = id ∧ key' = key then p else m'.state? id' key') :
    m.Keeps m'' := by
  constructor
  · intro id' key'
    rw [hm'']
    by_cases hk : id' = id ∧ key' = key
    · rw [if_pos hk, hk.1, hk.2, hnone]
      simp [hp]
    · rw [if_neg hk, h.inProgress, m.state?_start, if_neg hk]
  · intro id' key' t ht
    have hk : ¬(id' = id ∧ key' = key) := by
      rintro ⟨rfl, rfl⟩
      rw [hnone] at ht
      cases ht
    rw [hm'', if_neg hk]
    exact h.resolved id' key' t (by rw [m.state?_start, if_neg hk, ht])

end Memo.Keeps

namespace Infer

/-- a computation that keeps the memo in order, however it ends -/
abbrev Orderly {α : Type} : Infer α → Prop :=
  Along fun st st' => st.memo.Keeps st'.memo

theorem Orderly.memoized {id : SymbolId} {key : Key} {span : Span} {compute : Infer Ty} (hx : compute.Orderly) :
    (memoized start id key span compute).Orderly := by
  intro st r st' h
  rcases memoized_cases h with ⟨t, _, _, rfl⟩ | ⟨_, _, rfl⟩ | ⟨hnone, st₁, hrun, rfl⟩
  · exact .refl _
  · exact .refl _
  · have hended : Progress.ofOutcome r ≠ some .inProgress := by cases r <;> nofun
    exact .of_start hnone (hx _ _ _ hrun) hended fun id' key' => st₁.memo.state?_finish id id' key key' r

end Infer

theorem Infer.robust_keeps (table : SymbolTable) : Robust table fun st st' => st.memo.Keeps st'.memo where
  trans := .trans
  steady hmemo _ := hmemo ▸ .refl _
  answer _ h := Orderly.memoized h

/-- What is built from inferences is orderly. -/
theorem Built.orderly {depth : Nat} {table : SymbolTable} {α : Type} {x : Unit → Infer α}
    (hx : Built (.within depth table) x) : (x ()).Orderly :=
  (Infer.robust_keeps table).built hx

theorem inferWithin_orderly (depth : Nat) (table : SymbolTable) (env : Env) (e : Expr) :
    (inferWithin depth table env e).Orderly :=
  (Built.infer (F := .within depth table) env e).orderly

theorem projectWithin_orderly (depth : Nat) (table : SymbolTable) (side : Side) (env : Env) (e : Expr)
    (shape : Option Shape) : (projectWithin depth table side env e shape).Orderly :=
  (Built.project (F := .within depth table) side env e shape).orderly

/-! ## Only keys without a record are begun -/

/-- a start that gives no answer on a key that has a record -/
def Infer.startUnrecorded (id : SymbolId) (key : Key) : Infer Unit := fun st =>
  if st.memo.state? id key = none then Infer.start id key st else none

/-- inference with that start -/
def inferUnrecorded : (depth : Nat) → SymbolTable → Env → Expr → Infer Denotation :=
  inferBy (Infer.memoized Infer.startUnrecorded)

theorem Infer.memoized_startUnrecorded (id : SymbolId) (key : Key) (span : Span) (compute : Infer Ty) :
    memoized startUnrecorded id key span compute = memoized start id key span compute := by
  funext st
  unfold memoized
  cases h : st.memo.state? id key with
  | some p => cases p <;> rfl
  | none => simp only [bind_apply, startUnrecorded, h, if_true]

/-- inference with the one start (`true`) and with the other (`false`) -/
def Contexts.starts (table : SymbolTable) (infer : Env → Expr → Infer Denotation) : Contexts Bool where
  table := table
  infer := fun _ => infer
  remember := fun b => Infer.memoized (bif b then Infer.startUnrecorded else Infer.start)

theorem Built.starts_agree {table : SymbolTable} {infer : Env → Expr → Infer Denotation} {α : Type}
    {x : Bool → Infer α} (hx : Built (.starts table infer) x) : x true = x false := by
  induction hx with
  | steady h => rfl
  | infer env e => rfl
  | sequence P hP _ _ ihx ihf =>
    funext st
    dsimp only at ihf ⊢
    rw [Infer.bind_apply, Infer.bind_apply, ihx]
    split
    · rename_i a st₁ h
      rw [ihf a (hP h)]
    · rfl
    · rfl
  | answer q key _ _ ih =>
    dsimp only [Context.answer] at ih ⊢
    rw [ih]
    exact Infer.memoized_startUnrecorded q.id key q.span _

theorem inferUnrecorded_eq (depth : Nat) (table : SymbolTable) :
    inferUnrecorded depth table = inferWithin depth table := by
  induction depth with
  | zero => rfl
  | succ depth ih =>
    funext env e
    rw [inferUnrecorded] at ih ⊢
    rw [inferBy, ih]
    exact (Built.rule (F := .starts table (inferWithin depth table)) env e).starts_agree

/-! ## The discipline -/

theorem callProcedure_abandons {cx : Context} (hremember : cx.remember = Infer.memoized Infer.start) {origin : Origin}
    {d : Procedure} {span : Span} {env : Env} {args : List Expr} {st : State} {key : Key} {st₁ : State} {err : Error}
    {st' : State}
    (hkey : cx.denotations env args st = some (.ok key, st₁)) (hnone : st₁.memo.state? origin.id key = none)
    (hcall : cx.callProcedure origin d span env args st = some (.error err, st')) :
    st'.memo.state? origin.id key = none := by
  rw [Context.callProcedure, Infer.bind_apply, hkey, hremember] at hcall
  simp only [Infer.bind_apply] at hcall
  split at hcall
  · cases hcall
  · rename_i hrun
    cases hcall
    rcases Infer.memoized_cases hrun with ⟨_, _, h, _⟩ | ⟨hbusy, _⟩ | ⟨_, st₂, _, rfl⟩
    · cases h
    · rw [hnone] at hbusy
      cases hbusy
    · exact (st₂.memo.state?_finish origin.id origin.id key key _).trans (if_pos ⟨rfl, rfl⟩)
  · cases hcall

theorem initType_abandons {cx : Context} (hremember : cx.remember = Infer.memoized Infer.start) {home : Env}
    {d : Variables} {group : SymbolId} {span : Span} {st : State} {err : Error} {st' : State}
    (hnone : st.memo.state? group [] = none)
    (hinit : cx.initType home d group span st = some (.error err, st')) : st'.memo.state? group [] = none := by
  rw [Context.initType, hremember] at hinit
  rcases Infer.memoized_cases hinit with ⟨_, _, h, _⟩ | ⟨hbusy, _⟩ | ⟨_, st₂, _, rfl⟩
  · cases h
  · rw [hnone] at hbusy
    cases hbusy
  · exact (st₂.memo.state?_finish group group [] [] _).trans (if_pos ⟨rfl, rfl⟩)

/-- **Discipline of keys in progress.** However an inference or a projection ends, it keeps the memo in order, and it
begins no key that has a record. A procedure call or an initializer that began a key and failed has left it without a
record. -/
theorem infer_keeps_keys_in_progress (depth : Nat) (table : SymbolTable) (env : Env) :
    (∀ e st r st', inferWithin depth table env e st = some (r, st') → st.memo.Keeps st'.memo) ∧
    (∀ side e shape st r st', projectWithin depth table side env e shape st = some (r, st') →
      st.memo.Keeps st'.memo) ∧
    (∀ e, inferUnrecorded depth table env e = inferWithin depth table env e) ∧
    (∀ side e shape,
      Context.project
          { table, infer := inferUnrecorded depth table, remember := Infer.memoized Infer.startUnrecorded }
          side env e shape =
        projectWithin depth table side env e shape) ∧
    (∀ origin d span args st key st₁ err st',
      Context.denotations { table, infer := inferWithin depth table } env args st = some (.ok key, st₁) →
      st₁.memo.state? origin.id key = none →
      Context.callProcedure { table, infer := inferWithin depth table } origin d span env args st =
        some (.error err, st') →
      st'.memo.state? origin.id key = none) ∧
    (∀ d group span st err st', st.memo.state? group [] = none →
      Context.initType { table, infer := inferWithin depth table } env d group span st = some (.error err, st') →
      st'.memo.state? group [] = none) := by
  refine ⟨fun e => inferWithin_orderly depth table env e,
    fun side e shape => projectWithin_orderly depth table side env e shape,
    fun e => by rw [inferUnrecorded_eq], fun side e shape => ?_,
    fun origin d span args st key st₁ err st' => callProcedure_abandons rfl,
    fun d group span st err st' => initType_abandons rfl⟩
  rw [inferUnrecorded_eq]
  exact (Built.project (F := .starts table (inferWithin depth table)) side env e shape).starts_agree

/-- a name without a place -/
def Expr.bare (name : String) : Expr :=
  .name {} { name }

/-- a table with nothing but a procedure that calls itself -/
def loopTable : SymbolTable where
  scopes := #[{ ancestors := [], names := [("loop", 0)] }]
  symbols := #[⟨"loop", 0, .procedure ⟨{ name := "loop" }, [], [], [], none, some (.call {} (.bare "loop") []), {}⟩⟩]

/-- The procedure is cut off while it is in progress, and is without a record afterwards. -/
theorem loop_keeps_keys_in_progress : ∃ st',
    inferWithin 4 loopTable { scope := 0 } (.call {} (.bare "loop") []) {} =
      some (.error ⟨.recursiveInference, {}⟩, st') ∧
    ({} : Memo).Keeps st'.memo ∧ st'.memo.state? 0 [] = none := by
  have hrun : (inferWithin 4 loopTable { scope := 0 } (.call {} (.bare "loop") []) {}).map (·.1) =
      some (.error ⟨.recursiveInference, {}⟩) := by rfl
  obtain ⟨⟨r, st'⟩, hrun', rfl⟩ := Option.map_eq_some_iff.1 hrun
  obtain ⟨hkeeps, _⟩ := infer_keeps_keys_in_progress 4 loopTable { scope := 0 }
  obtain ⟨_, _, _, _, habandons, _⟩ := infer_keeps_keys_in_progress 3 loopTable { scope := 0 }
  exact ⟨st', hrun', hkeeps _ _ _ _ hrun', habandons ⟨0, "loop", 0⟩ _ {} [] {} [] {} _ st' rfl rfl hrun'⟩

end DualInference
