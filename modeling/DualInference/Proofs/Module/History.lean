/-
What earlier inferences leave behind.

Inferences of expressions in the scope of a module follow each other, and each finds the store and the memo that those
before it left (`Module.Reached`). Between them a state is at rest (`State.AtRest`): no key is in progress, and what is
recorded for closed keys are their answers. Any two states at rest match, so an inference goes in lockstep with itself
from a fresh state.

Main results:
- `inferred_types_are_formed`: no type variable escapes, and every aggregate has the parameters it declares;
- `inference_ignores_history`: earlier inferences do not change the outcome of later ones.
-/
import DualInference.Proofs.Inference.Lockstep

namespace DualInference

open Infer Context

namespace Module

variable (m : Module)

/-- where the expressions of a module are looked at -/
def env : Env :=
  { scope := m.scope }

/-- the states that inferences in the scope of a module lead to, whether they come to results or to errors -/
inductive Reached : State → Prop
  | fresh : Reached {}
  | infer {st st' : State} (h : Reached st) {depth : Nat} {e : Expr} {r : Except Error Denotation}
    (hrun : inferWithin depth m.table m.env e st = some (r, st')) : Reached st'
  | project {st st' : State} (h : Reached st) {depth : Nat} {side : Side} {e : Expr} {shape : Option Shape}
    {r : Except Error Ty} (hrun : projectWithin depth m.table side m.env e shape st = some (r, st')) : Reached st'

end Module

/-! ## States at rest -/

/-- a state between two inferences -/
structure State.AtRest (tab : SymbolTable) (st : State) : Prop where
  store : st.store.WellFormed
  sane : st.Sane tab
  idle : ∀ id key, st.memo.state? id key ≠ some .inProgress

namespace State.AtRest

variable {tab : SymbolTable} {st st' : State}

theorem fresh : State.AtRest tab {} := by
  have hnone : ∀ id key, ({} : Memo).state? id key = none := fun _ _ => rfl
  refine ⟨Store.wellFormed_empty, ⟨?_, ?_, ?_, ?_⟩, ?_⟩
  · intro id key p h
    cases (hnone id key).symm.trans h
  · intro id key t h
    cases (hnone id key).symm.trans h
  · intro id key t _ h
    cases (hnone id key).symm.trans h
  · intro id key _ h
    cases (hnone id key).symm.trans h
  · intro id key h
    cases (hnone id key).symm.trans h

/-- A key without an answer has no record in a state at rest. -/
theorem state?_eq_none (h : st.AtRest tab) {id : SymbolId} {key : Key} (hkey : key.Closed tab)
    (hno : ∀ t, ¬tab.Answer id key t) : st.memo.state? id key = none := by
  cases hp : st.memo.state? id key with
  | none => rfl
  | some p =>
    cases p with
    | inProgress => exact absurd hp (h.idle id key)
    | resolved t => exact absurd (h.sane.sound id key t hkey hp) (hno t)

/-- States at rest match, whatever their memos hold. -/
theorem matched (h : st.AtRest tab) (h' : st'.AtRest tab) : State.Matched tab .none st st' := by
  refine ⟨h.sane, h'.sane, fun {id key key'} hkey hno => ?_⟩
  obtain rfl := Key.eq_of_closed hkey
  rw [h.state?_eq_none hkey (hno hkey), h'.state?_eq_none hkey (hno hkey)]

theorem related (h : st.AtRest tab) (h' : st'.AtRest tab) : (Setting.lockstep tab).Related .none st st' :=
  ⟨.unpaired h.store h'.store, h.matched h'⟩

end State.AtRest

/-! ## One inference -/

section

variable {tab : SymbolTable} {items : List Item} (hset : tab.Settled items) {st st' st₁ st₁' : State}

include hset

/-- Two inferences of one expression from states at rest end alike. -/
theorem infer_lockstep (h : st.AtRest tab) (h' : st'.AtRest tab) {scope : ScopeId} {e : Expr} {depth depth' : Nat}
    {r r' : Except Error Denotation} (hrun : inferWithin depth tab { scope } e st = some (r, st₁))
    (hrun' : inferWithin depth' tab { scope } e st' = some (r', st₁')) :
    ∃ V, (Setting.lockstep tab).Ended (.denoted tab .closed) .none st st' r r' V st₁ st₁' := by
  rw [← inferBy_memoized] at hrun hrun'
  have hsim := (kept_lockstep hset depth).infer (.inl rfl)
    (Env.mk_alike (.nil : (Likeness.frame tab .closed).rel .none [] []) scope) e
  have halong := hsim .none st st' (le_refl _) (h.related h')
  rw [Setting.Along.lockstep rfl] at halong
  exact halong r st₁ r' st₁' hrun ((inferFully_reached continuous_memoized tab).2 ⟨depth', hrun'⟩)

/-- Two projections of one expression from states at rest end alike. -/
theorem project_lockstep (h : st.AtRest tab) (h' : st'.AtRest tab) {scope : ScopeId} {side : Side} {e : Expr}
    {shape : Option Shape} {depth depth' : Nat} {r r' : Except Error Ty}
    (hrun : projectWithin depth tab side { scope } e shape st = some (r, st₁))
    (hrun' : projectWithin depth' tab side { scope } e shape st' = some (r', st₁')) :
    ∃ V, (Setting.lockstep tab).Ended (.ty tab .closed) .none st st' r r' V st₁ st₁' := by
  rw [projectWithin, ← within_kept] at hrun hrun'
  have hsim := (kept_lockstep hset depth).project (.inl rfl)
    (Env.mk_alike (.nil : (Likeness.frame tab .closed).rel .none [] []) scope) side e shape
  have halong := hsim .none st st' (le_refl _) (h.related h')
  rw [Setting.Along.lockstep rfl] at halong
  have hreached := Built.reached continuous_memoized tab (Built.project side { scope } e shape)
  exact halong r st₁ r' st₁' hrun (hreached.reached.2 ⟨depth', hrun'⟩)

omit hset in
/-- Inferences that end alike leave a state at rest, if they keep the memo in order. -/
theorem State.AtRest.of_ended {α β : Type} {R : Likeness α β} {V V₁ : Pairing} {r : Except Error α} {r' : Except Error β}
    (h : st.AtRest tab) (hend : (Setting.lockstep tab).Ended R V st st' r r' V₁ st₁ st₁')
    (hkeeps : st.memo.Keeps st₁.memo) : st₁.AtRest tab := by
  have hmatched : State.Matched tab V₁ st₁ st₁' := hend.related.memos
  exact ⟨hend.related.stores.left, hmatched.left, fun id key hbusy => h.idle id key ((hkeeps.inProgress id key).1 hbusy)⟩

theorem State.AtRest.infer (h : st.AtRest tab) {scope : ScopeId} {e : Expr} {depth : Nat} {r : Except Error Denotation}
    (hrun : inferWithin depth tab { scope } e st = some (r, st₁)) : st₁.AtRest tab := by
  obtain ⟨V, hend⟩ := infer_lockstep hset h h hrun hrun
  exact h.of_ended hend (inferWithin_orderly depth tab _ e st r st₁ hrun)

theorem State.AtRest.project (h : st.AtRest tab) {scope : ScopeId} {side : Side} {e : Expr} {shape : Option Shape}
    {depth : Nat} {r : Except Error Ty} (hrun : projectWithin depth tab side { scope } e shape st = some (r, st₁)) :
    st₁.AtRest tab := by
  obtain ⟨V, hend⟩ := project_lockstep hset h h hrun hrun
  exact h.of_ended hend (projectWithin_orderly depth tab side _ e shape st r st₁ hrun)

end

/-- What expressions come to one after the other, from a state at rest, is closed and leaves a state at rest. -/
theorem State.AtRest.denotations {tab : SymbolTable} {items : List Item} (hset : tab.Settled items) {st st₁ : State}
    (h : st.AtRest tab) {scope : ScopeId} {es : List Expr} {key : Key}
    (hrun : (fully kept tab).denotations { scope } es st = some (.ok key, st₁)) : key.Closed tab ∧ st₁.AtRest tab := by
  have hreached := Built.reached continuous_memoized tab (Built.denotations { scope } es)
  obtain ⟨depth, hn⟩ : ∃ depth, (within kept depth tab).denotations { scope } es st = some (.ok key, st₁) :=
    hreached.reached.1 hrun
  have hsim := (kept_lockstep hset depth).denotations (.inl rfl)
    (Env.mk_alike (.nil : (Likeness.frame tab .closed).rel .none [] []) scope) es
  have halong := hsim .none st st (le_refl _) (h.related h)
  rw [Setting.Along.lockstep rfl] at halong
  obtain ⟨V, hend⟩ := halong _ _ _ _ hn hrun
  rw [within_kept] at hn
  have horderly := (Built.denotations (F := .within depth tab) { scope } es).orderly st _ _ hn
  refine ⟨?_, h.of_ended hend horderly⟩
  cases hend.outcome with
  | ok hkey => exact hkey.2

/-- All reached states are at rest. -/
theorem Module.Reached.atRest {items : List Item} {m : Module} (hm : Module.ofItems items = .ok m) {st : State}
    (h : m.Reached st) : st.AtRest m.table := by
  induction h with
  | fresh => exact .fresh
  | infer _ hrun ih => exact ih.infer (Module.settled hm) hrun
  | project _ hrun ih => exact ih.project (Module.settled hm) hrun

/-! ## What expressions come to -/

/-- from all states at rest, inference in a scope comes to the denotation, leaves a state at rest, and nothing happens to
the variables that were there -/
def SymbolTable.Yields (tab : SymbolTable) (scope : ScopeId) (e : Expr) (d : Denotation) : Prop :=
  ∀ st : State, st.AtRest tab → ∃ st', (fully kept tab).infer { scope } e st = some (.ok d, st') ∧
    st.store.Extends st'.store ∧ st'.AtRest tab

section

variable {tab : SymbolTable} {items : List Item} (hset : tab.Settled items) {scope : ScopeId} {e : Expr} {d : Denotation}

include hset

/-- What an expression comes to from one state at rest it comes to from all of them. -/
theorem SymbolTable.Yields.of_run {st st₁ : State} (hst : st.AtRest tab)
    (hrun : (fully kept tab).infer { scope } e st = some (.ok d, st₁)) : tab.Yields scope e d := by
  intro st' hst'
  have henv : (Likeness.env tab .closed).rel .none { scope } { scope } := Env.mk_alike .nil scope
  -- it is found without a memo
  obtain ⟨n, hn⟩ := (inferFully_reached continuous_memoized tab).1 hrun
  have hplain := (kept_simulates_plain hset n).infer (.inr rfl) henv e .none st st (le_refl _)
    ⟨.unpaired hst.store hst.store, hst.sane.sound⟩
  rw [Setting.Along.forward rfl] at hplain
  obtain ⟨_, d', st₂, hrun₂, hend⟩ := hplain d st₁ hn
  cases hend.outcome with
  | ok hd =>
    have heq := Denotation.Alike.eq_of_closed hd
    subst heq
    -- and so it is found with the other memo
    obtain ⟨k, hk⟩ := (inferFully_reached continuous_plainly tab).1 hrun₂
    have hready : st'.memo.Ready tab k st'.memo :=
      ⟨hst'.sane.sound, fun id key _ hbusy => absurd hbusy (hst'.idle id key), .refl tab _⟩
    have hkept := (plain_simulates_kept hset k k (Nat.le_refl k) st'.memo).infer (.inr rfl) henv e .none st st'
      (le_refl _) ⟨.unpaired hst.store hst'.store, hready⟩
    rw [Setting.Along.forward rfl] at hkept
    obtain ⟨_, d'', st₃, hrun₃, hend'⟩ := hkept _ st₂ hk
    cases hend'.outcome with
    | ok hd' =>
      have heq := Denotation.Alike.eq_of_closed hd'
      subst heq
      obtain ⟨m, hm⟩ := (inferFully_reached continuous_memoized tab).1 hrun₃
      rw [inferBy_memoized] at hm
      exact ⟨st₃, hrun₃, hend'.later.extends_right, hst'.infer hset hm⟩

/-- What an expression comes to has no variables. -/
theorem SymbolTable.Yields.vars_eq_nil (h : tab.Yields scope e d) : d.ty.vars = [] := by
  obtain ⟨st', hrun, _⟩ := h {} .fresh
  obtain ⟨n, hn⟩ := (inferFully_reached continuous_memoized tab).1 hrun
  rw [inferBy_memoized] at hn
  obtain ⟨V, hend⟩ := infer_lockstep hset .fresh .fresh hn hn
  cases hend.outcome with
  | ok hd => exact hd.ty.vars_eq_nil

end

/-! ## No type variable escapes -/

/-- a type without variables in which every aggregate is one that the program declares, of that kind, with a parameter
for each type variable of the declaration -/
inductive Ty.Formed (items : List Item) (tab : SymbolTable) : Ty → Prop
  | scalar (s : Scalar) : Formed items tab (.scalar s)
  | wrap (w : Wrapper) {t : Ty} (h : Formed items tab t) : Formed items tab (.wrap w t)
  | tuple {ts : List Ty} (h : ∀ t ∈ ts, Formed items tab t) : Formed items tab (.tuple ts)
  | aggregate {kind : AggregateKind} {id : SymbolId} {name : String} {home : ScopeId} {d : Aggregate} {ts : List Ty}
    (hid : tab.symbol? id = some ⟨name, home, .aggregate kind d⟩) (hd : .aggregate kind d ∈ items)
    (hlen : ts.length = d.typeVars.length) (h : ∀ t ∈ ts, Formed items tab t) : Formed items tab (.aggregate kind id ts)

mutual

/-- A type that is alike to another one without any pairs is formed as the program declares. -/
theorem Ty.Alike.formed {items : List Item} {tab : SymbolTable} (hset : tab.Settled items) :
    ∀ {t u : Ty}, Ty.Alike tab.Forms .none t u → t.Formed items tab
  | .scalar s, _, _ => .scalar s
  | .wrap w t, _, h => by
    cases h with
    | wrap _ h => exact .wrap w (h.formed hset)
  | .compound .tuple ts, _, h => by
    cases h with
    | compound _ _ h => exact .tuple (Ty.Alike.formedList hset h)
  | .compound (.aggregate kind id) ts, _, h => by
    cases h with
    | compound _ hlen h =>
      obtain ⟨name, home, d, hid, hd⟩ := hlen
      exact .aggregate hid (hset.aggregate hid) hd.symm (Ty.Alike.formedList hset h)
  | .var v, _, h => by
    cases h with
    | var h => exact h.elim

theorem Ty.Alike.formedList {items : List Item} {tab : SymbolTable} (hset : tab.Settled items) :
    ∀ {ts us : List Ty}, List.Forall₂ (Ty.Alike tab.Forms .none) ts us → ∀ t ∈ ts, t.Formed items tab
  | [], _, _ => fun _ hmem => absurd hmem List.not_mem_nil
  | t :: ts, _, h => by
    cases h with
    | cons h hs =>
      intro t' hmem
      rcases List.mem_cons.1 hmem with rfl | hmem
      · exact h.formed hset
      · exact Ty.Alike.formedList hset hs t' hmem

end

/-! ## A program to look at -/

/-- `record Box[T] { item: T }`, `wrap[T](x: T)` that boxes `x`, `loop()` that calls itself, `seed = wrap(1)`, and
`struct Tag[T, U] { tag: T }` -/
def boxProgram : List Item :=
  [.aggregate .record ⟨{ name := "Box" }, [{ name := "T" }], [⟨{ name := "item" }, .bare "T"⟩]⟩,
    .procedure ⟨{ name := "wrap" }, [{ name := "T" }], [.value .byValue { name := "x" } (.bare "T")], [], none,
      some (.call {} (.bare "Box") [.bare "x"]), {}⟩,
    .procedure ⟨{ name := "loop" }, [], [], [], none, some (.call {} (.bare "loop") []), {}⟩,
    .vars ⟨[⟨{ name := "seed" }, none⟩], .call {} (.bare "wrap") [.int {} 1]⟩,
    .aggregate .struct ⟨{ name := "Tag" }, [{ name := "T" }, { name := "U" }], [⟨{ name := "tag" }, .bare "T"⟩]⟩]

def boxModule : Module :=
  match Module.ofItems boxProgram with
  | .ok m => m
  | .error _ => .empty

theorem ofItems_boxProgram : Module.ofItems boxProgram = .ok boxModule := by
  have hok : (Module.ofItems boxProgram).isOk = true := by decide +kernel
  obtain ⟨m, hm⟩ := Module.ofItems_of_isOk hok
  unfold boxModule
  rw [hm]

/-- what the inference of `seed` leaves behind -/
def boxState : State :=
  match inferWithin 8 boxModule.table boxModule.env (.bare "seed") {} with
  | some (_, st) => st
  | none => {}

theorem infer_seed : inferWithin 8 boxModule.table boxModule.env (.bare "seed") {} =
    some (.ok (.value (.aggregate .record 30 [.int])), boxState) := by
  decide +kernel

theorem reached_boxState : boxModule.Reached boxState :=
  .infer .fresh infer_seed

/-! ## Main results -/

/-- **No type variable escapes.** Whatever was inferred before, the type that an inference or a projection comes to has
no variable in it and is formed as the program declares, and so is every type that is recorded. -/
theorem inferred_types_are_formed {items : List Item} {m : Module} (hm : Module.ofItems items = .ok m) {st : State}
    (hst : m.Reached st) :
    (∀ depth e d st', inferWithin depth m.table m.env e st = some (.ok d, st') →
      d.ty.vars = [] ∧ d.ty.Formed items m.table) ∧
    (∀ depth side e shape t st', projectWithin depth m.table side m.env e shape st = some (.ok t, st') →
      t.vars = [] ∧ t.Formed items m.table) ∧
    (∀ id key t, st.memo.state? id key = some (.resolved t) → t.vars = [] ∧ t.Formed items m.table) := by
  have hset := Module.settled hm
  have hrest := hst.atRest hm
  have hgood : ∀ {t u : Ty}, Ty.Alike m.table.Forms .none t u → t.vars = [] ∧ t.Formed items m.table :=
    fun h => ⟨h.vars_eq_nil, h.formed hset⟩
  refine ⟨fun depth e d st' hrun => ?_, fun depth side e shape t st' hrun => ?_,
    fun id key t ht => hgood (hrest.sane.answers ht)⟩
  · obtain ⟨V, hend⟩ := infer_lockstep hset hrest hrest hrun hrun
    cases hend.outcome with
    | ok hd => exact hgood hd.ty
  · obtain ⟨V, hend⟩ := project_lockstep hset hrest hrest hrun hrun
    cases hend.outcome with
    | ok ht => exact hgood ht

/-- `seed` is a box of an integer, in a state where it has been inferred before. -/
theorem seed_is_formed :
    inferWithin 8 boxModule.table boxModule.env (.bare "seed") boxState =
      some (.ok (.value (.aggregate .record 30 [.int])), boxState) ∧
    (Ty.aggregate .record 30 [.int]).vars = [] ∧ (Ty.aggregate .record 30 [.int]).Formed boxProgram boxModule.table := by
  have hrun : inferWithin 8 boxModule.table boxModule.env (.bare "seed") boxState =
      some (.ok (.value (.aggregate .record 30 [.int])), boxState) := by decide +kernel
  exact ⟨hrun, (inferred_types_are_formed ofItems_boxProgram reached_boxState).1 8 _ _ _ hrun⟩

/-- the same result, or errors of the same kind at the same place whose texts differ at most in the numbers of
variables -/
inductive SameOutcome (tab : SymbolTable) {α : Type} : Except Error α → Except Error α → Prop
  | ok (a : α) : SameOutcome tab (.ok a) (.ok a)
  | error {e e' : Error} (hkind : e.kind = e'.kind) (hspan : e.span = e'.span) {V : Pairing}
    (hcause : e.cause.Alike tab V e'.cause) : SameOutcome tab (.error e) (.error e')

theorem SameOutcome.of_error {tab : SymbolTable} {α : Type} {V : Pairing} {e e' : Error} (h : e.Alike tab V e') :
    SameOutcome tab (.error e : Except Error α) (.error e') :=
  .error h.cause.kind_eq h.span h.cause

/-- **History does not matter.** An inference or a projection comes to the same after any earlier inferences as it does
in a fresh state, if both end. -/
theorem inference_ignores_history {items : List Item} {m : Module} (hm : Module.ofItems items = .ok m) {st : State}
    (hst : m.Reached st) :
    (∀ e depth depth' r r' st₁ st₁', inferWithin depth m.table m.env e st = some (r, st₁) →
      inferWithin depth' m.table m.env e {} = some (r', st₁') → SameOutcome m.table r r') ∧
    (∀ side e shape depth depth' r r' st₁ st₁', projectWithin depth m.table side m.env e shape st = some (r, st₁) →
      projectWithin depth' m.table side m.env e shape {} = some (r', st₁') → SameOutcome m.table r r') := by
  have hset := Module.settled hm
  have hrest := hst.atRest hm
  constructor
  · intro e depth depth' r r' st₁ st₁' hrun hrun'
    obtain ⟨V, hend⟩ := infer_lockstep hset hrest .fresh hrun hrun'
    cases hend.outcome with
    | ok hd =>
      have heq := Denotation.Alike.eq_of_closed hd
      subst heq
      exact .ok _
    | error he => exact .of_error he
  · intro side e shape depth depth' r r' st₁ st₁' hrun hrun'
    obtain ⟨V, hend⟩ := project_lockstep hset hrest .fresh hrun hrun'
    cases hend.outcome with
    | ok ht =>
      have heq := Ty.Alike.refl_of_closed ht
      subst heq
      exact .ok _
    | error he => exact .of_error he

/-- `(wrap(1), loop())`, of which the first part has been answered when `seed` has been inferred -/
def wrapThenLoop : Expr :=
  .tuple {} [.call {} (.bare "wrap") [.int {} 1], .call {} (.bare "loop") []]

/-- With `wrap(1)` answered before, `(wrap(1), loop())` fails as it does in a fresh state. -/
theorem seed_does_not_change_loop : ∃ st₁ st₁',
    inferWithin 8 boxModule.table boxModule.env wrapThenLoop boxState =
      some (.error ⟨.recursiveInference, {}⟩, st₁) ∧
    inferWithin 8 boxModule.table boxModule.env wrapThenLoop {} = some (.error ⟨.recursiveInference, {}⟩, st₁') ∧
    SameOutcome (α := Denotation) boxModule.table (.error ⟨.recursiveInference, {}⟩)
      (.error ⟨.recursiveInference, {}⟩) := by
  have hrun : (inferWithin 8 boxModule.table boxModule.env wrapThenLoop boxState).map (·.1) =
      some (.error ⟨.recursiveInference, {}⟩) := by decide +kernel
  have hfresh : (inferWithin 8 boxModule.table boxModule.env wrapThenLoop {}).map (·.1) =
      some (.error ⟨.recursiveInference, {}⟩) := by decide +kernel
  obtain ⟨⟨r, st₁⟩, hrun', rfl⟩ := Option.map_eq_some_iff.1 hrun
  obtain ⟨⟨r', st₁'⟩, hfresh', rfl⟩ := Option.map_eq_some_iff.1 hfresh
  exact ⟨st₁, st₁', hrun', hfresh',
    (inference_ignores_history ofItems_boxProgram reached_boxState).1 _ 8 8 _ _ st₁ st₁' hrun' hfresh'⟩

end DualInference
