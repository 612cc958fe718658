/-
What an inference has no access to.

An inference starts in a scope and in a state. Of the scope it sees the names that occur in the expression; where it comes
to a declaration it goes on in the home of that declaration, and whatever else the scope binds makes no difference. Of the
state it sees the variables that the types of symbols and recorded answers lead to; all other variables stay as they are.
Both follow from one fact, that inference works in disguise (`infer_follows`), for disguises under which everything looks
as it did.

Main results:
- `inference_is_lexical`: two scopes that agree on the names in an expression are the same to its inference, from every
  state;
- `inference_spares_unexposed`: in every session, a variable that is bound, or that nothing in sight leads to, is the same
  after an inference, whether it failed or not. An unbound variable in the type of a local value is in sight. If such a
  value is the argument of a call that fails at a later argument, the variable may be left with a binding.
-/
import DualInference.Proofs.Inference.DisguisedRules
import DualInference.Proofs.Session.Bindings

namespace DualInference

open Disguised (disguise)

/-! ## Disguises under which everything looks the same -/

/-- nothing is renumbered or moved, and some variables are hidden as they are in the store -/
def Disguise.hiding (hidden : VarId → Prop) (s : Store) : Disguise where
  symbol := id
  injective := Function.injective_id
  span := id
  hidden := hidden
  contents := s.binding?

theorem Disguise.plain_hiding (hidden : VarId → Prop) (s : Store) : (Disguise.hiding hidden s).Plain :=
  ⟨fun _ => rfl, fun _ => rfl⟩

/-- A computation that follows another one under such a disguise does the same. -/
theorem Infer.Follows.plain {α : Type} [HasVars α] [Disguised α] {δ : Disguise} (hδ : δ.Plain)
    (hα : ∀ a : α, disguise δ a = a) {x x' : Infer α} (h : Follows δ x x') {st : State} (hst : st.Hides δ) :
    x' st = x st ∧ ∀ r st', x st = some (r, st') → st'.Hides δ := by
  obtain ⟨heq, hend⟩ := h st hst
  have hresult : ∀ r : Except Error α, disguise δ r = r := by
    intro r
    cases r with
    | ok a => exact congrArg Except.ok (hα a)
    | error e => exact congrArg Except.error (Error.under_eq hδ.span e)
  have hsame : (fun p : Except Error α × State => (disguise δ p.1, p.2.under δ)) = id :=
    funext fun p => Prod.ext (hresult p.1) (State.under_eq hδ.symbol p.2)
  rw [State.under_eq hδ.symbol, hsame, Option.map_id] at heq
  exact ⟨heq, fun r st' hrun => (hend r st' hrun).1⟩

section

variable {δ : Disguise} (hδ : δ.Plain) {tab : SymbolTable}
  (hvisible : ∀ {id symbol}, tab.symbol? id = some symbol → Visible δ symbol.kind) {e : Expr} {s₁ s₂ : ScopeId}
  (hnames : ∀ name ∈ e.names, tab.lookup s₁ name = tab.lookup s₂ name) {st : State} (hst : st.Hides δ)

include hδ hvisible hnames

theorem env_plain : Env.Agrees δ tab tab e.names { scope := s₁ } { scope := s₂ } := by
  have hlocals : Visible δ ([] : Frame) := nofun
  refine (SymbolTable.Agrees.plain hδ hvisible).env (fun name hname => ?_) hlocals
  rw [hnames name hname, funext hδ.symbol, Option.map_id']

include hst

theorem infer_plain (depth : Nat) :
    inferWithin depth tab { scope := s₂ } e st = inferWithin depth tab { scope := s₁ } e st ∧
    ∀ r st', inferWithin depth tab { scope := s₁ } e st = some (r, st') → st'.Hides δ := by
  have hagrees := SymbolTable.Agrees.plain hδ hvisible
  have hfollows := infer_follows hagrees depth (env_plain hδ hvisible hnames)
  rw [Expr.under_eq (hδ.span.fixes _)] at hfollows
  exact hfollows.plain hδ (fun d => d.under_eq hδ.symbol) hst

theorem project_plain (depth : Nat) (side : Side) (shape : Option Shape) :
    projectWithin depth tab side { scope := s₂ } e shape st = projectWithin depth tab side { scope := s₁ } e shape st ∧
    ∀ r st', projectWithin depth tab side { scope := s₁ } e shape st = some (r, st') → st'.Hides δ := by
  have hagrees := SymbolTable.Agrees.plain hδ hvisible
  have hfollows := project_follows hagrees depth side (env_plain hδ hvisible hnames) shape
  rw [Expr.under_eq (hδ.span.fixes _)] at hfollows
  exact hfollows.plain hδ (Ty.under_eq hδ.symbol) hst

end

/-! ## Names that are not in the expression -/

/-- **Lexical scoping.** If two scopes agree on the names that occur in an expression, then from every state its inference
comes to the same in both of them, and so do its projections: the same result or the same error, the same store and the
same memo. -/
theorem inference_is_lexical (tab : SymbolTable) {s₁ s₂ : ScopeId} {e : Expr}
    (h : ∀ name ∈ e.names, tab.lookup s₁ name = tab.lookup s₂ name) (st : State) (depth : Nat) :
    inferWithin depth tab { scope := s₁ } e st = inferWithin depth tab { scope := s₂ } e st ∧
    ∀ side shape, projectWithin depth tab side { scope := s₁ } e shape st =
      projectWithin depth tab side { scope := s₂ } e shape st := by
  have hδ := Disguise.plain_hiding (fun _ => False) st.store
  have hst : st.Hides (Disguise.hiding (fun _ => False) st.store) :=
    ⟨⟨False.elim, False.elim, fun _ _ _ _ => not_false⟩, fun _ _ _ => not_false⟩
  have hvisible : ∀ {id symbol}, tab.symbol? id = some symbol →
      Visible (Disguise.hiding (fun _ => False) st.store) symbol.kind := fun _ _ _ => not_false
  refine ⟨(infer_plain hδ hvisible h hst depth).1.symm, fun side shape => ?_⟩
  exact (project_plain hδ hvisible h hst depth side shape).1.symm

/-- the box program with a scope inside its own in which `Box` and `T` are numbers -/
def shadowTable : SymbolTable :=
  let tab := (boxModule.table.openChild boxModule.scope).2
  match (tab.declare 2 { name := "Box" } ⟨"Box", 2, .localVar .int⟩).bind
    (·.declare 2 { name := "T" } ⟨"T", 2, .localVar .int⟩) with
  | .ok tab' => tab'
  | .error _ => tab

/-- `wrap(1)` is a box also where `Box` is a number. -/
theorem wrap_is_lexical : shadowTable.lookup 1 "Box" ≠ shadowTable.lookup 2 "Box" ∧
    shadowTable.lookup 1 "T" ≠ shadowTable.lookup 2 "T" ∧
    ∃ st, inferWithin 8 shadowTable { scope := 1 } (.call {} (.bare "wrap") [.int {} 1]) boxState =
        some (.ok (.value (.aggregate .record 30 [.int])), st) ∧
      inferWithin 8 shadowTable { scope := 2 } (.call {} (.bare "wrap") [.int {} 1]) boxState =
        some (.ok (.value (.aggregate .record 30 [.int])), st) := by
  have hnames : ∀ name ∈ (Expr.call {} (.bare "wrap") [.int {} 1]).names,
      shadowTable.lookup 1 name = shadowTable.lookup 2 name := by
    decide +kernel
  have hlexical := (inference_is_lexical shadowTable hnames boxState 8).1
  have hrun : ∃ st, inferWithin 8 shadowTable { scope := 1 } (.call {} (.bare "wrap") [.int {} 1]) boxState =
      some (.ok (.value (.aggregate .record 30 [.int])), st) := ⟨boxState, by decide +kernel⟩
  obtain ⟨st, hst⟩ := hrun
  exact ⟨by decide +kernel, by decide +kernel, st, hst, hlexical ▸ hst⟩

/-! ## Variables out of sight -/

/-- the type of a symbol or a recorded answer leads to the variable -/
def State.Exposes (tab : SymbolTable) (st : State) (v : VarId) : Prop :=
  ∃ w, ((∃ id symbol, tab.symbol? id = some symbol ∧ w ∈ HasVars.vars symbol.kind) ∨
    ∃ id key t, st.memo.state? id key = some (.resolved t) ∧ w ∈ t.vars) ∧ Relation.ReflTransGen st.store.Refers w v

/-- the variables that nothing leads to are out of sight -/
def State.unexposed (tab : SymbolTable) (st : State) : Disguise :=
  .hiding (fun v => v < st.store.size ∧ ¬st.Exposes tab v) st.store

theorem State.hides_unexposed (tab : SymbolTable) (st : State) : st.Hides (st.unexposed tab) := by
  refine ⟨⟨fun h => h.1, fun _ => rfl, fun {v t} hv ht w hw hhidden => ?_⟩, fun {id key t} ht w hw hhidden => ?_⟩
  · -- a visible variable leads to the variables of its binding
    have hexposed : st.Exposes tab v :=
      Classical.not_not.1 fun h => hv ⟨Store.lt_size_of_binding? ht, h⟩
    obtain ⟨u, hu, hpath⟩ := hexposed
    exact hhidden.2 ⟨u, hu, hpath.tail ⟨t, ht, hw⟩⟩
  · exact hhidden.2 ⟨w, .inr ⟨id, key, t, ht, hw⟩, .refl⟩

theorem State.visible_unexposed (tab : SymbolTable) (st : State) {id : SymbolId} {symbol : Symbol}
    (h : tab.symbol? id = some symbol) : Visible (st.unexposed tab) symbol.kind :=
  fun w hw hhidden => hhidden.2 ⟨w, .inl ⟨id, symbol, h, hw⟩, .refl⟩

/-- **Inference leaves alone what it does not see.** In every session that steps lead to, a variable that is bound, or that
neither the type of a symbol nor a recorded answer leads to, is bound as before after every inference and every
projection, whether it came to a result or to an error. -/
theorem inference_spares_unexposed {items : List Item} {m : Module} (hm : Module.ofItems items = .ok m) {s : Session}
    (hs : (Session.ofModule m).Leads s) {v : VarId} (hv : v < s.state.store.size)
    (h : s.state.store.binding? v ≠ none ∨ ¬s.state.Exposes s.table v) :
    (∀ depth scope e r st', inferWithin depth s.table { scope } e s.state = some (r, st') →
      st'.store.binding? v = s.state.store.binding? v) ∧
    ∀ depth side scope e shape r st', projectWithin depth s.table side { scope } e shape s.state = some (r, st') →
      st'.store.binding? v = s.state.store.binding? v := by
  have hconfined := (hs.keeps (Session.confined_ofModule hm)).1.state
  have hsettle : Store.AssignsUnbound Store.assign := fun _ _ _ _ => rfl
  have hδ := Disguise.plain_hiding (fun v => v < s.state.store.size ∧ ¬s.state.Exposes s.table v) s.state.store
  have hhides := s.state.hides_unexposed s.table
  have hvisible : ∀ {id symbol}, s.table.symbol? id = some symbol → Visible (s.state.unexposed s.table) symbol.kind :=
    fun hid => s.state.visible_unexposed s.table hid
  -- a binding lasts, and an unexposed variable is hidden
  have hkept : ∀ {st' : State}, s.state.store.Evolves st'.store → st'.Hides (s.state.unexposed s.table) →
      st'.store.binding? v = s.state.store.binding? v := by
    intro st' hevolves hst'
    rcases h with hbound | hunexposed
    · obtain ⟨t, ht⟩ := Option.ne_none_iff_exists'.1 hbound
      rw [ht, hevolves.retains v t ht]
    · exact hst'.store.kept ⟨hv, hunexposed⟩
  constructor
  · intro depth scope e r st' hrun
    have hend := (infer_confined hsettle depth s.table (Env.below_scope scope) e s.state (Nat.le_refl _) hconfined).2
    have hst' := (infer_plain hδ hvisible (fun _ _ => rfl) hhides depth).2 r st' hrun
    exact hkept (hend r st' hrun).evolves hst'
  · intro depth side scope e shape r st' hrun
    have hend := (project_confined hsettle depth s.table side (Env.below_scope scope) e shape s.state (Nat.le_refl _)
      hconfined).2
    have hst' := (project_plain hδ hvisible (fun _ _ => rfl) hhides depth side shape).2 r st' hrun
    exact hkept (hend r st' hrun).evolves hst'

/-- `record Couple { a: Int, b: Bool }` -/
def coupleProgram : List Item :=
  [.aggregate .record ⟨{ name := "Couple" }, [], [⟨{ name := "a" }, .bare "Int"⟩, ⟨{ name := "b" }, .bare "Bool"⟩]⟩]

def coupleModule : Module :=
  match Module.ofItems coupleProgram with
  | .ok m => m
  | .error _ => .empty

theorem ofItems_coupleProgram : Module.ofItems coupleProgram = .ok coupleModule := by
  have hok : (Module.ofItems coupleProgram).isOk = true := by decide +kernel
  obtain ⟨m, hm⟩ := Module.ofItems_of_isOk hok
  unfold coupleModule
  rw [hm]

/-- two variables, and a local value `x` whose type is the first of them -/
def openSession : Session :=
  (Session.ofModule coupleModule).after 8
    [{ request := .fresh "a" }, { request := .fresh "b" },
      { request := .bind { name := "x" } (.localVar (.var "a")) 0 true }]

/-- Nothing leads to the second variable. -/
theorem openSession_unexposed : ¬openSession.state.Exposes openSession.table 1 := by
  have hsymbols : ∀ symbol ∈ openSession.table.symbols.toList, ∀ w ∈ HasVars.vars symbol.kind, w = 0 := by
    decide +kernel
  have hmemo : openSession.state.memo = {} := by decide +kernel
  have hunbound : openSession.state.store.binding? 0 = none := by decide +kernel
  rintro ⟨w, hw, hpath⟩
  obtain rfl : w = 0 := by
    rcases hw with ⟨id, symbol, hsymbol, hw⟩ | ⟨id, key, t, ht, _⟩
    · exact hsymbols symbol (Array.mem_toList_iff.2 (Array.mem_of_getElem? hsymbol)) w hw
    · rw [hmemo] at ht
      cases ht
  rcases Relation.ReflTransGen.cases_head hpath with h | ⟨u, ⟨t, ht, _⟩, _⟩
  · cases h
  · rw [hunbound] at ht
    cases ht

/-- `Couple(x, 1)` fails at its second argument. The first one leaves a binding behind for the variable in the type of `x`;
the other variable is as it was. -/
theorem couple_spares_unexposed : ∃ st',
    inferWithin 8 openSession.table { scope := 1 } (.call {} (.bare "Couple") [.bare "x", .int {} 1]) openSession.state =
      some (.error ⟨.typeMismatch "Bool" "Int", {}⟩, st') ∧
    openSession.state.store.binding? 0 = none ∧ st'.store.binding? 0 = some .int ∧
    openSession.state.store.binding? 1 = none ∧ st'.store.binding? 1 = none := by
  have hs : (Session.ofModule coupleModule).Leads openSession := Session.leads_after 8 _ _
  have hrun : ∃ st', inferWithin 8 openSession.table { scope := 1 }
      (.call {} (.bare "Couple") [.bare "x", .int {} 1]) openSession.state =
        some (.error ⟨.typeMismatch "Bool" "Int", {}⟩, st') ∧ st'.store.binding? 0 = some .int :=
    ⟨⟨⟨#[some .int, none]⟩, {}⟩, by decide +kernel, by decide +kernel⟩
  obtain ⟨st', hst', hresidue⟩ := hrun
  have hunbound : openSession.state.store.binding? 1 = none := by decide +kernel
  have hspared := (inference_spares_unexposed ofItems_coupleProgram hs (v := 1) (by decide +kernel)
    (.inr openSession_unexposed)).1 8 1 _ _ st' hst'
  exact ⟨st', hst', by decide +kernel, hresidue, hunbound, hspared.trans hunbound⟩

end DualInference
