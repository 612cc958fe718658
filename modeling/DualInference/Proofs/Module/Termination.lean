/-
Programs on which inference comes to an end.

The search for an answer may ask for further answers, in initializers and in bodies, and these may call each other in
circles. A key in progress is not searched for again, but a procedure has as many keys as there are types, so this alone
does not end the search.

It does if the types in the program are simple and procedures with type variables say what they return
(`Annotated`). Then a declaration has one key at most with which its body or initializer is looked at (`Entry`): a
procedure without type variables fits one list of arguments, and the body of another one is not needed. So whenever the
search gets to a body or an initializer there is one declaration less to get to (`idle_begin`), and in between it goes
down in an expression.
-/
import DualInference.Proofs.Inference.HaltingRules
import DualInference.Proofs.Module.Contents
import DualInference.Proofs.Module.History

namespace DualInference

open Infer Context

/-! ## One key for a declaration -/

section

variable {tab : SymbolTable} {items : List Item} (hset : tab.Settled items) {scope : ScopeId}

include hset

/-- Without type variables, what an expression denotes does not depend on the store. -/
theorem TypeExpr.unique {s s' : Store} {e : Expr} {t u : Ty} (h : TypeExpr tab s { scope } e t)
    (h' : TypeExpr tab s' { scope } e u) : t = u := by
  have hsame : ∃ t', TypeExpr tab s' { scope } e t' ∧ t = t' := by
    refine h.transport (fun hm _ _ => hm) (fun hm => ?_) (fun _ => rfl) (fun _ _ _ heq => heq ▸ rfl) ?_
    · cases Env.meaning?_typeVar hset hm
    · intro name origin kind d ts us _ _ hall
      rw [List.forall₂_eq_eq_eq] at hall
      rw [hall]
  obtain ⟨t', ht, rfl⟩ := hsame
  -- in one state there is one result
  have hfound : ∀ {v}, TypeExpr tab s' { scope } e v →
      (fully kept tab).infer { scope } e { store := s' } = some (.ok (.type v), { store := s' }) :=
    fun hv => TypeExpr.found (inferFully_eq continuous_memoized tab) hv
  cases (hfound ht).symm.trans (hfound h')
  rfl

theorem Formal.Fits.unique {formal : Formal} {a b : Denotation} (h : formal.Fits tab scope a)
    (h' : formal.Fits tab scope b) : a = b := by
  obtain ⟨hside, _, ha⟩ := h
  obtain ⟨hside', _, hb⟩ := h'
  have hty := ha.unique hset hb
  rw [hside] at hside'
  cases a with
  | value t =>
    cases b with
    | value u => exact congrArg Denotation.value hty
    | type u => cases hside'
  | type t =>
    cases b with
    | value u => cases hside'
    | type u => exact congrArg Denotation.type hty

end

namespace SymbolTable

variable {tab : SymbolTable} {items : List Item} {S : Situation} {id : SymbolId} {key key' : Key}

/-- the key with which the body or the initializer of a declaration is looked at -/
inductive Entry (tab : SymbolTable) : SymbolId → Key → Prop
  | procedure {id : SymbolId} {name : String} {home : ScopeId} {d : Procedure} {key : Key}
    (h : tab.symbol? id = some ⟨name, home, .procedure d⟩) (hfits : List.Forall₂ (Formal.Fits tab home) d.formals key) :
    Entry tab id key
  | global {id : SymbolId} {name : String} {home : ScopeId} {d : Variables} {group : SymbolId} {position : Nat}
    (h : tab.symbol? id = some ⟨name, home, .global d group position⟩) : Entry tab id []

theorem Entry.lt (h : tab.Entry id key) : id < tab.symbols.size := by
  cases h with
  | procedure h _ => exact symbol?_lt h
  | global h => exact symbol?_lt h

theorem Entry.unique (hset : tab.Settled items) (h : tab.Entry id key) (h' : tab.Entry id key') : key = key' := by
  cases h with
  | procedure hid hfits =>
    cases h' with
    | procedure hid' hfits' =>
      cases hid.symm.trans hid'
      exact List.right_unique_forall₂' (fun _ _ _ ha hb => ha.unique hset hb) hfits hfits'
    | global hid' => cases hid.symm.trans hid'
  | global hid =>
    cases h' with
    | procedure hid' _ => cases hid.symm.trans hid'
    | global hid' => rfl

open Classical in
/-- the declarations whose body or initializer is not being looked at -/
noncomputable def idle (tab : SymbolTable) (S : Situation) : Finset SymbolId :=
  (Finset.range tab.symbols.size).filter fun id => ∀ key, tab.Entry id key → ¬S.busy id key

theorem mem_idle : id ∈ tab.idle S ↔ id < tab.symbols.size ∧ ∀ key, tab.Entry id key → ¬S.busy id key := by
  simp only [idle, Finset.mem_filter, Finset.mem_range]

/-- Whenever a body or an initializer is looked at, there is one less to look at. -/
theorem idle_begin (hset : tab.Settled items) (hentry : tab.Entry id key) (hidle : ¬S.busy id key) :
    (tab.idle (S.begin id key)).card < (tab.idle S).card := by
  have hsub : tab.idle (S.begin id key) ⊆ tab.idle S := by
    intro id' hid'
    obtain ⟨hlt, hall⟩ := mem_idle.1 hid'
    exact mem_idle.2 ⟨hlt, fun key' hentry' hbusy => hall key' hentry' (.inr hbusy)⟩
  refine Finset.card_lt_card ((Finset.ssubset_iff_of_subset hsub).2 ⟨id, ?_, fun hmem => ?_⟩)
  · refine mem_idle.2 ⟨hentry.lt, fun key' hentry' => ?_⟩
    rwa [← hentry.unique hset hentry']
  · exact (mem_idle.1 hmem).2 key hentry (.inl ⟨rfl, rfl⟩)

/-- a procedure with type variables declares what it returns, or it has no body -/
def Explicit (tab : SymbolTable) : Prop :=
  ∀ {id name home d}, tab.symbol? id = some ⟨name, home, .procedure d⟩ →
    d.typeVars ≠ [] → d.returnType ≠ none ∨ d.body = none

end SymbolTable

/-! ## Answers that come to an end -/

section

variable {tab : SymbolTable} {items : List Item} (hset : tab.Settled items) (hsimple : tab.SimplyTyped)
  (hexplicit : tab.Explicit) {S : Situation}

include hset

theorem fully_regular : (fully kept tab).Regular items where
  rule := inferFully_eq continuous_memoized tab
  finds := inferFully_findsTypes continuous_memoized tab
  unify := rfl
  settled := hset

include hsimple

/-- The answer of a procedure is found if its body halts once the key is in progress. -/
theorem procedure_answers {origin : Origin} {d : Procedure}
    (hsymbol : tab.symbol? origin.id = some ⟨origin.name, origin.home, .procedure d⟩)
    (hbusy : ∀ key, S.busy origin.id key → S.cyclic)
    (hbody : ∀ key, ¬S.busy origin.id key → ∀ body, d.returnType = none → d.body = some body →
      (d.typeVars = [] → List.Forall₂ (Formal.Fits tab origin.home) d.formals key) → ∀ locals : Frame,
      Below 0 locals → (∀ name ∈ d.ownNames, (locals.lookup name).isSome = true) →
      Halts (S.begin origin.id key) (Below 0) ((fully kept tab).infer ⟨locals, origin.home⟩ body)) :
    (fully kept tab).Answers S (.procedure origin d) := by
  intro args span key hkey hargs
  refine Halts.memoized (hbusy key) (fun hidle => ?_) span
  have hregular := fully_regular hset
  exact hregular.returnType_halts (hsimple.typesHalt hregular _) hsymbol hkey hargs span (hbody key hidle)

omit hset hsimple in
/-- The answer of a variable is found if its initializer halts once this is in progress. -/
theorem global_answers {origin : Origin} {d : Variables} {group : SymbolId} {position : Nat}
    (hbusy : S.busy group [] → S.cyclic)
    (hinit : ¬S.busy group [] →
      Halts (S.begin group []) (Below 0) ((fully kept tab).infer { scope := origin.home } d.init)) :
    (fully kept tab).Answers S (.global origin d group position) := by
  intro span
  refine Halts.memoized hbusy (fun hidle => ?_) span
  have hhome : Below 0 { scope := origin.home : Env } := Env.below_scope origin.home
  exact (value_halts ((hinit hidle).mono fun _ hd _ => hd)).mono fun _ ht => ht hhome

include hexplicit

/-- The answer behind a name is found if this is so for the body or the initializer, once its one key is in progress. -/
theorem answers_of_entries (hcyclic : S.cyclic)
    (h : ∀ {id key}, tab.Entry id key → ¬S.busy id key → ∀ {env e}, Below 0 env →
      Halts (S.begin id key) (Below 0) ((fully kept tab).infer env e))
    {env : Env} {name : String} {m : Meaning} (hm : env.meaning? tab name = some m) :
    (fully kept tab).Answers S m := by
  cases m with
  | procedure origin d =>
    have hsymbol := Env.symbol?_of_meaning?_procedure hm
    refine procedure_answers hset hsimple hsymbol (fun _ _ => hcyclic)
      fun key hidle body hnone hsome hfits locals hlocals _ => ?_
    have htypeVars : d.typeVars = [] := by
      by_contra hgeneric
      rcases hexplicit hsymbol hgeneric with hreturn | hbody
      · exact hreturn hnone
      · cases hbody.symm.trans hsome
    exact h (.procedure hsymbol (hfits htypeVars)) hidle hlocals
  | global origin d group position =>
    have hsymbol := Env.symbol?_of_meaning?_global hm
    obtain ⟨_, _, hgroup⟩ := hset.group hsymbol
    exact global_answers (fun _ => hcyclic) fun hidle => h (.global hgroup) hidle (Env.below_scope origin.home)
  | _ => trivial

/-- In every situation inference comes to an end: in the expression by induction over it, and elsewhere because there is
less and less to look at. -/
theorem infer_halts_everywhere (hcyclic : S.cyclic) {env : Env} {e : Expr} (henv : Below 0 env) :
    Halts S (Below 0) ((fully kept tab).infer env e) := by
  induction hcard : (tab.idle S).card using Nat.strong_induction_on generalizing S env e with
  | h n ih =>
    refine infer_halts (fully_regular hset) (hsimple.typesHalt (fully_regular hset) S) henv fun name _ m hm => ?_
    refine answers_of_entries hset hsimple hexplicit hcyclic (fun {id key} hentry hidle env' e' henv' => ?_) hm
    have hless := SymbolTable.idle_begin hset hentry hidle
    rw [hcard] at hless
    exact ih _ hless (S := S.begin id key) hcyclic henv' rfl

end

/-! ## Programs -/

/-- the expressions in an item that stand for types -/
def Item.types : Item → List Expr
  | .aggregate _ d => d.types
  | .vars d => d.types
  | .procedure d => d.types
  | _ => []

/-- types are made of names, indexes and integers, and name no variable -/
structure PlainlyTyped (items : List Item) : Prop where
  form : ∀ item ∈ items, ∀ e ∈ item.types, e.typeForm = true
  names : ∀ item ∈ items, ∀ e ∈ item.types, ∀ d, .vars d ∈ items → ∀ v ∈ d.names, v.name.name ∉ e.names

/-- moreover, a procedure with type variables declares what it returns, or it has no body -/
structure Annotated (items : List Item) : Prop extends PlainlyTyped items where
  explicit : ∀ d, .procedure d ∈ items → d.typeVars ≠ [] → d.returnType ≠ none ∨ d.body = none

theorem Item.types_kindAt {items : List Item} {group : SymbolId} {p : Nat} {item : Item} {e : Expr}
    (h : e ∈ (item.kindAt items group p).types) : e ∈ item.types := by
  cases item with
  | aggregate kind d => exact h
  | vars d => exact h
  | procedure d => exact h
  | _ => cases h

section

variable {items : List Item} {tab : SymbolTable} (hbound : Bound items tab) (hitems : WellOrdered items)

include hbound hitems

theorem PlainlyTyped.simplyTyped (h : PlainlyTyped items) : tab.SimplyTyped := by
  intro id symbol hsymbol e he
  rcases hbound.symbol?_cases hitems hsymbol with (⟨b, hb⟩ | ⟨op, hop⟩) | ⟨i, p, item, ident, hat, -, hdeclared⟩
  · rw [hb] at he
    cases he
  · rw [hop] at he
    cases he
  · have hhome := congrArg Symbol.home hdeclared
    dsimp only at hhome
    have hitem := List.mem_of_getElem? hat.stands
    rw [hdeclared] at he
    have htype := Item.types_kindAt he
    rw [hhome]
    refine ⟨h.form item hitem e htype, fun name hname origin d group position hm => ?_⟩
    rcases Env.meaning?_cases hm with ⟨_, hentry, _⟩ | ⟨id', symbol', hid', hsymbol', hmeaning⟩
    · cases hentry
    · dsimp only at hid'
      obtain ⟨_, hglobal⟩ := Symbol.meaning_global hmeaning.symm
      obtain ⟨hvars, v, hv, rfl⟩ := hbound.variable_of_lookup hitems hid' hsymbol' (congrArg Symbol.kind hglobal)
      exact h.names item hitem e htype d hvars v hv hname

theorem Annotated.explicit_table (h : Annotated items) : tab.Explicit :=
  fun hsymbol => h.explicit _ (hbound.procedure_mem hitems hsymbol)

end

/-! ## Main result -/

/-- nothing is in progress yet; may a key in progress be needed later on -/
def Situation.initial (cyclic : Prop) : Situation :=
  ⟨fun _ _ => False, cyclic⟩

theorem State.AtRest.holds {tab : SymbolTable} {st : State} (h : st.AtRest tab) (cyclic : Prop) :
    (Situation.initial cyclic).Holds st :=
  ⟨fun id key => iff_false_intro (h.idle id key), fun ht => below_closed (h.sane.answers ht).vars_eq_nil⟩

/-- A computation that halts without a bound on its depth ends in the same way at all depths from some depth on. -/
theorem Infer.Limit.ends {α : Type} {x : Option Nat → Infer α} (hx : Infer.Limit x) {S : Situation} {P : α → Prop}
    (hhalts : Halts S P (x none)) {st : State} (hst : S.Holds st) :
    ∃ depth r st', (∀ more ≥ depth, x (some more) st = some (r, st')) ∧
      ∀ err, r = .error err → err.cause = .recursiveInference → S.cyclic := by
  obtain ⟨r, st', hrun, _, _, herror⟩ := hhalts st hst
  obtain ⟨depth, hdepth⟩ := hx.reached.1 hrun
  exact ⟨depth, r, st', fun more hmore => hx.mono hmore hdepth, herror⟩

theorem inferWithin_ends {tab : SymbolTable} {env : Env} {e : Expr} {S : Situation} {P : Denotation → Prop}
    (hhalts : Halts S P ((fully kept tab).infer env e)) {st : State} (hst : S.Holds st) :
    ∃ depth r st', (∀ more ≥ depth, inferWithin more tab env e st = some (r, st')) ∧
      ∀ err, r = .error err → err.cause = .recursiveInference → S.cyclic := by
  simp only [← inferBy_memoized]
  exact (Built.reached continuous_memoized tab (Built.infer env e)).ends hhalts hst

/-- **Inference comes to an end.** In a program whose types are simple and whose generic procedures declare what they
return, there is for every expression and after any earlier inferences a depth from which on the result or the error
does not change any more, however procedures and initializers call each other. -/
theorem inference_terminates {items : List Item} {m : Module} (hm : Module.ofItems items = .ok m)
    (hitems : Annotated items) {st : State} (hst : m.Reached st) (e : Expr) :
    ∃ depth r st', ∀ more ≥ depth, inferWithin more m.table m.env e st = some (r, st') := by
  obtain ⟨hordered, hbound, _⟩ := Module.bound_of_ofItems hm
  have hhalts := infer_halts_everywhere (Module.settled hm) (hitems.simplyTyped hbound hordered)
    (hitems.explicit_table hbound hordered) (S := .initial True) trivial (e := e) (Env.below_scope m.scope)
  obtain ⟨depth, r, st', hrun, _⟩ := inferWithin_ends hhalts ((hst.atRest hm).holds True)
  exact ⟨depth, r, st', hrun⟩

/-- `even(n: Int)` that asks `odd(n)`, `odd(n: Int)` that asks `even(seed)`, `seed = even(1)`, and `same[T](x: T): T` that
asks itself -/
def parityProgram : List Item :=
  [.procedure ⟨{ name := "even" }, [], [.value .byValue { name := "n" } (.bare "Int")], [], none,
      some (.call {} (.bare "odd") [.bare "n"]), {}⟩,
    .procedure ⟨{ name := "odd" }, [], [.value .byValue { name := "n" } (.bare "Int")], [], none,
      some (.call {} (.bare "even") [.bare "seed"]), {}⟩,
    .vars ⟨[⟨{ name := "seed" }, none⟩], .call {} (.bare "even") [.int {} 1]⟩,
    .procedure ⟨{ name := "same" }, [{ name := "T" }], [.value .byValue { name := "x" } (.bare "T")], [],
      some (.bare "T"), some (.call {} (.bare "same") [.bare "x"]), {}⟩]

/-- `(same('a'), even(seed))` -/
def sameThenEven : Expr :=
  .tuple {} [.call {} (.bare "same") [.char {} 'a'], .call {} (.bare "even") [.bare "seed"]]

theorem annotated_parityProgram : Annotated parityProgram where
  form := by decide
  names := by
    intro item hitem e he d hd v hv
    have hseed : ∀ item ∈ parityProgram, ∀ e ∈ item.types, "seed" ∉ e.names := by decide
    obtain rfl : d = ⟨[⟨{ name := "seed" }, none⟩], .call {} (.bare "even") [.int {} 1]⟩ := by
      simpa [parityProgram] using hd
    obtain rfl := List.mem_singleton.1 hv
    exact hseed item hitem e he
  explicit := by
    intro d hd hgeneric
    simp only [parityProgram, List.mem_cons, Item.procedure.injEq, reduceCtorEq, List.not_mem_nil, false_or,
      or_false] at hd
    rcases hd with rfl | rfl | rfl
    · exact absurd rfl hgeneric
    · exact absurd rfl hgeneric
    · exact .inl nofun

/-- The circle from `seed` to `even` to `odd` to `seed` is cut, and after that it comes to an end again. -/
theorem parity_terminates : ∃ m st, Module.ofItems parityProgram = .ok m ∧
    inferWithin 8 m.table m.env sameThenEven {} = some (.error ⟨.recursiveInference, {}⟩, st) ∧
    ∃ depth r st', ∀ more ≥ depth, inferWithin more m.table m.env sameThenEven st = some (r, st') := by
  have hfirst : (Module.ofItems parityProgram).toOption.bind
      (fun m => (inferWithin 8 m.table m.env sameThenEven {}).map (·.1)) =
        some (.error ⟨.recursiveInference, {}⟩) := by decide +kernel
  obtain ⟨m, hm, hfound⟩ := Module.exists_of_bind hfirst
  obtain ⟨⟨r, st⟩, hrun, rfl⟩ := Option.map_eq_some_iff.1 hfound
  exact ⟨m, st, hm, hrun, inference_terminates hm annotated_parityProgram (.infer .fresh hrun) sameThenEven⟩

end DualInference
