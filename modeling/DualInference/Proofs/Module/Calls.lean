/-
Calls of procedures.

A call matches the formals of a procedure with its arguments, from left to right: it unifies their type expressions with
the types of the arguments, where the type variables of the procedure are variables of the store. What is looked for can be
said without any of this. Types given to the type variables suit the arguments if the type expressions then denote the types
of the arguments (`Module.Suits`).

Matching finds out exactly this. As long as some types suit the arguments so far, it goes on (`unifyFormals_complete`), and
the first argument with which none do is where it fails (`Filling.mismatch`). When all formals are matched, the type
variables that no formal mentions are still open. If there are none, the types are found, they are the only ones, and
the body is read with them (`bodyEnv_of_suits`).

Main result: `matching_is_exact`.
-/
import DualInference.Proofs.Inference.Records
import DualInference.Proofs.Module.Construction
import DualInference.Proofs.Module.Order

namespace DualInference

open Infer Context

/-! ## Parameters in front of a body -/

/-- the names of the value parameters -/
def paramNames : List Formal → List String
  | [] => []
  | .value _ name _ :: formals => name.name :: paramNames formals
  | .type _ :: formals => paramNames formals

/-- the value parameters with the types of their arguments, the last of them innermost -/
def Frame.ofParams : List Formal → Key → Frame
  | .value passing name _ :: formals, actual :: key =>
    ofParams formals key ++ [(name.name, .param (passing.paramType actual.ty))]
  | .type _ :: formals, _ :: key => ofParams formals key
  | _, _ => []

theorem Frame.lookup_ofParams_eq_none {formals : List Formal} {key : Key} {name : String}
    (h : name ∉ paramNames formals) : (ofParams formals key).lookup name = none := by
  induction formals generalizing key with
  | nil => rfl
  | cons formal formals ih =>
    cases key with
    | nil => cases formal <;> rfl
    | cons actual key =>
      cases formal with
      | value passing ident e =>
        obtain ⟨hne, hrest⟩ := not_or.1 fun hmem => h (List.mem_cons.2 hmem)
        rw [ofParams, List.lookup_append, ih hrest, List.lookup_cons, beq_eq_false_iff_ne.2 hne]
        rfl
      | type e => exact ih h

/-- A value parameter is found with the type of the argument at its position. -/
theorem Frame.lookup_ofParams {formals : List Formal} {key : Key} (hdistinct : (paramNames formals).Nodup) {i : Nat}
    {passing : Passing} {name : Ident} {e : Expr} {actual : Denotation}
    (hformal : formals[i]? = some (.value passing name e)) (hactual : key[i]? = some actual) :
    (ofParams formals key).lookup name.name = some (.param (passing.paramType actual.ty)) := by
  induction formals generalizing key i with
  | nil => cases hformal
  | cons formal formals ih =>
    cases key with
    | nil => cases hactual
    | cons actual' key =>
      cases i with
      | zero =>
        cases hformal
        cases hactual
        rw [ofParams, List.lookup_append, lookup_ofParams_eq_none (List.nodup_cons.1 hdistinct).1, List.lookup_cons,
          beq_self_eq_true]
        rfl
      | succ i =>
        cases formal with
        | value passing' name' e' =>
          rw [ofParams, List.lookup_append, ih (List.nodup_cons.1 hdistinct).2 hformal hactual]
          rfl
        | type e' => exact ih hdistinct hformal hactual

/-- Parameters of distinct names are added to a frame that has none of them. -/
theorem addParams_eq (cx : Context) {st : State} (hs : st.store.Acyclic) {formals : List Formal} {key : Key}
    (hclosed : ∀ actual ∈ key, actual.ty.vars = []) (hdistinct : (paramNames formals).Nodup) {frame : Frame}
    (hnew : ∀ name ∈ paramNames formals, frame.lookup name = none) :
    cx.addParams frame formals key st = some (.ok (Frame.ofParams formals key ++ frame), st) := by
  induction formals generalizing key frame with
  | nil => rfl
  | cons formal formals ih =>
    cases key with
    | nil => cases formal <;> rfl
    | cons actual key =>
      have hrest : ∀ actual ∈ key, actual.ty.vars = [] := fun actual hmem => hclosed actual (.tail _ hmem)
      cases formal with
      | value passing name e =>
        obtain ⟨hname, hdistinct⟩ := List.nodup_cons.1 hdistinct
        have hadd : frame.add name (.param (passing.paramType actual.ty)) =
            .ok ((name.name, .param (passing.paramType actual.ty)) :: frame) :=
          Frame.add_eq_ok.2 ⟨hnew name.name (.head _), rfl⟩
        rw [Context.addParams, bind_of_ok (closed_of_some _ (Store.deref?_closed hs (hclosed actual (.head _)))),
          bind_of_ok (lift_eq_ok.2 ⟨hadd, rfl⟩), ih hrest hdistinct, Frame.ofParams, List.append_assoc]
        · rfl
        · intro name' hmem
          have hne : name' ≠ name.name := fun heq => hname (heq ▸ hmem)
          rw [List.lookup_cons, beq_eq_false_iff_ne.2 hne]
          exact hnew name' (.tail _ hmem)
      | type e => exact ih hrest hdistinct hnew

/-! ## Matching formals -/

section

variable {cx : Context} {env : Env} {st st₁ : State}

/-- Formals are matched one after the other. -/
theorem unifyFormals_drop {formals : List Formal} {key : Key} {args : List Expr} {i : Nat}
    (h : cx.unifyFormals env (formals.take i) (key.take i) (args.take i) st = some (.ok (), st₁)) :
    cx.unifyFormals env formals key args st =
      cx.unifyFormals env (formals.drop i) (key.drop i) (args.drop i) st₁ := by
  have hkey : ∀ formals args, cx.unifyFormals env formals [] args = pure () := fun formals _ => by cases formals <;> rfl
  have hargs : ∀ formals key, cx.unifyFormals env formals key [] = pure () := fun formals key => by
    cases formals <;> cases key <;> rfl
  induction i generalizing formals key args st with
  | zero =>
    cases h
    rfl
  | succ i ih =>
    cases formals with
    | nil =>
      cases h
      rfl
    | cons formal formals =>
      cases key with
      | nil =>
        cases h
        rw [List.drop_nil, hkey, hkey]
      | cons actual key =>
        cases args with
        | nil =>
          cases h
          rw [List.drop_nil, hargs, hargs]
        | cons arg args =>
          obtain ⟨_, _, haccept, h₁⟩ := bind_eq_ok.1 h
          obtain ⟨t, _, htype, h₂⟩ := bind_eq_ok.1 h₁
          obtain ⟨_, _, hunified, h₃⟩ := bind_eq_ok.1 h₂
          rw [Context.unifyFormals, bind_of_ok haccept, bind_of_ok htype, bind_of_ok hunified]
          exact ih h₃

end

section

variable {tab : SymbolTable} {items : List Item} (hset : tab.Settled items) {home : ScopeId} {names : List Ident}
  {params : List Ty} {vars known : Frame} {done : List String} {s₀ s' : Store} (hs' : s'.Acyclic) {st : State}

include hset hs'

/-- Where the formals denote the types of the arguments at the parameters, all of them are matched, and the type variables
that they mention are bound to their parameters. -/
theorem unifyFormals_complete {formals : List Formal} {key : Key} {args : List Expr} (hargs : args.length = key.length)
    (hdual : List.Forall₂ (fun formal actual => Formal.isValue formal = Denotation.isValue actual) formals key)
    (hdenote : List.Forall₂ (TypeExpr tab s' ⟨known, home⟩) (formals.map Formal.typeExpr) (key.map Denotation.ty))
    (h : Filling s₀ names params vars known done st.store) :
    ∃ s, (fully kept tab).unifyFormals ⟨vars, home⟩ formals key args st = some (.ok (), { st with store := s }) ∧
      Filling s₀ names params vars known (done ++ formals.flatMap (·.typeExpr.names)) s := by
  induction hdual generalizing args st done with
  | nil =>
    refine ⟨st.store, rfl, ?_⟩
    rwa [List.flatMap_nil, List.append_nil]
  | @cons formal actual formals key hside _ ih =>
    cases args with
    | nil => cases hargs
    | cons arg args =>
      cases hdenote with
      | cons hformal hrest =>
        obtain ⟨t, s₁, ht, hunify, _, h₁⟩ := h.unify hset (.refl _) h.wellFormed hs' hformal
        have h₂ : Filling s₀ names params vars known _ ({ st with store := s₁ } : State).store := h₁
        obtain ⟨s, hrun, hfilling⟩ := ih (Nat.succ.inj hargs) hrest h₂
        refine ⟨s, ?_, by rwa [List.flatMap_cons, ← List.append_assoc]⟩
        rw [Context.unifyFormals, bind_of_ok (accept_eq_ok.2 ⟨hside, rfl⟩),
          bind_of_ok (fully_type_eq_ok.2 ⟨ht, rfl⟩), bind_of_ok (unified_of_some hunify)]
        exact hrun

/-- A formal that does not match, after some that do: it denotes a type at the parameters, but there are no parameters at
which it and those before it denote the types of their arguments. -/
theorem Filling.mismatch (h : Filling s₀ names params vars known done st.store) {es : List Expr} {as : List Ty}
    (hes : List.Forall₂ (TypeExpr tab s' ⟨known, home⟩) es as) (hdone : ∀ e ∈ es, ∀ name ∈ e.names, name ∈ done)
    {formal : Formal} {actual : Denotation} (hside : formal.isValue = actual.isValue) (hclosed : actual.ty.vars = [])
    {b : Ty} (hformal : TypeExpr tab s' ⟨known, home⟩ formal.typeExpr b)
    (hno : ∀ params' known', params'.length = names.length → (∀ p ∈ params', p.vars = []) →
      Frame.ofTypeVars names params' = .ok known' → List.Forall₂ (TypeExpr tab s' ⟨known', home⟩) es as →
      ¬TypeExpr tab s' ⟨known', home⟩ formal.typeExpr actual.ty)
    (formals : List Formal) (key : Key) (arg : Expr) (args : List Expr) :
    ∃ expected found, (fully kept tab).unifyFormals ⟨vars, home⟩ (formal :: formals) (actual :: key) (arg :: args) st =
      some (.error ⟨.typeMismatch expected found, arg.span⟩, st) := by
  obtain ⟨t, ht, _⟩ := hformal.at_vars hset h.wellFormed.acyclic hs' h.slots
  have hunify : st.store.unify t actual.ty = none := by
    cases hu : st.store.unify t actual.ty with
    | none => rfl
    | some s =>
      obtain ⟨params', known', hlength, hclosed', hknown', hes', he⟩ := h.refit hset hs' hes hdone ht hclosed hu
      exact absurd he (hno params' known' hlength hclosed' hknown' hes')
  refine ⟨st.store.display tab.nameOf t, st.store.display tab.nameOf actual.ty, ?_⟩
  rw [Context.unifyFormals, bind_of_ok (accept_eq_ok.2 ⟨hside, rfl⟩), bind_of_ok (fully_type_eq_ok.2 ⟨ht, rfl⟩),
    bind_apply, unified_of_none hunify, mismatch_apply]
  rfl

end

/-! ## Bodies -/

section

variable {tab : SymbolTable} {items : List Item} (hset : tab.Settled items) {origin : Origin} {d : Procedure} {key : Key}
  {args : List Expr} {span : Span} {st st₁ : State}

include hset

/-- What is found for a closed key has no variables, so in the end there is nothing to be done about it. -/
theorem returnType_of_bodyEnv (hwf : st.store.WellFormed) (hsound : st.memo.Sound tab) (hkey : key.Closed tab)
    {env : Env} (henv : (fully kept tab).bodyEnv origin d key args span st = some (.ok env, st₁)) :
    (fully kept tab).returnType origin d key args span st = (fully kept tab).result env d st₁ := by
  rw [returnType_eq, bind_of_ok henv, bind_apply]
  cases hresult : (fully kept tab).result env d st₁ with
  | none => rfl
  | some p =>
    obtain ⟨r, st₂⟩ := p
    cases r with
    | error e => rfl
    | ok t =>
      -- the same is found without a memo, and has no variables there
      have hreached := Built.reached continuous_memoized tab
        ((Built.bodyEnv origin d key args span).bind fun env => Built.result env d)
      obtain ⟨n, hn⟩ := hreached.reached.1 (bind_eq_ok.2 ⟨env, st₁, henv, hresult⟩)
      have hkey' : (Likeness.denoted tab .closed).list.rel .none key key := hkey
      have hsim : (Setting.forward tab fun m _ => m.Sound tab).Sim .none (.env tab .closed)
          ((within kept n tab).bodyEnv origin d key args span) ((fully plainly tab).bodyEnv origin d key args span) :=
        (kept_simulates_plain hset n).bodyEnv origin d hkey' rfl (fun _ => rfl) fun _ => rfl
      have halong := (hsim.bind fun V₁ _ env env' henv => (kept_simulates_plain hset n).result henv d) .none st st
        (le_refl _) ⟨.unpaired hwf hwf, hsound⟩
      rw [Setting.Along.forward rfl] at halong
      obtain ⟨_, u, _, _, hend⟩ := halong t st₂ hn
      cases hend.outcome with
      | ok htu =>
        have hclosed : t.vars = [] := htu.vars_eq_nil
        exact closed_of_some _ (Store.deref?_closed hend.related.stores.left.acyclic hclosed)

omit hset in
/-- A call whose key is not recorded comes to what the search for its return type comes to. -/
theorem callProcedure_eq {env : Env} (hkey : (fully kept tab).denotations env args st = some (.ok key, st₁))
    (hnone : st₁.memo.state? origin.id key = none) :
    (fully kept tab).callProcedure origin d span env args st =
      ((fully kept tab).returnType origin d key args span
        { st₁ with memo := st₁.memo.modify origin.id (·.start key) }).map fun p =>
          (p.1.map .value, { p.2 with memo := p.2.memo.finish origin.id key p.1 }) := by
  have hremember : (fully kept tab).remember = memoized start := rfl
  rw [callProcedure, bind_of_ok hkey, bind_apply, hremember, memoized_none hnone]
  cases (fully kept tab).returnType origin d key args span
    { st₁ with memo := st₁.memo.modify origin.id (·.start key) } with
  | none => rfl
  | some p =>
    obtain ⟨r, st₂⟩ := p
    cases r <;> rfl

end

theorem infer_call_procedure {tab : SymbolTable} {env : Env} {st : State} {ident : Ident} {origin : Origin}
    {d : Procedure} (h : env.meaning? tab ident.name = some (.procedure origin d)) (span place : Span)
    (args : List Expr) : (fully kept tab).infer env (.call span (.name place ident) args) st =
      (fully kept tab).callProcedure origin d span env args st := by
  have hmeaning : (fully kept tab).meaning env ident st = some (.ok (.procedure origin d), st) :=
    meaning_eq_ok.2 ⟨h, rfl⟩
  rw [fully_infer, rule, call, Expr.bareName?]
  exact bind_of_ok hmeaning

/-! ## Types that suit -/

/-- the expression is the bare name of the procedure -/
def Procedure.NamedBy (d : Procedure) (R : Expr) : Prop :=
  ∃ place ident, R = .name place ident ∧ ident.name = d.name.name

/-- does the name occur in the type expression of some formal -/
def Procedure.mentions (d : Procedure) (name : String) : Bool :=
  d.formals.any fun formal => formal.typeExpr.names.contains name

theorem Procedure.mentions_eq (d : Procedure) (name : String) :
    d.mentions name = decide (name ∈ d.formals.flatMap (·.typeExpr.names)) := by
  rw [Bool.eq_iff_iff, decide_eq_true_iff, mentions, List.any_eq_true, List.mem_flatMap]
  exact exists_congr fun formal => and_congr_right fun _ => List.contains_iff_mem

/-- what stands in front of the body of a procedure: its value parameters are values of the types of their arguments, or
references to such values, and its other type variables have the types given to them -/
structure Procedure.Fronts (d : Procedure) (key : Key) (types : List Ty) (locals : Frame) : Prop where
  param : ∀ (i : Nat) passing name e actual, d.formals[i]? = some (.value passing name e) → key[i]? = some actual →
    locals.lookup name.name = some (.param (passing.paramType actual.ty))
  typeVar : ∀ (j : Nat) name t, d.typeVars[j]? = some name → types[j]? = some t → name.name ∉ paramNames d.formals →
    locals.lookup name.name = some (.typeVar t)
  other : ∀ name, name ∉ paramNames d.formals → name ∉ d.typeVars.map (·.name) → locals.lookup name = none

namespace Module

/-- with the types given to the type variables of the procedure, the expression denotes the type -/
def Denotes (m : Module) (d : Procedure) (types : List Ty) (e : Expr) (t : Ty) : Prop :=
  ∃ known, Frame.ofTypeVars d.typeVars types = .ok known ∧
    ∃ depth st, inferWithin depth m.table { locals := known, scope := m.scope } e {} = some (.ok (.type t), st)

/-- The types, which have no variables, are given to the type variables of the procedure. Then so many of its formals, the
first ones, denote exactly the types of the arguments in the key. -/
structure Suits (m : Module) (d : Procedure) (key : Key) (count : Nat) (types : List Ty) : Prop where
  length : types.length = d.typeVars.length
  closed : ∀ t ∈ types, t.vars = []
  denotes : ∀ i < count, ∀ formal actual, d.formals[i]? = some formal → key[i]? = some actual →
    m.Denotes d types formal.typeExpr actual.ty

/-- with some types given to the type variables, the type expressions of all formals denote types -/
def FormalsDenote (m : Module) (d : Procedure) : Prop :=
  ∃ types, types.length = d.typeVars.length ∧ (∀ t ∈ types, t.vars = []) ∧
    ∀ formal ∈ d.formals, ∃ t, m.Denotes d types formal.typeExpr t

/-- behind the local names, the return type that the procedure declares, or else its body, is inferred from the state with
the outcome -/
def Returns (m : Module) (d : Procedure) (locals : Frame) (st : State) (r : Except Error Ty) : Prop :=
  ∃ depth st', Context.result { table := m.table, infer := inferWithin depth m.table } { locals, scope := m.scope } d st =
    some (r, st')

variable {m : Module} {d : Procedure}

theorem denotes_iff {types : List Ty} {e : Expr} {t : Ty} : m.Denotes d types e t ↔
    ∃ known, Frame.ofTypeVars d.typeVars types = .ok known ∧ TypeExpr m.table {} ⟨known, m.scope⟩ e t := by
  refine exists_congr fun known => and_congr_right fun _ => ⟨?_, fun h => ?_⟩
  · rintro ⟨depth, st, hrun⟩
    rw [← inferBy_memoized] at hrun
    exact (inferBy_findsTypes kept depth m.table hrun).2
  · have hfound : (fully kept m.table).infer ⟨known, m.scope⟩ e {} = some (.ok (.type t), {}) :=
      TypeExpr.found (fully_infer m.table) h
    obtain ⟨depth, hdepth⟩ := (inferFully_reached continuous_memoized m.table).1 hfound
    rw [inferBy_memoized] at hdepth
    exact ⟨depth, {}, hdepth⟩

theorem Denotes.unique {types : List Ty} {e : Expr} {t u : Ty} (h : m.Denotes d types e t) (h' : m.Denotes d types e u) :
    t = u := by
  obtain ⟨known, hknown, ht⟩ := denotes_iff.1 h
  obtain ⟨known', hknown', hu⟩ := denotes_iff.1 h'
  cases hknown.symm.trans hknown'
  have hfound : ∀ {t}, TypeExpr m.table {} ⟨known, m.scope⟩ e t →
      (fully kept m.table).infer ⟨known, m.scope⟩ e {} = some (.ok (.type t), {}) :=
    fun h => TypeExpr.found (fully_infer m.table) h
  cases (hfound ht).symm.trans (hfound hu)
  rfl

theorem returns_iff {locals : Frame} {st : State} {r : Except Error Ty} : m.Returns d locals st r ↔
    ∃ st', (fully kept m.table).result ⟨locals, m.scope⟩ d st = some (r, st') := by
  have hreached := Built.reached continuous_memoized m.table (Built.result ⟨locals, m.scope⟩ d)
  constructor
  · rintro ⟨depth, st', h⟩
    rw [← within_kept] at h
    exact ⟨st', hreached.reached.2 ⟨depth, h⟩⟩
  · rintro ⟨st', h⟩
    obtain ⟨depth, hdepth⟩ : ∃ depth, (within kept depth m.table).result ⟨locals, m.scope⟩ d st = some (r, st') :=
      hreached.reached.1 h
    rw [within_kept] at hdepth
    exact ⟨depth, st', hdepth⟩

section

variable {items : List Item} {key : Key} {count : Nat} {types : List Ty} {known : Frame}

/-- There is something that suits no arguments yet. -/
theorem FormalsDenote.suits_zero (h : m.FormalsDenote d) (key : Key) : ∃ types, m.Suits d key 0 types := by
  obtain ⟨types, hlength, hclosed, _⟩ := h
  exact ⟨types, hlength, hclosed, nofun⟩

theorem Suits.succ (h : m.Suits d key count types) {formal : Formal} {actual : Denotation}
    (hformal : d.formals[count]? = some formal) (hactual : key[count]? = some actual)
    (hdenotes : m.Denotes d types formal.typeExpr actual.ty) : m.Suits d key (count + 1) types := by
  refine ⟨h.length, h.closed, fun i hi formal' actual' hformal' hactual' => ?_⟩
  rcases Nat.lt_succ_iff_lt_or_eq.1 hi with hi | rfl
  · exact h.denotes i hi formal' actual' hformal' hactual'
  · cases hformal.symm.trans hformal'
    cases hactual.symm.trans hactual'
    exact hdenotes

theorem Suits.typeExprs (h : m.Suits d key count types) (hdistinct : (d.typeVars.map (·.name)).Nodup)
    (hlen : d.formals.length = key.length) : ∃ known, Frame.ofTypeVars d.typeVars types = .ok known ∧
      List.Forall₂ (TypeExpr m.table {} ⟨known, m.scope⟩) ((d.formals.take count).map Formal.typeExpr)
        ((key.take count).map Denotation.ty) := by
  obtain ⟨known, hknown⟩ := Frame.ofTypeVars_of_distinct hdistinct types
  refine ⟨known, hknown, List.forall₂_iff_get.2 ⟨by simp [hlen], fun i hi _ => ?_⟩⟩
  simp only [List.length_map, List.length_take, Nat.lt_min] at hi
  obtain ⟨known', hknown', hdenotes⟩ := denotes_iff.1 (h.denotes i hi.1 _ _ (List.getElem?_eq_getElem hi.2)
    (List.getElem?_eq_getElem (hlen ▸ hi.2)))
  cases hknown.symm.trans hknown'
  simpa using hdenotes

theorem suits_of_typeExprs (hlength : types.length = d.typeVars.length) (hclosed : ∀ t ∈ types, t.vars = [])
    (hknown : Frame.ofTypeVars d.typeVars types = .ok known)
    (h : List.Forall₂ (TypeExpr m.table {} ⟨known, m.scope⟩) ((d.formals.take count).map Formal.typeExpr)
      ((key.take count).map Denotation.ty)) : m.Suits d key count types := by
  refine ⟨hlength, hclosed, fun i hi formal actual hformal hactual => denotes_iff.2 ⟨known, hknown, ?_⟩⟩
  have hmem : (formal.typeExpr, actual.ty) ∈ ((d.formals.take count).map Formal.typeExpr).zip
      ((key.take count).map Denotation.ty) := by
    refine List.mem_iff_getElem?.2 ⟨i, List.getElem?_zip_eq_some.2 ⟨?_, ?_⟩⟩
    · rw [List.getElem?_map, List.getElem?_take_of_lt hi, hformal]
      rfl
    · rw [List.getElem?_map, List.getElem?_take_of_lt hi, hactual]
      rfl
  exact List.forall₂_zip h hmem

/-- If the type expressions of the formals denote types with some types for the type variables, they do so with all. -/
theorem FormalsDenote.any (h : m.FormalsDenote d) (hset : m.table.Settled items)
    (hlength : types.length = d.typeVars.length) (hclosed : ∀ t ∈ types, t.vars = [])
    (hknown : Frame.ofTypeVars d.typeVars types = .ok known) {formal : Formal} (hformal : formal ∈ d.formals) :
    ∃ t, TypeExpr m.table {} ⟨known, m.scope⟩ formal.typeExpr t := by
  obtain ⟨types₀, hlength₀, hclosed₀, hdenote⟩ := h
  obtain ⟨t₀, ht₀⟩ := hdenote formal hformal
  obtain ⟨known₀, hknown₀, hexpr⟩ := denotes_iff.1 ht₀
  -- by way of new type variables
  obtain ⟨s, _, hs, _, hfill⟩ := freshVars_filling d.typeVars {} Store.wellFormed_empty
  obtain ⟨vars, hvars, hfilling₀⟩ := hfill hlength₀ hclosed₀ hknown₀
  obtain ⟨vars', hvars', hfilling⟩ := hfill hlength hclosed hknown
  cases hvars.symm.trans hvars'
  have hempty := Store.wellFormed_empty.acyclic
  obtain ⟨t, ht, _⟩ := hexpr.at_vars hset hs.acyclic hempty hfilling₀.slots
  exact ⟨_, ht.at_params hset hs.acyclic hempty hfilling.slots⟩

theorem fronts_ofParams (hparams : (paramNames d.formals).Nodup)
    (hknown : Frame.ofTypeVars d.typeVars types = .ok known) :
    d.Fronts key types (Frame.ofParams d.formals key ++ known) where
  param i passing name e actual hformal hactual := by
    rw [List.lookup_append, Frame.lookup_ofParams hparams hformal hactual]
    rfl
  typeVar j name t hname ht hnot := by
    rw [List.lookup_append, Frame.lookup_ofParams_eq_none hnot,
      (Frame.lookup_ofTypeVars hknown name.name _).2 ⟨j, name, t, hname, ht, rfl, rfl⟩]
    rfl
  other name hnot hnot' := by
    rw [List.lookup_append, Frame.lookup_ofParams_eq_none hnot, Frame.lookup_ofTypeVars_eq_none hknown hnot']
    rfl

end

/-! ## One call -/

section

variable {items : List Item} (hset : m.table.Settled items) (halive : m.table.alive m.scope = true)
  (hconditions : d.conditions = []) (htypeVars : (d.typeVars.map (·.name)).Nodup) (hformals : m.FormalsDenote d)
  {key : Key} (hclosed : ∀ actual ∈ key, actual.ty.vars = [])
  (hdual : List.Forall₂ (fun formal actual => Formal.isValue formal = Denotation.isValue actual) d.formals key)
  {args : List Expr} (hargs : args.length = key.length) {st : State} (hst : st.store.WellFormed) {origin : Origin}
  (horigin : origin.home = m.scope) (span : Span)

include hset halive htypeVars hclosed hdual hargs hst horigin

include hformals in
/-- Matching fails at the first argument up to which no types suit. -/
theorem bodyEnv_of_misfit {i : Nat} {arg : Expr} {types : List Ty} (harg : args[i]? = some arg)
    (hsuits : m.Suits d key i types) (hno : ¬∃ types, m.Suits d key (i + 1) types) :
    ∃ expected found st', (fully kept m.table).bodyEnv origin d key args span st =
      some (.error ⟨.typeMismatch expected found, arg.span⟩, st') := by
  have hlen := hdual.length_eq
  have hempty := Store.wellFormed_empty.acyclic
  have hi : i < args.length := (List.getElem?_eq_some_iff.1 harg).1
  have hkey : i < key.length := by omega
  have hformal : i < d.formals.length := by omega
  obtain ⟨known, hknown, hexprs⟩ := hsuits.typeExprs htypeVars hlen
  obtain ⟨s, hfresh, hs, hsize, hfill⟩ := freshVars_filling d.typeVars st hst
  obtain ⟨vars, hvars, hfilling⟩ := hfill hsuits.length hsuits.closed hknown
  -- the arguments before it are matched
  have htake : (args.take i).length = (key.take i).length := by simp [hargs]
  have hready : Filling st.store d.typeVars types vars known [] ({ st with store := s } : State).store := hfilling
  obtain ⟨s₁, hbefore, hfilling₁⟩ := unifyFormals_complete hset hempty htake (List.forall₂_take i hdual) hexprs hready
  -- and it is not
  obtain ⟨b, hb⟩ := hformals.any hset hsuits.length hsuits.closed hknown (List.getElem_mem hformal)
  have hdone : ∀ e ∈ (d.formals.take i).map Formal.typeExpr, ∀ name ∈ e.names,
      name ∈ [] ++ (d.formals.take i).flatMap (·.typeExpr.names) := by
    intro e he name hname
    obtain ⟨formal, hmem, rfl⟩ := List.mem_map.1 he
    exact List.mem_flatMap.2 ⟨formal, hmem, hname⟩
  have hside : d.formals[i].isValue = key[i].isValue := (List.forall₂_iff_get.1 hdual).2 i hformal hkey
  have hmisfit : ∀ params' known', params'.length = d.typeVars.length → (∀ p ∈ params', p.vars = []) →
      Frame.ofTypeVars d.typeVars params' = .ok known' →
      List.Forall₂ (TypeExpr m.table {} ⟨known', m.scope⟩) ((d.formals.take i).map Formal.typeExpr)
        ((key.take i).map Denotation.ty) →
      ¬TypeExpr m.table {} ⟨known', m.scope⟩ d.formals[i].typeExpr key[i].ty := by
    intro params' known' hlength' hclosed' hknown' hes he
    refine hno ⟨params', suits_of_typeExprs hlength' hclosed' hknown' ?_⟩
    rw [List.take_succ_eq_append_getElem hformal, List.take_succ_eq_append_getElem hkey, List.map_append,
      List.map_append]
    exact List.rel_append hes (.cons he .nil)
  have hstore : Filling st.store d.typeVars types vars known _ ({ st with store := s₁ } : State).store := hfilling₁
  obtain ⟨expected, found, hfails⟩ := hstore.mismatch hset hempty hexprs hdone hside
    (hclosed _ (List.getElem_mem hkey)) hb hmisfit (d.formals.drop (i + 1)) (key.drop (i + 1)) arg (args.drop (i + 1))
  obtain ⟨_, rfl⟩ := List.getElem?_eq_some_iff.1 harg
  have hunify : (fully kept m.table).unifyFormals ⟨vars, m.scope⟩ d.formals key args { st with store := s } =
      some (.error ⟨.typeMismatch expected found, args[i].span⟩, { st with store := s₁ }) := by
    rw [unifyFormals_drop hbefore, List.drop_eq_getElem_cons hformal, List.drop_eq_getElem_cons hkey,
      List.drop_eq_getElem_cons hi]
    exact hfails
  refine ⟨expected, found, { st with store := s₁ }, ?_⟩
  rw [Context.bodyEnv, bind_of_ok (arity_eq_ok.2 ⟨hlen.symm, rfl⟩),
    bind_of_ok (home_eq_ok.2 ⟨⟨horigin ▸ halive, rfl⟩, rfl⟩), bind_of_ok hfresh, bind_of_ok (lift_eq_ok.2 ⟨hvars, rfl⟩),
    bind_apply, horigin, hunify]

/-- If some types suit all arguments, all formals are matched. Then the first type variable that no formal mentions is left
open, or the types have been found and the body is behind them. -/
theorem bodyEnv_of_suits {types : List Ty} (hconditions : d.conditions = []) (hparams : (paramNames d.formals).Nodup)
    (hsuits : m.Suits d key d.formals.length types) :
    ∃ vars known s, Frame.ofTypeVars d.typeVars types = .ok known ∧
      Filling st.store d.typeVars types vars known (d.formals.flatMap (·.typeExpr.names)) s ∧
      (fully kept m.table).bodyEnv origin d key args span st =
        some (match d.typeVars.find? fun v => !d.mentions v.name with
          | none => .ok ⟨Frame.ofParams d.formals key ++ known, m.scope⟩
          | some v => .error ⟨.unresolvedTypeVariable v.name, span⟩, { st with store := s }) := by
  have hlen := hdual.length_eq
  obtain ⟨known, hknown, hexprs⟩ := hsuits.typeExprs htypeVars hlen
  rw [List.take_length, hlen, List.take_length] at hexprs
  obtain ⟨s, hfresh, hs, hsize, hfill⟩ := freshVars_filling d.typeVars st hst
  obtain ⟨vars, hvars, hfilling⟩ := hfill hsuits.length hsuits.closed hknown
  have hready : Filling st.store d.typeVars types vars known [] ({ st with store := s } : State).store := hfilling
  obtain ⟨s₁, hunify, hfilling₁⟩ := unifyFormals_complete hset Store.wellFormed_empty.acyclic hargs hdual hexprs hready
  have hs₁ := hfilling₁.wellFormed.acyclic
  have hfilled : Filled ({ st with store := s₁ } : State).store st.store.size d.typeVars types _ := hfilling₁.filled
  have hsolution := hfilled.solution hs₁ hsuits.length hsuits.closed (fun v => d.mentions v.name)
    (fun v => d.mentions_eq v.name) span
  refine ⟨vars, known, s₁, hknown, hfilling₁, ?_⟩
  rw [Context.bodyEnv, bind_of_ok (arity_eq_ok.2 ⟨hlen.symm, rfl⟩),
    bind_of_ok (home_eq_ok.2 ⟨⟨horigin ▸ halive, rfl⟩, rfl⟩), bind_of_ok hfresh, bind_of_ok (lift_eq_ok.2 ⟨hvars, rfl⟩),
    horigin, bind_of_ok hunify, bind_of_ok (unconditional_eq_ok.2 ⟨hconditions, rfl⟩), bind_apply, hsolution]
  cases d.typeVars.find? fun v => !d.mentions v.name with
  | some v => rfl
  | none =>
    dsimp only
    rw [bind_of_ok (lift_eq_ok.2 ⟨hknown, rfl⟩), bind_of_ok (addParams_eq _ hs₁ hclosed hparams fun _ _ => rfl),
      List.append_nil]
    rfl

/-- If all type variables are mentioned, no other types suit all arguments. -/
theorem Suits.unique {types types' : List Ty} (hconditions : d.conditions = []) (hparams : (paramNames d.formals).Nodup)
    (hmentioned : d.typeVars.find? (fun v => !d.mentions v.name) = none)
    (hsuits : m.Suits d key d.formals.length types) (hsuits' : m.Suits d key d.formals.length types') :
    types' = types := by
  obtain ⟨_, _, s, _, hfilling, hrun⟩ := bodyEnv_of_suits hset halive htypeVars hclosed hdual hargs hst horigin {}
    hconditions hparams hsuits
  obtain ⟨_, _, s', _, hfilling', hrun'⟩ := bodyEnv_of_suits hset halive htypeVars hclosed hdual hargs hst horigin {}
    hconditions hparams hsuits'
  -- both are what the type variables are bound to in the end
  obtain rfl : s' = s := congrArg (fun p => p.2.store) (Option.some.inj (hrun'.symm.trans hrun))
  have hbound : ∀ {params vars known}, params.length = d.typeVars.length →
      Filling st.store d.typeVars params vars known (d.formals.flatMap (·.typeExpr.names)) s' →
      ∀ j < d.typeVars.length, params[j]? = s'.binding? (st.store.size + j) := by
    intro params vars known hlength h j hj
    have hname := List.getElem?_eq_getElem hj
    have hparam := List.getElem?_eq_getElem (hlength.symm ▸ hj)
    have hin := List.find?_eq_none.1 hmentioned _ (List.getElem_mem hj)
    rw [d.mentions_eq] at hin
    rw [h.filled j _ hname, if_pos (by simpa using hin), paramAt_add hparam, hparam]
  refine List.ext_getElem? fun j => ?_
  by_cases hj : j < d.typeVars.length
  · rw [hbound hsuits'.length hfilling' j hj, hbound hsuits.length hfilling j hj]
  · rw [List.getElem?_eq_none (hsuits'.length ▸ Nat.le_of_not_lt hj),
      List.getElem?_eq_none (hsuits.length ▸ Nat.le_of_not_lt hj)]

end

/-- A call on the name of a procedure, with a key that is not recorded, comes to what the search for its return type comes
to. -/
theorem infers_call_iff {st st₁ : State} {ident : Ident} {origin : Origin} {key : Key} {args : List Expr}
    (hmeaning : m.env.meaning? m.table ident.name = some (.procedure origin d))
    (hkey : (fully kept m.table).denotations m.env args st = some (.ok key, st₁))
    (hnone : st₁.memo.state? origin.id key = none) (span place : Span) {r : Except Error Denotation} :
    m.Infers st (.call span (.name place ident) args) r ↔
      ∃ r' st', (fully kept m.table).returnType origin d key args span
        { st₁ with memo := st₁.memo.modify origin.id (·.start key) } = some (r', st') ∧ r = r'.map .value := by
  rw [infers_iff, infer_call_procedure hmeaning, callProcedure_eq hkey hnone]
  constructor
  · rintro ⟨st', h⟩
    obtain ⟨⟨r', st''⟩, hrun, heq⟩ := Option.map_eq_some_iff.1 h
    cases heq
    exact ⟨r', st'', hrun, rfl⟩
  · rintro ⟨r', st', hrun, rfl⟩
    exact ⟨_, by rw [hrun]; rfl⟩

end Module

/-- **Matching is exact.** Let `R` be the name of a procedure that the program declares without conditions, with distinct
type variables and distinct parameters, and with type expressions that denote types. Let the arguments of a call be inferred
to a key that is not recorded and that has a value for each value parameter and a type for each other formal.
- If no types suit the arguments up to one of them, but some suit those before it, the call fails with a mismatch there.
- If some types suit any number of the arguments, and there are type variables that no formal mentions, the call fails to
  find the first of them.
- If some types suit any number of the arguments, and all type variables are mentioned, there is exactly one choice of types
  that suits all arguments. The call comes to what the declared return type or the body comes to, with these types for the
  type variables, and with the types of the arguments for the parameters. -/
theorem matching_is_exact {items : List Item} {m : Module} (hm : Module.ofItems items = .ok m) {d : Procedure}
    (hd : .procedure d ∈ items) (hconditions : d.conditions = []) (htypeVars : (d.typeVars.map (·.name)).Nodup)
    (hparams : (paramNames d.formals).Nodup) (hformals : m.FormalsDenote d) {st : State} (hst : m.Reached st) {R : Expr}
    (hR : d.NamedBy R) :
    ∃ id, m.table.lookup m.scope d.name.name = some id ∧
      m.table.symbol? id = some ⟨d.name.name, m.scope, .procedure d⟩ ∧
      ∀ (span : Span) (args : List Expr) (depth : Nat) (key : Key) (st₁ : State),
        Context.denotations { table := m.table, infer := inferWithin depth m.table } m.env args st =
          some (.ok key, st₁) →
        st₁.memo.state? id key = none →
        List.Forall₂ (fun formal actual => Formal.isValue formal = Denotation.isValue actual) d.formals key →
        (∀ i arg, args[i]? = some arg → (∀ j < i, ∃ types, m.Suits d key (j + 1) types) →
          (¬∃ types, m.Suits d key (i + 1) types) →
          ∃ expected found, m.Infers st (.call span R args) (.error ⟨.typeMismatch expected found, arg.span⟩)) ∧
        ((∀ i < d.formals.length, ∃ types, m.Suits d key (i + 1) types) →
          (∀ v, d.typeVars.find? (fun v => !d.mentions v.name) = some v →
            m.Infers st (.call span R args) (.error ⟨.unresolvedTypeVariable v.name, span⟩)) ∧
          (d.typeVars.find? (fun v => !d.mentions v.name) = none →
            ∃ types, (∀ types', m.Suits d key d.formals.length types' ↔ types' = types) ∧
              ∃ locals store, d.Fronts key types locals ∧ st₁.store.Extends store ∧
                ∀ r, m.Infers st (.call span R args) r ↔
                  ∃ r', m.Returns d locals { store, memo := st₁.memo.modify id (·.start key) } r' ∧
                    r = r'.map .value)) := by
  have hset := Module.settled hm
  have hrest := hst.atRest hm
  have halive := Module.alive_scope hm
  obtain ⟨id, hlookup, hid⟩ := Module.procedure_bound hm hd
  obtain ⟨place, ident, rfl, hident⟩ := hR
  refine ⟨id, hlookup, hid, fun span args depth key st₁ hkey hnone hdual => ?_⟩
  have hmeaning : m.env.meaning? m.table ident.name = some (.procedure ⟨id, d.name.name, m.scope⟩ d) := by
    rw [hident, Env.meaning?]
    simp [Module.env, hlookup, hid, Symbol.meaning]
  -- the arguments
  have hargs : args.length = key.length := (length_of_denotations hkey).symm
  have hdenotations : (fully kept m.table).denotations m.env args st = some (.ok key, st₁) := by
    rw [← within_kept] at hkey
    exact (Built.reached continuous_memoized m.table (Built.denotations m.env args)).reached.2 ⟨depth, hkey⟩
  obtain ⟨hkeyClosed, hrest₁⟩ := hrest.denotations hset hdenotations
  have hclosed : ∀ actual ∈ key, actual.ty.vars = [] := fun actual hmem => hkeyClosed.vars_eq_nil hmem
  have hcall : ∀ {r}, m.Infers st (.call span (.name place ident) args) r ↔ _ :=
    fun {r} => Module.infers_call_iff hmeaning hdenotations hnone span place
  have horigin : (⟨id, d.name.name, m.scope⟩ : Origin).home = m.scope := rfl
  have hstarted : ({ st₁ with memo := st₁.memo.modify id (·.start key) } : State).store.WellFormed := hrest₁.store
  refine ⟨fun i arg harg hbefore hno => ?_, fun hsome => ?_⟩
  · -- some types suit the arguments before
    have hprefix : ∃ types, m.Suits d key i types := by
      cases i with
      | zero => exact hformals.suits_zero key
      | succ i => exact hbefore i (Nat.lt_succ_self i)
    obtain ⟨types, hsuits⟩ := hprefix
    obtain ⟨expected, found, st', hfails⟩ := Module.bodyEnv_of_misfit hset halive htypeVars hformals hclosed hdual hargs
      hstarted horigin span harg hsuits hno
    refine ⟨expected, found, hcall.2 ⟨.error ⟨.typeMismatch expected found, arg.span⟩, st', ?_, rfl⟩⟩
    rw [returnType_eq, bind_apply, hfails]
  · have hall : ∃ types, m.Suits d key d.formals.length types := by
      rcases hn : d.formals.length with _ | n
      · exact hformals.suits_zero key
      · exact hsome n (by omega)
    obtain ⟨types, hsuits⟩ := hall
    obtain ⟨vars, known, s, hknown, hfilling, hbodyEnv⟩ := Module.bodyEnv_of_suits hset halive htypeVars hclosed hdual hargs
      hstarted horigin span hconditions hparams hsuits
    refine ⟨fun v hv => ?_, fun hmentioned => ?_⟩
    · rw [hv] at hbodyEnv
      refine hcall.2 ⟨.error ⟨.unresolvedTypeVariable v.name, span⟩, ⟨s, st₁.memo.modify id (·.start key)⟩, ?_, rfl⟩
      rw [returnType_eq, bind_apply, hbodyEnv]
    · rw [hmentioned] at hbodyEnv
      refine ⟨types, fun types' => ⟨fun hsuits' => ?_, fun heq => heq ▸ hsuits⟩, Frame.ofParams d.formals key ++ known, s,
        Module.fronts_ofParams hparams hknown, hfilling.later, fun r => ?_⟩
      · exact hsuits.unique hset halive htypeVars hclosed hdual hargs hstarted horigin hconditions hparams hmentioned
          hsuits'
      · have hsound : (st₁.memo.modify id (·.start key)).Sound m.table :=
          Memo.Sound.start hrest₁.sane.sound id key
        rw [hcall, returnType_of_bodyEnv hset hstarted hsound hkeyClosed hbodyEnv]
        refine exists_congr fun r' => ?_
        rw [Module.returns_iff, exists_and_right]

/-- `pick[T](a: T, ref b: T)` that has the value of `a`, and `spare[T, U](a: T)` that mentions `T` only -/
def pick : Procedure :=
  ⟨{ name := "pick" }, [{ name := "T" }],
    [.value .byValue { name := "a" } (.bare "T"), .value .byRef { name := "b" } (.bare "T")], [], none, some (.bare "a"), {}⟩

def spare : Procedure :=
  ⟨{ name := "spare" }, [{ name := "T" }, { name := "U" }], [.value .byValue { name := "a" } (.bare "T")], [], none,
    some (.bare "a"), {}⟩

def pickModule : Module :=
  match Module.ofItems [.procedure pick, .procedure spare] with
  | .ok m => m
  | .error _ => .empty

theorem ofItems_pickModule : Module.ofItems [.procedure pick, .procedure spare] = .ok pickModule := by
  have hok : (Module.ofItems [.procedure pick, .procedure spare]).isOk = true := by decide +kernel
  obtain ⟨m, hm⟩ := Module.ofItems_of_isOk hok
  unfold pickModule
  rw [hm]

/-- `pick(1, true)` fails at `true`, `spare(1)` fails to find `U`, and `pick(1, 2)` comes to the type of `a` behind
`a: Int` and `ref b: Int`. -/
theorem pick_matching_is_exact :
    (∃ expected found, pickModule.Infers {} (.call {} (.bare "pick") [.int {} 1, .bool ⟨8, 12⟩ true])
      (.error ⟨.typeMismatch expected found, ⟨8, 12⟩⟩)) ∧
    pickModule.Infers {} (.call ⟨0, 8⟩ (.bare "spare") [.int {} 1]) (.error ⟨.unresolvedTypeVariable "U", ⟨0, 8⟩⟩) ∧
    pickModule.Infers {} (.call {} (.bare "pick") [.int {} 1, .int {} 2]) (.ok (.value .int)) ∧
    ∃ locals st, pick.Fronts [.value .int, .value .int] [.int] locals ∧ pickModule.Returns pick locals st (.ok .int) := by
  have hpick : pickModule.Denotes pick [.int] (.bare "T") .int := ⟨_, rfl, 1, {}, by decide +kernel⟩
  have hspare : pickModule.Denotes spare [.int, .bool] (.bare "T") .int := ⟨_, rfl, 1, {}, by decide +kernel⟩
  obtain ⟨_, _, _, hcall⟩ := matching_is_exact ofItems_pickModule (d := pick) (.head _) rfl (by decide) (by decide)
    ⟨[.int], rfl, by decide, List.forall_mem_cons.2 ⟨⟨_, hpick⟩, List.forall_mem_cons.2 ⟨⟨_, hpick⟩, nofun⟩⟩⟩ .fresh
    (R := .bare "pick") ⟨_, _, rfl, rfl⟩
  obtain ⟨_, _, _, hcall'⟩ := matching_is_exact ofItems_pickModule (d := spare) (.tail _ (.head _)) rfl (by decide)
    (by decide) ⟨[.int, .bool], rfl, by decide, List.forall_mem_cons.2 ⟨⟨_, hspare⟩, nofun⟩⟩ .fresh (R := .bare "spare")
    ⟨_, _, rfl, rfl⟩
  -- the type of the first argument suits it
  have hfirst : ∀ {key}, key[0]? = some (.value .int) → pickModule.Suits pick key 1 [.int] := fun {key} hkey =>
    have hnone : pickModule.Suits pick key 0 [.int] := ⟨rfl, by decide, nofun⟩
    hnone.succ rfl hkey hpick
  refine ⟨?_, ?_, ?_⟩
  · obtain ⟨hfails, _⟩ := hcall {} [.int {} 1, .bool ⟨8, 12⟩ true] 8 [.value .int, .value .bool] {} (by decide +kernel) rfl
      (.cons rfl (.cons rfl .nil))
    refine hfails 1 _ rfl (fun j hj => ?_) ?_
    · obtain rfl : j = 0 := by omega
      exact ⟨_, hfirst rfl⟩
    · rintro ⟨types, hsuits⟩
      have hint : pickModule.Denotes pick types (.bare "T") .int := hsuits.denotes 0 (by omega) _ _ rfl rfl
      have hbool : pickModule.Denotes pick types (.bare "T") .bool := hsuits.denotes 1 (by omega) _ _ rfl rfl
      cases hint.unique hbool
  · obtain ⟨_, hopen⟩ := hcall' ⟨0, 8⟩ [.int {} 1] 8 [.value .int] {} (by decide +kernel) rfl (.cons rfl .nil)
    have hnone : pickModule.Suits spare [.value .int] 0 [.int, .bool] := ⟨rfl, by decide, nofun⟩
    refine (hopen fun i hi => ?_).1 { name := "U" } rfl
    obtain rfl : i = 0 := Nat.lt_one_iff.1 hi
    exact ⟨_, hnone.succ rfl rfl hspare⟩
  · obtain ⟨_, hfits⟩ := hcall {} [.int {} 1, .int {} 2] 8 [.value .int, .value .int] {} (by decide +kernel) rfl
      (.cons rfl (.cons rfl .nil))
    have hall : ∀ i < 2, ∃ types, pickModule.Suits pick [.value .int, .value .int] (i + 1) types := by
      intro i hi
      obtain rfl | rfl : i = 0 ∨ i = 1 := by omega
      · exact ⟨_, hfirst rfl⟩
      · exact ⟨_, (hfirst rfl).succ rfl rfl hpick⟩
    obtain ⟨types, hunique, locals, store, hfronts, _, hruns⟩ := (hfits hall).2 rfl
    obtain rfl : [.int] = types := (hunique _).1 ((hfirst rfl).succ rfl rfl hpick)
    have hrun : (inferWithin 8 pickModule.table pickModule.env (.call {} (.bare "pick") [.int {} 1, .int {} 2]) {}).map
        (·.1) = some (.ok (.value .int)) := by decide +kernel
    obtain ⟨⟨r, st'⟩, hrun, rfl⟩ := Option.map_eq_some_iff.1 hrun
    have hcalled : pickModule.Infers {} (.call {} (.bare "pick") [.int {} 1, .int {} 2]) (.ok (.value .int)) :=
      ⟨8, st', hrun⟩
    obtain ⟨r, hreturns, hr⟩ := (hruns _).1 hcalled
    cases r with
    | error e => cases hr
    | ok t =>
      cases hr
      exact ⟨hcalled, locals, _, hfronts, hreturns⟩

end DualInference
