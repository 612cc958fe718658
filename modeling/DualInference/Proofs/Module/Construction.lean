/-
Ways to fill an aggregate.

A call on the name of an aggregate finds the parameters from the arguments; a call on an applied aggregate, or on a value
of it, is given the parameters and compares. Both come down to one relation (`Fits`): at the parameters, the fields have
the types of the arguments.
- If a call on the name comes to a value, its arguments fit at the parameters of its type (`construct_fits`), and so do
  those of a call on an aggregate type (`callType_fits`).
- If arguments fit, a call on a type or value with these parameters succeeds (`Fits.callType`), a field of such a value
  has the type of the argument at its position (`Fits.field`), and a call on the name finds the parameters again, as far
  as the fields mention them (`Fits.construct`).
-/
import DualInference.Proofs.Inference.Finding
import DualInference.Proofs.Module.Acceptance
import DualInference.Proofs.Module.History

namespace DualInference

open Infer Context

/-! ## The fields of an aggregate type -/

section

variable {tab : SymbolTable} {st st' : State}

theorem fully_infer (tab : SymbolTable) (env : Env) (e : Expr) :
    (fully kept tab).infer env e = (fully kept tab).rule env e :=
  inferFully_eq continuous_memoized tab env e

theorem fully_type_eq_ok {env : Env} {e : Expr} {t : Ty} :
    (fully kept tab).type env e st = some (.ok t, st') ↔ TypeExpr tab st.store env e t ∧ st' = st := by
  rw [type_eq_ok]
  constructor
  · intro h
    obtain ⟨rfl, ht⟩ := inferFully_findsTypes continuous_memoized tab h
    exact ⟨ht, rfl⟩
  · rintro ⟨ht, rfl⟩
    exact TypeExpr.found (fully_infer tab) ht

theorem fieldsIn_eq_ok {env : Env} {fs : List Field} {fields : List (String × Ty)} :
    (fully kept tab).fieldsIn env fs st = some (.ok fields, st') ↔
      List.Forall₂ (fun f p => p.1 = f.name.name ∧ TypeExpr tab st.store env f.type p.2) fs fields ∧ st' = st := by
  induction fs generalizing fields st' with
  | nil =>
    constructor
    · intro h
      cases h
      exact ⟨.nil, rfl⟩
    · rintro ⟨h, rfl⟩
      cases h
      rfl
  | cons f fs ih =>
    rw [fieldsIn, bind_eq_ok]
    constructor
    · rintro ⟨t, st₁, htype, hrun⟩
      obtain ⟨ht, rfl⟩ := fully_type_eq_ok.1 htype
      obtain ⟨rest, st₂, hrun₁, hret⟩ := bind_eq_ok.1 hrun
      obtain ⟨hrest, rfl⟩ := ih.1 hrun₁
      cases hret
      exact ⟨.cons ⟨rfl, ht⟩ hrest, rfl⟩
    · rintro ⟨h, rfl⟩
      cases h with
      | @cons _ p _ rest hp hrest =>
        obtain ⟨name, t⟩ := p
        obtain ⟨rfl, ht⟩ := hp
        exact ⟨t, _, fully_type_eq_ok.2 ⟨ht, rfl⟩, bind_eq_ok.2 ⟨rest, _, ih.2 ⟨hrest, rfl⟩, rfl⟩⟩

/-- The fields of an aggregate type, read at its parameters. -/
theorem fieldTypes_eq_ok {id : SymbolId} {name : String} {home : ScopeId} {kind : AggregateKind} {d : Aggregate}
    (hid : tab.symbol? id = some ⟨name, home, .aggregate kind d⟩) {params : List Ty} {span : Span}
    {fields : List (String × Ty)} :
    (fully kept tab).fieldTypes (.aggregate kind id params) span st = some (.ok fields, st') ↔
      (tab.alive home = true ∧ ∃ known, Frame.ofTypeVars d.typeVars params = .ok known ∧
        List.Forall₂ (fun f p => p.1 = f.name.name ∧ TypeExpr tab st.store ⟨known, home⟩ f.type p.2) d.fields fields) ∧
      st' = st := by
  have hview : (fully kept tab).view Ty.aggregate? (.aggregate kind id params) span st =
      some (.ok (id, params), st) := by
    refine bind_eq_ok.2 ⟨st.store, st, rfl, ?_⟩
    rw [Store.prune_compound]
    rfl
  have hmeaning : ((fully kept tab).table.symbol? id).map (Symbol.meaning id) =
      some (.aggregate ⟨id, name, home⟩ kind d) := by
    rw [show (fully kept tab).table = tab from rfl, hid]
    rfl
  rw [fieldTypes, bind_eq_ok]
  constructor
  · rintro ⟨p, st₁, hp, hrun⟩
    rw [hview] at hp
    cases hp
    dsimp only at hrun
    rw [hmeaning] at hrun
    obtain ⟨env, st₂, henv, hrun₁⟩ := bind_eq_ok.1 hrun
    obtain ⟨⟨halive, rfl⟩, rfl⟩ := home_eq_ok.1 henv
    obtain ⟨known, st₃, hlift, hrun₂⟩ := bind_eq_ok.1 hrun₁
    obtain ⟨hknown, rfl⟩ := lift_eq_ok.1 hlift
    obtain ⟨hfields, rfl⟩ := fieldsIn_eq_ok.1 hrun₂
    exact ⟨⟨halive, known, hknown, hfields⟩, rfl⟩
  · rintro ⟨⟨halive, known, hknown, hfields⟩, rfl⟩
    refine ⟨_, _, hview, ?_⟩
    dsimp only
    rw [hmeaning]
    refine bind_eq_ok.2 ⟨_, _, home_eq_ok.2 ⟨⟨halive, rfl⟩, rfl⟩, ?_⟩
    refine bind_eq_ok.2 ⟨known, _, lift_eq_ok.2 ⟨hknown, rfl⟩, ?_⟩
    exact fieldsIn_eq_ok.2 ⟨hfields, rfl⟩

end

/-! ## Arguments that fit -/

/-- at the parameters, the fields have the types of the arguments -/
structure Fits (tab : SymbolTable) (scope home : ScopeId) (d : Aggregate) (params : List Ty) (args : List Expr)
    (fields : List (String × Ty)) : Prop where
  alive : tab.alive home = true
  length : params.length = d.typeVars.length
  closed : ∀ p ∈ params, p.vars = []
  declared : ∃ known, Frame.ofTypeVars d.typeVars params = .ok known ∧ ∀ s : Store, s.Acyclic →
    List.Forall₂ (fun f p => p.1 = f.name.name ∧ TypeExpr tab s ⟨known, home⟩ f.type p.2) d.fields fields
  given : List.Forall₂ (fun arg p => tab.Yields scope arg (.value p.2)) args fields

/-- The first field of a name is looked up with the argument at its position. -/
theorem lookup_field {R : Field → String × Ty → Prop} {Q : Expr → String × Ty → Prop} {fs : List Field}
    {args : List Expr} {fields : List (String × Ty)}
    (hfs : List.Forall₂ (fun f p => p.1 = f.name.name ∧ R f p) fs fields) (hargs : List.Forall₂ Q args fields)
    {field : String} {i : Nat} (hi : fs.findIdx? (·.name.name == field) = some i) :
    ∃ arg u, args[i]? = some arg ∧ fields.lookup field = some u ∧ Q arg (field, u) := by
  induction hfs generalizing args i with
  | nil => cases hi
  | @cons f p fs fields hp _ ih =>
    cases hargs with
    | @cons arg _ args _ hq hargs =>
      obtain ⟨pname, u⟩ := p
      obtain ⟨rfl, _⟩ := hp
      rw [List.findIdx?_cons] at hi
      rw [List.lookup_cons]
      cases hname : f.name.name == field with
      | true =>
        rw [hname] at hi
        cases hi
        obtain rfl := eq_of_beq hname
        exact ⟨arg, u, rfl, by rw [beq_self_eq_true], hq⟩
      | false =>
        rw [hname] at hi
        obtain ⟨i', hi', rfl⟩ := Option.map_eq_some_iff.1 hi
        have hne : (field == f.name.name) = false := by
          rw [beq_eq_false_iff_ne] at hname ⊢
          exact hname.symm
        rw [hne]
        exact ih hargs hi'

section

variable {tab : SymbolTable} {items : List Item} (hset : tab.Settled items) {scope : ScopeId} {st st' : State}

include hset

theorem State.AtRest.fully_infer (hst : st.AtRest tab) {e : Expr} {r : Except Error Denotation}
    (hrun : (fully kept tab).infer { scope } e st = some (r, st')) : st'.AtRest tab := by
  obtain ⟨n, hn⟩ := (inferFully_reached continuous_memoized tab).1 hrun
  rw [inferBy_memoized] at hn
  exact hst.infer hset hn

/-- Where the comparison succeeds, each argument has the type of its field. -/
theorem compareFields_sound {fields : List (String × Ty)} {args : List Expr} (hlen : fields.length = args.length)
    (hclosed : ∀ p ∈ fields, p.2.vars = []) (hst : st.AtRest tab)
    (hrun : (fully kept tab).compareFields { scope } fields args st = some (.ok (), st')) :
    List.Forall₂ (fun arg p => tab.Yields scope arg (.value p.2)) args fields := by
  induction fields generalizing args st with
  | nil =>
    obtain rfl := List.length_eq_zero_iff.1 hlen.symm
    exact .nil
  | cons p fields ih =>
    cases args with
    | nil => cases hlen
    | cons arg args =>
      obtain ⟨name, t⟩ := p
      obtain ⟨u, st₁, hvalue, hrun₁⟩ := bind_eq_ok.1 hrun
      obtain ⟨_, st₂, hsame, hrun₂⟩ := bind_eq_ok.1 hrun₁
      rw [value_eq_ok] at hvalue
      have hyields := SymbolTable.Yields.of_run hset hst hvalue
      obtain ⟨hequal, rfl⟩ := same_eq_ok.1 hsame
      have ht : t.vars = [] := hclosed (name, t) (by simp)
      have hu : u.vars = [] := hyields.vars_eq_nil hset
      rw [Store.equal_closed _ ht hu] at hequal
      obtain rfl := of_decide_eq_true hequal
      refine .cons hyields (ih (Nat.succ.inj hlen) (fun p hmem => hclosed p (by simp [hmem])) ?_ hrun₂)
      exact hst.fully_infer hset hvalue

/-- Where each argument has the type of its field, the comparison succeeds. -/
theorem compareFields_complete {fields : List (String × Ty)} {args : List Expr}
    (h : List.Forall₂ (fun arg p => tab.Yields scope arg (.value p.2)) args fields) (hst : st.AtRest tab) :
    ∃ st', (fully kept tab).compareFields { scope } fields args st = some (.ok (), st') := by
  induction h generalizing st with
  | nil => exact ⟨st, rfl⟩
  | @cons arg p args fields hp _ ih =>
    obtain ⟨name, t⟩ := p
    obtain ⟨st₁, hrun, _, hst₁⟩ := hp st hst
    obtain ⟨st₂, hrun₂⟩ := ih hst₁
    have ht : t.vars = [] := hp.vars_eq_nil hset
    have hequal : st₁.store.equal t t = true := by
      rw [Store.equal_closed _ ht ht]
      exact decide_eq_true rfl
    refine ⟨st₂, bind_eq_ok.2 ⟨t, st₁, value_eq_ok.2 hrun, ?_⟩⟩
    exact bind_eq_ok.2 ⟨(), st₁, same_eq_ok.2 ⟨hequal, rfl⟩, hrun₂⟩

section

variable {id : SymbolId} {name : String} {home : ScopeId} {kind : AggregateKind} {d : Aggregate}
  (hid : tab.symbol? id = some ⟨name, home, .aggregate kind d⟩) {params : List Ty} {args : List Expr}
  {fields : List (String × Ty)}

include hid

/-- A call on an aggregate type or value succeeds if the arguments fit. -/
theorem Fits.callType (h : Fits tab scope home d params args fields) {callee : Expr} {dn : Denotation}
    (hdn : dn.ty = .aggregate kind id params) (hcallee : tab.Yields scope callee dn) (hst : st.AtRest tab)
    (span : Span) : ∃ st', (fully kept tab).callType span { scope } callee args st =
      some (.ok (.value (.aggregate kind id params)), st') := by
  obtain ⟨st₁, hrun, _, hst₁⟩ := hcallee st hst
  obtain ⟨known, hknown, hfields⟩ := h.declared
  have hlen : args.length = fields.length := h.given.length_eq
  obtain ⟨st₂, hcompare⟩ := compareFields_complete hset h.given hst₁
  refine ⟨st₂, bind_eq_ok.2 ⟨dn, st₁, hrun, bind_eq_ok.2 ⟨st₁.store, st₁, rfl, ?_⟩⟩⟩
  rw [hdn, Store.prune_compound]
  refine bind_eq_ok.2 ⟨fields, st₁, ?_, ?_⟩
  · exact (fieldTypes_eq_ok hid).2 ⟨⟨h.alive, known, hknown, hfields _ hst₁.store.acyclic⟩, rfl⟩
  · refine bind_eq_ok.2 ⟨(), st₁, arity_eq_ok.2 ⟨hlen, rfl⟩, ?_⟩
    exact bind_eq_ok.2 ⟨(), st₂, hcompare, rfl⟩

/-- If a call on an aggregate type or value succeeds, its arguments fit. -/
theorem callType_fits (hlen : params.length = d.typeVars.length) (hclosed : ∀ p ∈ params, p.vars = []) {callee : Expr}
    {dn : Denotation} (hdn : dn.ty = .aggregate kind id params) (hst : st.AtRest tab) {st₁ : State}
    (hcallee : (fully kept tab).infer { scope } callee st = some (.ok dn, st₁)) {span : Span} {t : Ty}
    (hrun : (fully kept tab).callType span { scope } callee args st = some (.ok (.value t), st')) :
    t = .aggregate kind id params ∧ ∃ fields, Fits tab scope home d params args fields := by
  obtain ⟨dn', st₁', hcallee', hrun₁⟩ := bind_eq_ok.1 hrun
  rw [hcallee] at hcallee'
  cases hcallee'
  have hst₁ := hst.fully_infer hset hcallee
  obtain ⟨s, st₂, hs, hrun₂⟩ := bind_eq_ok.1 hrun₁
  cases hs
  rw [hdn, Store.prune_compound] at hrun₂
  obtain ⟨fields, st₃, hfields, hrun₃⟩ := bind_eq_ok.1 hrun₂
  obtain ⟨⟨halive, known, hknown, hfields'⟩, rfl⟩ := (fieldTypes_eq_ok hid).1 hfields
  obtain ⟨_, st₄, harity, hrun₄⟩ := bind_eq_ok.1 hrun₃
  obtain ⟨hlen', rfl⟩ := arity_eq_ok.1 harity
  obtain ⟨_, st₅, hcompare, hret⟩ := bind_eq_ok.1 hrun₄
  cases hret
  have hs := hst₁.store.acyclic
  have hclosed' : ∀ p ∈ fields, p.2.vars = [] := by
    have hall := hfields'.flip.imp fun p f hf => And.intro (hf.2.vars_eq_nil hset hknown hclosed hs) hf
    exact ((List.forall₂_and_left fields d.fields).1 hall).1
  refine ⟨rfl, fields, halive, hlen, hclosed, ⟨known, hknown, fun s' hs' => ?_⟩,
    compareFields_sound hset hlen'.symm hclosed' hst₁ hcompare⟩
  exact hfields'.imp fun f p hf => ⟨hf.1, hf.2.of_closed hset hknown hclosed hs hs'⟩

omit hset in
/-- A field of a value whose parameters fit the arguments has the type of the argument at its position. -/
theorem Fits.field (h : Fits tab scope home d params args fields) {base : Expr}
    (hbase : tab.Yields scope base (.value (.aggregate kind id params))) (hst : st.AtRest tab) {field : Ident} {i : Nat}
    (hi : d.fields.findIdx? (·.name.name == field.name) = some i) :
    ∃ arg u, args[i]? = some arg ∧ tab.Yields scope arg (.value u) ∧
      ∃ st', (fully kept tab).field { scope } base field st = some (.ok (.value u), st') := by
  obtain ⟨st₁, hrun, _, hst₁⟩ := hbase st hst
  obtain ⟨known, hknown, hfields⟩ := h.declared
  have hfields₁ := hfields _ hst₁.store.acyclic
  obtain ⟨arg, u, harg, hlookup, hyields⟩ := lookup_field hfields₁ h.given hi
  refine ⟨arg, u, harg, hyields, st₁, bind_eq_ok.2 ⟨_, st₁, value_eq_ok.2 hrun, ?_⟩⟩
  refine bind_eq_ok.2 ⟨fields, st₁, (fieldTypes_eq_ok hid).2 ⟨⟨h.alive, known, hknown, hfields₁⟩, rfl⟩, ?_⟩
  rw [hlookup]
  rfl

end

end

/-! ## Finding parameters -/

theorem State.AtRest.withStore {tab : SymbolTable} {st : State} (h : st.AtRest tab) {s : Store} (hs : s.WellFormed)
    (hsize : st.store.size ≤ s.size) : State.AtRest tab { st with store := s } :=
  ⟨hs, h.sane.later hsize, h.idle⟩

/-- a type expression was read at the variables, and what it denoted has become the type in a later store -/
def Solved (tab : SymbolTable) (k : Nat) (names : List Ident) (vars : Frame) (home : ScopeId) (s' : Store) (e : Expr)
    (a : Ty) : Prop :=
  ∃ s t, s.Acyclic ∧ Opened s k names vars ∧ s.Retains s' ∧ TypeExpr tab s ⟨vars, home⟩ e t ∧
    t.subst? s'.binding? = some a

section

variable {tab : SymbolTable} {items : List Item} (hset : tab.Settled items) {scope home : ScopeId} {st st' : State}
  {k : Nat} {names : List Ident} {vars : Frame}

include hset

/-- Where all field types have been unified with arguments, each has become the type of its argument. -/
theorem unifyFields_sound {fs : List Field} {args : List Expr} (hlen : fs.length = args.length) (hst : st.AtRest tab)
    (hopened : Opened st.store k names vars)
    (hrun : (fully kept tab).unifyFields ⟨vars, home⟩ { scope } fs args st = some (.ok (), st')) :
    st'.AtRest tab ∧ Opened st'.store k names vars ∧ st.store.Retains st'.store ∧
      ∃ fields : List (String × Ty), List.Forall₂ (fun arg p => tab.Yields scope arg (.value p.2)) args fields ∧
        List.Forall₂ (fun f p => p.1 = f.name.name ∧ Solved tab k names vars home st'.store f.type p.2) fs fields := by
  induction fs generalizing args st with
  | nil =>
    obtain rfl := List.length_eq_zero_iff.1 hlen.symm
    cases hrun
    exact ⟨hst, hopened, fun _ _ h => h, [], .nil, .nil⟩
  | cons f fs ih =>
    cases args with
    | nil => cases hlen
    | cons arg args =>
      obtain ⟨t, st₁, htype, hrun₁⟩ := bind_eq_ok.1 hrun
      obtain ⟨ht, rfl⟩ := fully_type_eq_ok.1 htype
      obtain ⟨u, st₂, hvalue, hrun₂⟩ := bind_eq_ok.1 hrun₁
      rw [value_eq_ok] at hvalue
      have hyields := SymbolTable.Yields.of_run hset hst hvalue
      obtain ⟨st₂', hvalue', hext, hst₂⟩ := hyields st₁ hst
      rw [hvalue] at hvalue'
      cases hvalue'
      obtain ⟨_, st₃, hunified, hrun₃⟩ := bind_eq_ok.1 hrun₂
      obtain ⟨s, hunify, rfl⟩ := unified_eq_ok.1 hunified
      have hplain : ∀ v ∈ t.vars, st₂.store.Plain v := by
        intro v hv
        obtain ⟨j, n, hn, rfl, _⟩ := (hopened.mem_vars hset hst.store.acyclic ht).1 hv
        exact hext.plain (hopened.plain j (List.getElem?_eq_some_iff.1 hn).1)
      obtain ⟨hfills, hsubst⟩ := Store.unify_sound hst₂.store hplain (hyields.vars_eq_nil hset) hunify
      have hopened' : Opened s k names vars := hopened.mono fun v hv => hfills.plain (hext.plain hv)
      obtain ⟨hst', hopened'', hretains, fields, hargs, hfs⟩ := ih (Nat.succ.inj hlen)
        (hst₂.withStore hfills.wellFormed (Nat.le_of_eq hfills.size.symm)) hopened' hrun₃
      have hretains' : st₁.store.Retains st'.store := (hext.retains.trans hfills.kept).trans hretains
      refine ⟨hst', hopened'', hretains', (f.name.name, u) :: fields, .cons hyields hargs, .cons ⟨rfl, ?_⟩ hfs⟩
      exact ⟨st₁.store, t, hst.store.acyclic, hopened, hretains', ht, hretains.subst? hsubst⟩

/-- What a solved type expression has become is what it denotes at the parameters that were found. -/
theorem Solved.at_params {params : List Ty} {known : Frame} (hlen : params.length = names.length)
    (hknown : Frame.ofTypeVars names params = .ok known) (hclosed : ∀ p ∈ params, p.vars = []) {s' : Store}
    (hparams : ∀ j p, params[j]? = some p → s'.binding? (k + j) = some p) {e : Expr} {a : Ty}
    (h : Solved tab k names vars home s' e a) {s'' : Store} (hs'' : s''.Acyclic) :
    TypeExpr tab s'' ⟨known, home⟩ e a := by
  obtain ⟨s, t, hs, hopened, hretains, ht, hsubst⟩ := h
  have hbound : ∀ j < names.length, s'.binding? (k + j) = some (paramAt k params (k + j)) := by
    intro j hj
    have hp := List.getElem?_eq_getElem (hlen ▸ hj)
    rw [paramAt_add hp]
    exact hparams j _ hp
  have hslots : Slots s k names params vars known := by
    refine ⟨hlen, hopened.frame, hknown, fun j hj => ⟨(hopened.plain j hj).1, ?_, fun p hp => ?_⟩⟩
    · exact paramAt_closed hclosed (hlen ▸ hj)
    · have hp' := hretains _ _ hp
      rw [hbound j hj] at hp'
      exact (Option.some.inj hp').symm
  obtain ⟨_, rfl⟩ := Ty.eq_subst_of_subst? hsubst
  have heq : t.subst (fun v => (s'.binding? v).getD (.var v)) = t.subst (paramAt k params) := by
    refine Ty.subst_congr fun v hv => ?_
    obtain ⟨j, n, hn, rfl, _⟩ := (hopened.mem_vars hset hs ht).1 hv
    rw [hbound j (List.getElem?_eq_some_iff.1 hn).1, Option.getD_some]
  rw [heq]
  exact ht.at_params hset hs hs'' hslots

omit hset in
/-- The parameters that are found are closed, and the variables are bound to them. -/
theorem Opened.solution (hs : st.store.Acyclic) (h : Opened st.store k names vars) {span : Span} {params : List Ty}
    (hrun : Infer.solution span names (varsFrom k names.length) st = some (.ok params, st')) :
    params.length = names.length ∧ ∀ j p, params[j]? = some p → p.vars = [] ∧ st.store.binding? (k + j) = some p := by
  obtain ⟨hparams, _⟩ := solution_sound (length_varsFrom k names.length).symm hrun
  have hlen : params.length = names.length := by rw [← hparams.length_eq, length_varsFrom]
  refine ⟨hlen, fun j p hp => ?_⟩
  have hj : j < names.length := hlen ▸ (List.getElem?_eq_some_iff.1 hp).1
  have hvar : (varsFrom k names.length)[j]? = some (.var (k + j)) := getElem?_varsFrom.2 ⟨hj, rfl⟩
  have hderef := List.forall₂_zip hparams (List.mem_iff_getElem?.2 ⟨j, List.getElem?_zip_eq_some.2 ⟨hvar, hp⟩⟩)
  rw [Store.deref?_var hs] at hderef
  obtain ⟨q, hq, hderef'⟩ := Option.bind_eq_some_iff.1 hderef
  have hclosed := (h.plain j hj).2 q hq
  rw [Store.deref?_closed hs hclosed] at hderef'
  cases hderef'
  exact ⟨hclosed, hq⟩

/-- If a call on the name of an aggregate comes to a value, its arguments fit at the parameters that were found. -/
theorem construct_fits {origin : Origin} {kind : AggregateKind} {d : Aggregate} {span : Span} {args : List Expr}
    (hst : st.AtRest tab) {t : Ty}
    (hrun : (fully kept tab).construct origin kind d span { scope } args st = some (.ok (.value t), st')) :
    ∃ params fields, t = .aggregate kind origin.id params ∧ Fits tab scope origin.home d params args fields := by
  obtain ⟨_, st₁, harity, hrun₁⟩ := bind_eq_ok.1 hrun
  obtain ⟨hargs, rfl⟩ := arity_eq_ok.1 harity
  obtain ⟨env, st₂, hhome, hrun₂⟩ := bind_eq_ok.1 hrun₁
  obtain ⟨⟨halive, rfl⟩, rfl⟩ := home_eq_ok.1 hhome
  obtain ⟨s, hfresh, hs, hsize, hbinding⟩ := freshVars_eq d.typeVars hst.store
  rw [bind_apply, hfresh] at hrun₂
  obtain ⟨vars, st₃, hlift, hrun₃⟩ := bind_eq_ok.1 hrun₂
  obtain ⟨hvars, rfl⟩ := lift_eq_ok.1 hlift
  obtain ⟨_, st₄, hunify, hrun₄⟩ := bind_eq_ok.1 hrun₃
  obtain ⟨params, st₅, hsolution, hret⟩ := bind_eq_ok.1 hrun₄
  cases hret
  -- the new variables are unbound
  have hopened : Opened s st₂.store.size d.typeVars vars := by
    refine ⟨hvars, fun j hj => ⟨hsize ▸ Nat.add_lt_add_left hj _, fun p hp => ?_⟩⟩
    rw [hbinding, Store.binding?_of_size_le (Nat.le_add_right _ j)] at hp
    cases hp
  obtain ⟨hst₄, hopened₄, _, fields, hgiven, hsolved⟩ := unifyFields_sound hset hargs.symm
    (hst.withStore hs (by omega)) hopened hunify
  obtain ⟨hlen, hbound⟩ := hopened₄.solution hst₄.store.acyclic hsolution
  have hclosed : ∀ p ∈ params, p.vars = [] := by
    intro p hmem
    obtain ⟨j, hj⟩ := List.mem_iff_getElem?.1 hmem
    exact (hbound j p hj).1
  have hsame : (varsFrom st₂.store.size d.typeVars.length).length = params.length := by rw [length_varsFrom, hlen]
  obtain ⟨known, hknown⟩ := Frame.ofTypeVars_of_length hsame hvars
  refine ⟨params, fields, rfl, halive, hlen, hclosed, ⟨known, hknown, fun s'' hs'' => ?_⟩, hgiven⟩
  exact hsolved.imp fun f p hf =>
    ⟨hf.1, hf.2.at_params hset hlen hknown hclosed (fun j p hp => (hbound j p hp).2) hs''⟩

end

/-! ## Finding parameters again -/

/-- Where the arguments have the types of the fields at the parameters, all field types unify with them, and the
variables that are mentioned are bound to their parameters. -/
theorem unifyFields_complete {tab : SymbolTable} {items : List Item} (hset : tab.Settled items) {scope home : ScopeId}
    {st : State} {names : List Ident} {params : List Ty} {vars known : Frame} {fs : List Field} {args : List Expr}
    {fields : List (String × Ty)}
    (hfs : ∀ s : Store, s.Acyclic →
      List.Forall₂ (fun f p => p.1 = f.name.name ∧ TypeExpr tab s ⟨known, home⟩ f.type p.2) fs fields)
    (hargs : List.Forall₂ (fun arg p => tab.Yields scope arg (.value p.2)) args fields) (hst : st.AtRest tab)
    {s₀ : Store} {done : List String} (hfilling : Filling s₀ names params vars known done st.store) :
    ∃ st', (fully kept tab).unifyFields ⟨vars, home⟩ { scope } fs args st = some (.ok (), st') ∧ st'.AtRest tab ∧
      Filling s₀ names params vars known (done ++ fs.flatMap (·.type.names)) st'.store := by
  induction hargs generalizing fs st done with
  | nil =>
    cases hfs st.store hst.store.acyclic
    refine ⟨st, rfl, hst, ?_⟩
    rwa [List.flatMap_nil, List.append_nil]
  | @cons arg p args fields hp _ ih =>
    have hs := hst.store.acyclic
    cases hfs st.store hs with
    | @cons f _ fs _ hf _ =>
      obtain ⟨st₁, hvalue, hext, hst₁⟩ := hp st hst
      obtain ⟨t, s₂, ht, hunify, hsize, hfilling₂⟩ := hfilling.unify hset hext hst₁.store hs hf.2
      obtain ⟨st₃, hrest, hst₃, hfilling₃⟩ := ih
        (fun s' hs' => by
          cases hfs s' hs' with
          | cons _ h => exact h)
        (hst₁.withStore hfilling₂.wellFormed hsize) hfilling₂
      refine ⟨st₃, ?_, hst₃, by rwa [List.flatMap_cons, ← List.append_assoc]⟩
      refine bind_eq_ok.2 ⟨t, st, fully_type_eq_ok.2 ⟨ht, rfl⟩, ?_⟩
      refine bind_eq_ok.2 ⟨p.2, st₁, value_eq_ok.2 hvalue, ?_⟩
      exact bind_eq_ok.2 ⟨(), _, unified_eq_ok.2 ⟨s₂, hunify, rfl⟩, hrest⟩

/-- does the name occur in the type expression of some field -/
def Aggregate.mentions (d : Aggregate) (name : String) : Bool :=
  d.fields.any fun f => f.type.names.contains name

theorem Aggregate.mentions_eq (d : Aggregate) (name : String) :
    d.mentions name = decide (name ∈ d.fields.flatMap (·.type.names)) := by
  rw [Bool.eq_iff_iff, decide_eq_true_iff, mentions, List.any_eq_true, List.mem_flatMap]
  exact exists_congr fun f => and_congr_right fun _ => List.contains_iff_mem

/-- what a call on the name of an aggregate comes to if its arguments fit at the parameters: the first type variable that
no field mentions stays open -/
def Aggregate.constructed (d : Aggregate) (kind : AggregateKind) (id : SymbolId) (params : List Ty) (span : Span) :
    Except Error Denotation :=
  match d.typeVars.find? fun v => !d.mentions v.name with
  | none => .ok (.value (.aggregate kind id params))
  | some v => .error ⟨.unresolvedTypeVariable v.name, span⟩

/-- A call on the name of an aggregate whose arguments fit finds the parameters that the fields mention. -/
theorem Fits.construct {tab : SymbolTable} {items : List Item} (hset : tab.Settled items) {scope : ScopeId} {st : State}
    (hst : st.AtRest tab) {origin : Origin} {kind : AggregateKind} {d : Aggregate} {params : List Ty} {args : List Expr}
    {fields : List (String × Ty)} (h : Fits tab scope origin.home d params args fields) (span : Span) :
    ∃ st', (fully kept tab).construct origin kind d span { scope } args st =
      some (d.constructed kind origin.id params span, st') := by
  obtain ⟨known, hknown, hfields⟩ := h.declared
  have hargs : args.length = d.fields.length := by rw [h.given.length_eq, (hfields _ hst.store.acyclic).length_eq]
  obtain ⟨s, hfresh, hs, hsize, hfill⟩ := freshVars_filling d.typeVars st hst.store
  obtain ⟨vars, hvars, hfilling⟩ := hfill h.length h.closed hknown
  obtain ⟨st₁, hunify, hst₁, hfilling₁⟩ := unifyFields_complete hset hfields h.given (hst.withStore hs hsize) hfilling
  refine ⟨st₁, ?_⟩
  rw [Context.construct, bind_of_ok (arity_eq_ok.2 ⟨hargs, rfl⟩), bind_of_ok (home_eq_ok.2 ⟨⟨h.alive, rfl⟩, rfl⟩),
    bind_of_ok hfresh, bind_of_ok (lift_eq_ok.2 ⟨hvars, rfl⟩), bind_of_ok hunify, bind_apply,
    hfilling₁.filled.solution hst₁.store.acyclic h.length h.closed (fun v => d.mentions v.name)
      (fun v => d.mentions_eq v.name)]
  unfold Aggregate.constructed
  cases d.typeVars.find? fun v => !d.mentions v.name <;> rfl

/-! ## Calls by their form -/

section

variable {tab : SymbolTable} {env : Env} {st : State}

theorem infer_call_name {ident : Ident} {origin : Origin} {kind : AggregateKind} {d : Aggregate}
    (h : env.meaning? tab ident.name = some (.aggregate origin kind d)) (span place : Span) (args : List Expr) :
    (fully kept tab).infer env (.call span (.name place ident) args) st =
      (fully kept tab).construct origin kind d span env args st := by
  have hmeaning : (fully kept tab).meaning env ident st = some (.ok (.aggregate origin kind d), st) :=
    meaning_eq_ok.2 ⟨h, rfl⟩
  rw [fully_infer, rule, call, Expr.bareName?]
  exact bind_of_ok hmeaning

theorem infer_call {callee : Expr} (h : callee.bareName? = none) (span : Span) (args : List Expr) :
    (fully kept tab).infer env (.call span callee args) = (fully kept tab).callType span env callee args := by
  rw [fully_infer, rule, call, h]

theorem infer_field (span : Span) (base : Expr) (field : Ident) :
    (fully kept tab).infer env (.field span base field) = (fully kept tab).field env base field := by
  rw [fully_infer, rule]

/-- An aggregate applied to expressions that denote types denotes the aggregate at these types. -/
theorem infer_applied {ident : Ident} {origin : Origin} {kind : AggregateKind} {d : Aggregate}
    (h : env.meaning? tab ident.name = some (.aggregate origin kind d)) {gs : List Expr} {params : List Ty}
    (hgs : List.Forall₂ (fun g p => (fully kept tab).infer env g st = some (.ok (.type p), st)) gs params)
    {span place : Span} {dn : Denotation} {st' : State}
    (hrun : (fully kept tab).infer env (.index span (.name place ident) gs) st = some (.ok dn, st')) :
    params.length = d.typeVars.length ∧ dn = .type (.aggregate kind origin.id params) := by
  have hmeaning : (fully kept tab).meaning env ident st = some (.ok (.aggregate origin kind d), st) :=
    meaning_eq_ok.2 ⟨h, rfl⟩
  rw [fully_infer, rule, index, Expr.bareName?] at hrun
  dsimp only at hrun
  rw [bind_of_ok hmeaning] at hrun
  obtain ⟨ps, st₂, htypes, hrun₂⟩ := bind_eq_ok.1 hrun
  rw [types_of_infer hgs] at htypes
  cases htypes
  obtain ⟨t, st₃, hinst, hret⟩ := bind_eq_ok.1 hrun₂
  obtain ⟨⟨hlen, rfl⟩, rfl⟩ := instantiate_eq_ok.1 hinst
  cases hret
  exact ⟨hlen, rfl⟩

end

/-! ## Agreement -/

namespace Module

/-- the inference of an expression in the scope of the module comes to an end with the outcome -/
def Infers (m : Module) (st : State) (e : Expr) (r : Except Error Denotation) : Prop :=
  ∃ depth st', inferWithin depth m.table m.env e st = some (r, st')

theorem infers_iff {m : Module} {st : State} {e : Expr} {r : Except Error Denotation} :
    m.Infers st e r ↔ ∃ st', (fully kept m.table).infer m.env e st = some (r, st') := by
  constructor
  · rintro ⟨depth, st', h⟩
    rw [← inferBy_memoized] at h
    exact ⟨st', (inferFully_reached continuous_memoized m.table).2 ⟨depth, h⟩⟩
  · rintro ⟨st', h⟩
    obtain ⟨depth, hdepth⟩ := (inferFully_reached continuous_memoized m.table).1 h
    rw [inferBy_memoized] at hdepth
    exact ⟨depth, st', hdepth⟩

theorem Infers.yields {items : List Item} {m : Module} (hm : Module.ofItems items = .ok m) {st : State}
    (hst : m.Reached st) {e : Expr} {d : Denotation} (h : m.Infers st e (.ok d)) : m.table.Yields m.scope e d := by
  obtain ⟨st', hrun⟩ := infers_iff.1 h
  exact .of_run (Module.settled hm) (hst.atRest hm) hrun

theorem infers_types {m : Module} {st : State} {gs : List Expr} {params : List Ty}
    (h : List.Forall₂ (fun g p => m.Infers st g (.ok (.type p))) gs params) :
    List.Forall₂ (fun g p => (fully kept m.table).infer m.env g st = some (.ok (.type p), st)) gs params := by
  refine h.imp fun g p hp => ?_
  obtain ⟨st', hrun⟩ := infers_iff.1 hp
  rw [(inferFully_findsTypes continuous_memoized m.table hrun).1] at hrun
  exact hrun

end Module

/-- the expression is the bare name of the aggregate -/
def Aggregate.NamedBy (d : Aggregate) (R : Expr) : Prop :=
  ∃ place ident, R = .name place ident ∧ ident.name = d.name.name

/-- **Ways to fill an aggregate agree.** Let `R` be the name of an aggregate that the program declares.
- If `R(args)` is a value of a type, so is `R(args)(args)`, and the first field of a name has in `R(args)` the type of
  the argument at its position.
- If `gs` denote types and `R[gs](args)` is a value, its type is the aggregate at these types, and so is that of
  `R(args)` if all type variables occur in fields. Otherwise `R(args)` fails to find the first one that does not. -/
theorem construction_agrees {items : List Item} {m : Module} (hm : Module.ofItems items = .ok m) {kind : AggregateKind}
    {d : Aggregate} (hd : .aggregate kind d ∈ items) {st : State} (hst : m.Reached st) {R : Expr} (hR : d.NamedBy R) :
    ∃ id, m.table.lookup m.scope d.name.name = some id ∧
      m.table.symbol? id = some ⟨d.name.name, m.scope, .aggregate kind d⟩ ∧
      ∀ (span span' span'' : Span) (args : List Expr),
        (∀ t, m.Infers st (.call span R args) (.ok (.value t)) →
          m.Infers st (.call span' (.call span R args) args) (.ok (.value t)) ∧
          ∀ (field : Ident) (i : Nat), d.fields.findIdx? (·.name.name == field.name) = some i →
            ∃ arg u, args[i]? = some arg ∧ m.Infers st arg (.ok (.value u)) ∧
              m.Infers st (.field span' (.call span R args) field) (.ok (.value u))) ∧
        ∀ gs params t, List.Forall₂ (fun g p => m.Infers st g (.ok (.type p))) gs params →
          m.Infers st (.call span' (.index span'' R gs) args) (.ok (.value t)) →
          t = .aggregate kind id params ∧
          ((∀ v ∈ d.typeVars, d.mentions v.name = true) → m.Infers st (.call span R args) (.ok (.value t))) ∧
          ∀ v, d.typeVars.find? (fun v => !d.mentions v.name) = some v →
            m.Infers st (.call span R args) (.error ⟨.unresolvedTypeVariable v.name, span⟩) := by
  have hset := Module.settled hm
  have hrest := hst.atRest hm
  obtain ⟨id, hlookup, hid⟩ := Module.aggregate_bound hm hd
  obtain ⟨place, ident, rfl, hident⟩ := hR
  have hmeaning : m.env.meaning? m.table ident.name = some (.aggregate ⟨id, d.name.name, m.scope⟩ kind d) := by
    rw [hident, Env.meaning?]
    simp [Module.env, hlookup, hid, Symbol.meaning]
  refine ⟨id, hlookup, hid, fun span span' span'' args => ⟨fun t ht => ?_, fun gs params t hgs ht => ?_⟩⟩
  · have hyields := ht.yields hm hst
    obtain ⟨st₁, hrun⟩ := Module.infers_iff.1 ht
    rw [infer_call_name hmeaning] at hrun
    obtain ⟨params, fields, rfl, hfits⟩ := construct_fits hset hrest hrun
    constructor
    · rw [Module.infers_iff, infer_call rfl]
      exact hfits.callType hset hid rfl hyields hrest span'
    · intro field i hi
      obtain ⟨arg, u, harg, hu, hfield⟩ := hfits.field hid hyields hrest hi
      obtain ⟨st₂, hu', _⟩ := hu st hrest
      refine ⟨arg, u, harg, Module.infers_iff.2 ⟨st₂, hu'⟩, ?_⟩
      rw [Module.infers_iff, infer_field]
      exact hfield
  · obtain ⟨st₁, hrun⟩ := Module.infers_iff.1 ht
    rw [infer_call rfl] at hrun
    obtain ⟨dn, st₂, hcallee, _⟩ := bind_eq_ok.1 hrun
    obtain ⟨hlen, rfl⟩ := infer_applied hmeaning (Module.infers_types hgs) hcallee
    have hclosed : ∀ p ∈ params, p.vars = [] := by
      have hall := hgs.flip.imp fun p g hp => And.intro ((Module.Infers.yields hm hst hp).vars_eq_nil hset) hp
      exact ((List.forall₂_and_left params gs).1 hall).1
    obtain ⟨rfl, fields, hfits⟩ := callType_fits hset hid hlen hclosed rfl hrest hcallee hrun
    have hconstruct : m.Infers st (.call span (.name place ident) args) (d.constructed kind id params span) := by
      rw [Module.infers_iff, infer_call_name hmeaning]
      exact hfits.construct hset hrest span
    refine ⟨rfl, fun hall => ?_, fun v hv => ?_⟩
    · have hnone : d.typeVars.find? (fun v => !d.mentions v.name) = none :=
        List.find?_eq_none.2 fun v hmem => by simp [hall v hmem]
      rwa [Aggregate.constructed, hnone] at hconstruct
    · rwa [Aggregate.constructed, hv] at hconstruct

/-- `Box(1)` agrees with `Box(1)(1)` and with `Box(1).item`, and `Tag(1)` fails where `Tag[Int, Bool](1)` is a value. -/
theorem box_construction_agrees :
    boxModule.Infers boxState (.call {} (.bare "Box") [.int {} 1]) (.ok (.value (.aggregate .record 30 [.int]))) ∧
    boxModule.Infers boxState (.call {} (.call {} (.bare "Box") [.int {} 1]) [.int {} 1])
      (.ok (.value (.aggregate .record 30 [.int]))) ∧
    (∃ u, boxModule.Infers boxState (.int {} 1) (.ok (.value u)) ∧
      boxModule.Infers boxState (.field {} (.call {} (.bare "Box") [.int {} 1]) { name := "item" }) (.ok (.value u))) ∧
    boxModule.Infers boxState (.call {} (.index {} (.bare "Tag") [.bare "Int", .bare "Bool"]) [.int {} 1])
      (.ok (.value (.aggregate .struct 34 [.int, .bool]))) ∧
    boxModule.Infers boxState (.call {} (.bare "Tag") [.int {} 1]) (.error ⟨.unresolvedTypeVariable "U", {}⟩) := by
  have hinfers : ∀ {e r}, (inferWithin 8 boxModule.table boxModule.env e boxState).map (·.1) = some r →
      boxModule.Infers boxState e r := by
    intro e r h
    obtain ⟨⟨r, st'⟩, hrun, rfl⟩ := Option.map_eq_some_iff.1 h
    exact ⟨8, st', hrun⟩
  obtain ⟨_, _, _, hbox⟩ := construction_agrees ofItems_boxProgram (d := ⟨{ name := "Box" }, [{ name := "T" }],
    [⟨{ name := "item" }, .bare "T"⟩]⟩) (.head _) reached_boxState (R := .bare "Box") ⟨_, _, rfl, rfl⟩
  obtain ⟨_, _, _, htag⟩ := construction_agrees ofItems_boxProgram (d := ⟨{ name := "Tag" }, [{ name := "T" },
    { name := "U" }], [⟨{ name := "tag" }, .bare "T"⟩]⟩) (.tail _ (.tail _ (.tail _ (.tail _ (.head _)))))
    reached_boxState (R := .bare "Tag") ⟨_, _, rfl, rfl⟩
  have hone : boxModule.Infers boxState (.call {} (.bare "Box") [.int {} 1])
      (.ok (.value (.aggregate .record 30 [.int]))) := hinfers (by decide +kernel)
  have happlied : boxModule.Infers boxState (.call {} (.index {} (.bare "Tag") [.bare "Int", .bare "Bool"]) [.int {} 1])
      (.ok (.value (.aggregate .struct 34 [.int, .bool]))) := hinfers (by decide +kernel)
  obtain ⟨hcall, hfield⟩ := (hbox {} {} {} [.int {} 1]).1 _ hone
  obtain ⟨arg, u, harg, hu, hitem⟩ := hfield { name := "item" } 0 rfl
  cases harg
  have hparams : List.Forall₂ (fun g p => boxModule.Infers boxState g (.ok (.type p))) [.bare "Int", .bare "Bool"]
      [.int, .bool] := .cons (hinfers (by decide +kernel)) (.cons (hinfers (by decide +kernel)) .nil)
  obtain ⟨_, _, hfails⟩ := (htag {} {} {} [.int {} 1]).2 _ _ _ hparams happlied
  exact ⟨hone, hcall, ⟨u, hu, hitem⟩, happlied, hfails { name := "U" } rfl⟩

end DualInference
