/-
Type expressions at type variables and at parameters.

The type expressions of a declaration are read behind a frame that gives its type variables their types. The frame is
made in two ways: from new variables, when the parameters are still to be found, and from the parameters, when they are
known. What an expression denotes in the second way is what it denotes in the first way with parameters put for variables
(`TypeExpr.at_params`, `TypeExpr.at_vars`), as long as no variable has been bound to anything but its parameter.

Which variables are left in a type is a matter of the names in the expression (`TypeExpr.mem_vars`).
-/
import DualInference.Proofs.Inference.TypeExpr
import DualInference.Proofs.Store.Matching

namespace DualInference

/-! ## Frames of type variables -/

namespace Frame

theorem add_eq_ok {frame frame' : Frame} {name : Ident} {entry : LocalName} :
    frame.add name entry = .ok frame' ↔ frame.lookup name.name = none ∧ frame' = (name.name, entry) :: frame := by
  unfold add
  cases frame.lookup name.name with
  | some x => exact ⟨nofun, nofun⟩
  | none => exact ⟨fun h => by cases h; exact ⟨rfl, rfl⟩, fun h => by rw [h.2]⟩

/-- Frames know one error only. -/
theorem add_error {frame : Frame} {name : Ident} {entry : LocalName} {e : Error} (h : frame.add name entry = .error e) :
    e.cause = .nameRedefinition name.name := by
  unfold add at h
  split at h
  · cases h
    rfl
  · cases h

theorem ofTypeVars_error {names : List Ident} {types : List Ty} {e : Error} (h : ofTypeVars names types = .error e) :
    ∃ name, e.cause = .nameRedefinition name := by
  have hfold : ∀ (l : List (Ident × Ty)) (frame : Frame),
      l.foldlM (fun frame p => Frame.add frame p.1 (.typeVar p.2)) frame = Except.error e →
      ∃ name, e.cause = .nameRedefinition name := by
    intro l
    induction l with
    | nil =>
      intro frame h
      cases h
    | cons p l ih =>
      intro frame h
      rw [List.foldlM_cons] at h
      cases hadd : Frame.add frame p.1 (.typeVar p.2) with
      | error e' =>
        rw [hadd] at h
        cases h
        exact ⟨_, add_error hadd⟩
      | ok frame' =>
        rw [hadd] at h
        exact ih frame' h
  exact hfold (names.zip types) [] h

theorem lookup_addAll {l : List (Ident × Ty)} {frame frame' : Frame}
    (h : l.foldlM (fun (frame : Frame) (name, t) => frame.add name (.typeVar t)) frame = .ok frame') (name : String)
    (entry : LocalName) : frame'.lookup name = some entry ↔
      frame.lookup name = some entry ∨ ∃ n t, (n, t) ∈ l ∧ n.name = name ∧ entry = .typeVar t := by
  induction l generalizing frame with
  | nil =>
    cases h
    simp
  | cons p l ih =>
    obtain ⟨n, t⟩ := p
    simp only [List.foldlM_cons] at h
    obtain ⟨frame₁, hadd, h⟩ := except_bind_eq_ok h
    obtain ⟨hnone, rfl⟩ := add_eq_ok.1 hadd
    have hcons : (∃ n' t', (n', t') ∈ (n, t) :: l ∧ n'.name = name ∧ entry = .typeVar t') ↔
        (n.name = name ∧ entry = .typeVar t) ∨ ∃ n' t', (n', t') ∈ l ∧ n'.name = name ∧ entry = .typeVar t' := by
      constructor
      · rintro ⟨n', t', hmem, hn⟩
        rcases List.mem_cons.1 hmem with heq | hmem
        · cases heq
          exact .inl hn
        · exact .inr ⟨n', t', hmem, hn⟩
      · rintro (hn | ⟨n', t', hmem, hn⟩)
        · exact ⟨n, t, List.mem_cons_self, hn⟩
        · exact ⟨n', t', List.mem_cons_of_mem _ hmem, hn⟩
    rw [ih h, hcons, ← or_assoc, List.lookup_cons]
    by_cases hname : name = n.name
    · subst hname
      simp [hnone, eq_comm]
    · rw [beq_eq_false_iff_ne.2 hname]
      simp [Ne.symm hname]

/-- A frame of type variables has the names it is made from and no others, each with the type at its position. -/
theorem lookup_ofTypeVars {names : List Ident} {ts : List Ty} {frame : Frame} (h : ofTypeVars names ts = .ok frame)
    (name : String) (entry : LocalName) : frame.lookup name = some entry ↔
      ∃ (j : Nat) (n : Ident) (t : Ty), names[j]? = some n ∧ ts[j]? = some t ∧ n.name = name ∧ entry = .typeVar t := by
  rw [lookup_addAll h]
  constructor
  · rintro (h | ⟨n, t, hmem, hname, hentry⟩)
    · cases h
    · obtain ⟨j, hj⟩ := List.mem_iff_getElem?.1 hmem
      obtain ⟨hn, ht⟩ := List.getElem?_zip_eq_some.1 hj
      exact ⟨j, n, t, hn, ht, hname, hentry⟩
  · rintro ⟨j, n, t, hn, ht, hname, hentry⟩
    exact .inr ⟨n, t, List.mem_iff_getElem?.2 ⟨j, List.getElem?_zip_eq_some.2 ⟨hn, ht⟩⟩, hname, hentry⟩

/-- A frame made from as many types as names has all the names. -/
theorem lookup_ofTypeVars_isSome {names : List Ident} {ts : List Ty} (hlen : ts.length = names.length) {frame : Frame}
    (h : ofTypeVars names ts = .ok frame) {name : String} (hname : name ∈ names.map (·.name)) :
    (frame.lookup name).isSome = true := by
  obtain ⟨n, hn, rfl⟩ := List.mem_map.1 hname
  obtain ⟨j, hj⟩ := List.getElem?_of_mem hn
  have hlt : j < ts.length := hlen ▸ (List.getElem?_eq_some_iff.1 hj).1
  rw [(lookup_ofTypeVars h n.name _).2 ⟨j, n, ts[j], hj, List.getElem?_eq_getElem hlt, rfl, rfl⟩]
  rfl

/-- A frame of type variables has no other names. -/
theorem lookup_ofTypeVars_eq_none {names : List Ident} {ts : List Ty} {frame : Frame}
    (h : ofTypeVars names ts = .ok frame) {name : String} (hname : name ∉ names.map (·.name)) :
    frame.lookup name = none := by
  refine Option.eq_none_iff_forall_ne_some.2 fun entry hentry => hname ?_
  obtain ⟨j, n, t, hn, -, rfl, -⟩ := (lookup_ofTypeVars h name entry).1 hentry
  exact List.mem_map_of_mem (List.mem_of_getElem? hn)

/-- Names that are distinct make a frame. -/
theorem ofTypeVars_of_distinct {names : List Ident} (h : (names.map (·.name)).Nodup) (ts : List Ty) :
    ∃ frame, ofTypeVars names ts = .ok frame := by
  have hfold : ∀ {ts : List Ty} {frame : Frame}, (∀ name ∈ names, frame.lookup name.name = none) →
      ∃ frame', (names.zip ts).foldlM (fun (frame : Frame) (name, t) => frame.add name (.typeVar t)) frame =
        .ok frame' := by
    induction names with
    | nil => exact fun _ => ⟨_, rfl⟩
    | cons name names ih =>
      obtain ⟨hname, h⟩ := List.nodup_cons.1 h
      intro ts frame hnew
      cases ts with
      | nil => exact ⟨_, rfl⟩
      | cons t ts =>
        simp only [List.zip_cons_cons, List.foldlM_cons]
        rw [add_eq_ok.2 ⟨hnew name (.head _), rfl⟩]
        refine ih h fun name' hmem => ?_
        have hne : name'.name ≠ name.name := fun heq => hname (List.mem_map.2 ⟨name', hmem, heq⟩)
        rw [List.lookup_cons, beq_eq_false_iff_ne.2 hne]
        exact hnew name' (.tail _ hmem)
  exact hfold fun _ _ => rfl

/-- Whether a frame can be made is a matter of the names. -/
theorem ofTypeVars_of_length {names : List Ident} {ts us : List Ty} (hlen : ts.length = us.length) {frame : Frame}
    (h : ofTypeVars names ts = .ok frame) : ∃ frame', ofTypeVars names us = .ok frame' := by
  have hfold : ∀ {ts us : List Ty} {frame₁ frame₂ frame : Frame}, ts.length = us.length →
      (∀ name, frame₁.lookup name = none ↔ frame₂.lookup name = none) →
      (names.zip ts).foldlM (fun (frame : Frame) (name, t) => frame.add name (.typeVar t)) frame₁ = .ok frame →
      ∃ frame', (names.zip us).foldlM (fun (frame : Frame) (name, t) => frame.add name (.typeVar t)) frame₂ =
        .ok frame' := by
    clear h hlen
    induction names with
    | nil => exact fun _ _ _ => ⟨_, rfl⟩
    | cons n names ih =>
      intro ts us frame₁ frame₂ frame hlen hsame h
      cases ts with
      | nil =>
        obtain rfl := List.length_eq_zero_iff.1 hlen.symm
        exact ⟨_, rfl⟩
      | cons t ts =>
        cases us with
        | nil => cases hlen
        | cons u us =>
          simp only [List.zip_cons_cons, List.foldlM_cons] at h ⊢
          obtain ⟨frame₁', hadd, h⟩ := except_bind_eq_ok h
          obtain ⟨hnone, rfl⟩ := add_eq_ok.1 hadd
          rw [add_eq_ok.2 ⟨(hsame n.name).1 hnone, rfl⟩]
          refine ih (Nat.succ.inj hlen) (fun name => ?_) h
          rw [List.lookup_cons, List.lookup_cons]
          cases name == n.name with
          | true => simp
          | false => exact hsame name
  exact hfold hlen (fun _ => Iff.rfl) h

end Frame

/-! ## Parameters for variables -/

/-- the parameters put for as many variables, the first of them numbered `k` -/
def paramAt (k : Nat) (params : List Ty) (v : VarId) : Ty :=
  (params[v - k]?).getD (.var v)

theorem paramAt_add {k j : Nat} {params : List Ty} {p : Ty} (h : params[j]? = some p) :
    paramAt k params (k + j) = p := by
  rw [paramAt, Nat.add_sub_cancel_left, h, Option.getD_some]

theorem paramAt_closed {k j : Nat} {params : List Ty} (hclosed : ∀ p ∈ params, p.vars = []) (hj : j < params.length) :
    (paramAt k params (k + j)).vars = [] := by
  rw [paramAt_add (List.getElem?_eq_getElem hj)]
  exact hclosed _ (List.getElem_mem hj)

/-- so many variables, the first of them numbered `k` -/
def varsFrom (k n : Nat) : List Ty :=
  (List.range' k n).map .var

@[simp] theorem length_varsFrom (k n : Nat) : (varsFrom k n).length = n := by
  simp [varsFrom]

theorem getElem?_varsFrom {k n j : Nat} {t : Ty} : (varsFrom k n)[j]? = some t ↔ j < n ∧ t = .var (k + j) := by
  simp only [varsFrom, List.getElem?_map]
  by_cases hj : j < n
  · simp [hj, eq_comm]
  · simp [hj]

/-- A plain variable reads as itself or as the type it is bound to. -/
theorem Store.Plain.read {s : Store} (hs : s.Acyclic) {v : VarId} (h : s.Plain v) :
    (s.deref? (.var v)).getD (.var v) = (s.binding? v).getD (.var v) := by
  rw [deref?_var hs]
  cases hb : s.binding? v with
  | none => rfl
  | some p =>
    rw [Option.bind_some, deref?_closed hs (h.2 p hb)]

theorem Store.Allots.subst_read {s : Store} (hs : s.Acyclic) {θ : VarId → Ty} {v : VarId} (h : s.Allots θ v) :
    ((s.deref? (.var v)).getD (.var v)).subst θ = θ v := by
  rw [h.plain.read hs]
  cases hb : s.binding? v with
  | none => rfl
  | some p =>
    obtain rfl := h.2.2 p hb
    exact subst_closed θ h.2.1

/-- the type variables of a declaration as variables of a store, the first of them numbered `k` -/
structure Opened (s : Store) (k : Nat) (names : List Ident) (vars : Frame) : Prop where
  frame : Frame.ofTypeVars names (varsFrom k names.length) = .ok vars
  plain : ∀ j < names.length, s.Plain (k + j)

theorem Opened.lookup {s : Store} {k : Nat} {names : List Ident} {vars : Frame} (h : Opened s k names vars)
    (name : String) (entry : LocalName) : vars.lookup name = some entry ↔
      ∃ (j : Nat) (n : Ident), names[j]? = some n ∧ n.name = name ∧ entry = .typeVar (.var (k + j)) := by
  rw [Frame.lookup_ofTypeVars h.frame]
  constructor
  · rintro ⟨j, n, t, hn, ht, hname, rfl⟩
    obtain ⟨_, rfl⟩ := getElem?_varsFrom.1 ht
    exact ⟨j, n, hn, hname, rfl⟩
  · rintro ⟨j, n, hn, hname, rfl⟩
    obtain ⟨hj, _⟩ := List.getElem?_eq_some_iff.1 hn
    exact ⟨j, n, _, hn, getElem?_varsFrom.2 ⟨hj, rfl⟩, hname, rfl⟩

theorem Opened.mono {s s' : Store} {k : Nat} {names : List Ident} {vars : Frame} (h : Opened s k names vars)
    (hplain : ∀ v, s.Plain v → s'.Plain v) : Opened s' k names vars :=
  ⟨h.frame, fun j hj => hplain _ (h.plain j hj)⟩

/-- a declaration's type variables, once as variables of a store and once at closed parameters that they may be given -/
structure Slots (s : Store) (k : Nat) (names : List Ident) (params : List Ty) (vars known : Frame) : Prop where
  length : params.length = names.length
  vars : Frame.ofTypeVars names (varsFrom k names.length) = .ok vars
  known : Frame.ofTypeVars names params = .ok known
  allots : ∀ j < names.length, s.Allots (paramAt k params) (k + j)

namespace Slots

variable {s : Store} {k : Nat} {names : List Ident} {params : List Ty} {vars known : Frame}
  (h : Slots s k names params vars known)

include h

theorem opened : Opened s k names vars :=
  ⟨h.vars, fun j hj => (h.allots j hj).plain⟩

theorem getElem? {j : Nat} {n : Ident} (hn : names[j]? = some n) : params[j]? = some (paramAt k params (k + j)) := by
  obtain ⟨hj, _⟩ := List.getElem?_eq_some_iff.1 hn
  have hp := List.getElem?_eq_getElem (h.length ▸ hj)
  rw [hp, paramAt_add hp]

/-- A name is a type variable in both frames or in none of them. -/
theorem cases (name : String) :
    (vars.lookup name = none ∧ known.lookup name = none) ∨
    ∃ (j : Nat) (n : Ident), names[j]? = some n ∧ n.name = name ∧ vars.lookup name = some (.typeVar (.var (k + j))) ∧
      known.lookup name = some (.typeVar (paramAt k params (k + j))) := by
  have hknown := Frame.lookup_ofTypeVars h.known name
  cases hl : vars.lookup name with
  | some entry =>
    obtain ⟨j, n, hn, hname, rfl⟩ := (h.opened.lookup name entry).1 hl
    exact .inr ⟨j, n, hn, hname, rfl, (hknown _).2 ⟨j, n, _, hn, h.getElem? hn, hname, rfl⟩⟩
  | none =>
    refine .inl ⟨rfl, ?_⟩
    rw [Option.eq_none_iff_forall_ne_some]
    intro entry hentry
    obtain ⟨j, n, t, hn, _, hname, _⟩ := (hknown entry).1 hentry
    have hvar := (h.opened.lookup name _).2 ⟨j, n, hn, hname, rfl⟩
    rw [hl] at hvar
    cases hvar

/-- What is not a type variable means the same behind both frames. -/
theorem declared {tab : SymbolTable} {home : ScopeId} {name : String} {m : Meaning} (htype : ∀ t, m ≠ .typeVar t) :
    Env.meaning? tab ⟨vars, home⟩ name = some m ↔ Env.meaning? tab ⟨known, home⟩ name = some m := by
  unfold Env.meaning?
  rcases h.cases name with ⟨hv, hk⟩ | ⟨j, n, _, _, hv, hk⟩
  · rw [hv, hk]
  · rw [hv, hk]
    constructor
    · exact fun heq => absurd (Option.some.inj heq).symm (htype _)
    · exact fun heq => absurd (Option.some.inj heq).symm (htype _)

end Slots

section

variable {tab : SymbolTable} {items : List Item} (hset : tab.Settled items) {s s' : Store} (hs : s.Acyclic)
  (hs' : s'.Acyclic) {k : Nat} {names : List Ident} {params : List Ty} {vars known : Frame}
  (hslots : Slots s k names params vars known) {home : ScopeId}

include hset

/-- Only the frame makes type variables. -/
theorem Env.meaning?_typeVar {frame : Frame} {name : String} {t : Ty}
    (h : Env.meaning? tab ⟨frame, home⟩ name = some (.typeVar t)) : frame.lookup name = some (.typeVar t) := by
  unfold Env.meaning? at h
  cases hl : frame.lookup name with
  | some entry =>
    rw [hl] at h
    cases entry with
    | typeVar u =>
      cases h
      rfl
    | param u => cases h
  | none =>
    rw [hl] at h
    obtain ⟨id, _, h⟩ := Option.bind_eq_some_iff.1 h
    obtain ⟨symbol, hsym, h⟩ := Option.bind_eq_some_iff.1 h
    exact absurd (Option.some.inj h) (Symbol.meaning_ne_typeVar (hset.declared hsym) t)

omit hset in
theorem Ty.compound_subst {θ : VarId → Ty} {ts us : List Ty} (h : List.Forall₂ (fun t u => u = t.subst θ) ts us)
    (f : Former) : Ty.compound f us = (Ty.compound f ts).subst θ := by
  rw [Ty.subst]
  congr 1
  induction h with
  | nil => rfl
  | cons h _ ih => rw [Ty.substList, h, ih]

include hs hs' hslots

/-- A name is a type variable behind both frames or behind none. Where it is, it reads at the parameters as an instance
of what it reads as at the variables. -/
theorem Slots.typeVar_cases (name : String) :
    ((∀ t, Env.meaning? tab ⟨vars, home⟩ name ≠ some (.typeVar t)) ∧
      ∀ u, Env.meaning? tab ⟨known, home⟩ name ≠ some (.typeVar u)) ∨
    ∃ t u, Env.meaning? tab ⟨vars, home⟩ name = some (.typeVar t) ∧
      Env.meaning? tab ⟨known, home⟩ name = some (.typeVar u) ∧
      (s'.deref? u).getD u = ((s.deref? t).getD t).subst (paramAt k params) := by
  rcases hslots.cases name with ⟨hv, hk⟩ | ⟨j, n, hn, _, hv, hk⟩
  · refine .inl ⟨fun t hm => ?_, fun u hm => ?_⟩
    · cases hv.symm.trans (Env.meaning?_typeVar hset hm)
    · cases hk.symm.trans (Env.meaning?_typeVar hset hm)
  · obtain ⟨hj, _⟩ := List.getElem?_eq_some_iff.1 hn
    have hallots := hslots.allots j hj
    refine .inr ⟨.var (k + j), paramAt k params (k + j), ?_, ?_, ?_⟩
    · simp [Env.meaning?, hv, LocalName.meaning]
    · simp [Env.meaning?, hk, LocalName.meaning]
    · rw [Store.deref?_closed hs' hallots.2.1, hallots.subst_read hs, Option.getD_some]

/-- At the parameters, an expression denotes what it denotes at the variables, with parameters put for them. -/
theorem TypeExpr.at_params {e : Expr} {t : Ty} (h : TypeExpr tab s ⟨vars, home⟩ e t) :
    TypeExpr tab s' ⟨known, home⟩ e (t.subst (paramAt k params)) := by
  have hvar : ∀ {name t}, Env.meaning? tab ⟨vars, home⟩ name = some (.typeVar t) →
      ∃ u, Env.meaning? tab ⟨known, home⟩ name = some (.typeVar u) ∧
        (s'.deref? u).getD u = ((s.deref? t).getD t).subst (paramAt k params) := by
    intro name t hm
    rcases hslots.typeVar_cases hset hs hs' name with ⟨hv, _⟩ | ⟨t', u, ht, hu, heq⟩
    · exact absurd hm (hv t)
    · cases hm.symm.trans ht
      exact ⟨u, hu, heq⟩
  obtain ⟨u, hu, rfl⟩ := h.transport (R := fun t u => u = t.subst (paramAt k params))
    (fun hm htype _ => (hslots.declared htype).1 hm) hvar (fun _ => rfl) (fun w _ _ htu => by rw [htu, Ty.subst])
    fun _ _ hts => Ty.compound_subst hts _
  exact hu

/-- At the variables, an expression denotes a type of which its type at the parameters is an instance. -/
theorem TypeExpr.at_vars {e : Expr} {u : Ty} (h : TypeExpr tab s' ⟨known, home⟩ e u) :
    ∃ t, TypeExpr tab s ⟨vars, home⟩ e t ∧ u = t.subst (paramAt k params) := by
  have hvar : ∀ {name u}, Env.meaning? tab ⟨known, home⟩ name = some (.typeVar u) →
      ∃ t, Env.meaning? tab ⟨vars, home⟩ name = some (.typeVar t) ∧
        (s'.deref? u).getD u = ((s.deref? t).getD t).subst (paramAt k params) := by
    intro name u hm
    rcases hslots.typeVar_cases hset hs hs' name with ⟨_, hk⟩ | ⟨t, u', ht, hu, heq⟩
    · exact absurd hm (hk u)
    · cases hm.symm.trans hu
      exact ⟨t, ht, heq⟩
  exact h.transport (R := fun u t => u = t.subst (paramAt k params))
    (fun hm htype _ => (hslots.declared htype).2 hm) hvar (fun _ => rfl) (fun w _ _ htu => by rw [htu, Ty.subst])
    fun _ _ hts => Ty.compound_subst (List.Forall₂.flip hts) _

end

/-! ## Names in expressions -/

mutual

/-- the names that occur in an expression -/
def Expr.names : Expr → List String
  | .addressOf _ operand => operand.names
  | .index _ base indexes => base.names ++ Expr.namesList indexes
  | .call _ callee args => callee.names ++ Expr.namesList args
  | .field _ base _ => base.names
  | .element _ base _ => base.names
  | .pointee _ base => base.names
  | .array _ elements => Expr.namesList elements
  | .tuple _ elements => Expr.namesList elements
  | .name _ ident => [ident.name]
  | .bool _ _ => []
  | .int _ _ => []
  | .char _ _ => []

def Expr.namesList : List Expr → List String
  | [] => []
  | e :: es => e.names ++ Expr.namesList es

end

theorem Expr.mem_namesList {name : String} {es : List Expr} : name ∈ Expr.namesList es ↔ ∃ e ∈ es, name ∈ e.names := by
  induction es with
  | nil => simp [Expr.namesList]
  | cons e es ih => simp [Expr.namesList, ih]

/-- the expression names a type variable, and what that one reads as has the variable in it -/
def Expr.Shows (tab : SymbolTable) (s : Store) (env : Env) (v : VarId) (e : Expr) : Prop :=
  ∃ name ∈ e.names, ∃ u, env.meaning? tab name = some (.typeVar u) ∧ v ∈ ((s.deref? u).getD u).vars

section

variable {tab : SymbolTable} {s : Store} {env : Env} {v : VarId}

theorem Expr.shows_name {span : Span} {ident : Ident} : Expr.Shows tab s env v (.name span ident) ↔
    ∃ u, env.meaning? tab ident.name = some (.typeVar u) ∧ v ∈ ((s.deref? u).getD u).vars := by
  simp [Expr.Shows, Expr.names]

/-- The name in front of the indexes does not count, unless it is a type variable. -/
theorem Expr.shows_index {span span' : Span} {ident : Ident} {m : Meaning} {es : List Expr}
    (h : env.meaning? tab ident.name = some m) (hm : ∀ u, m ≠ .typeVar u) :
    Expr.Shows tab s env v (.index span (.name span' ident) es) ↔ ∃ e ∈ es, e.Shows tab s env v := by
  constructor
  · rintro ⟨name, hmem, u, hu, hv⟩
    rcases List.mem_append.1 hmem with hmem | hmem
    · rw [List.mem_singleton.1 hmem, h] at hu
      exact absurd (Option.some.inj hu) (hm u)
    · obtain ⟨e, he, hmem⟩ := Expr.mem_namesList.1 hmem
      exact ⟨e, he, name, hmem, u, hu, hv⟩
  · rintro ⟨e, he, name, hmem, hu⟩
    exact ⟨name, List.mem_append_right _ (Expr.mem_namesList.2 ⟨e, he, hmem⟩), hu⟩

/-- The variables of a type come from the type variables that are named in the expression. -/
theorem TypeExpr.mem_vars {e : Expr} {t : Ty} (h : TypeExpr tab s env e t) : v ∈ t.vars ↔ e.Shows tab s env v := by
  induction h using TypeExpr.induct with
  | typeVar h => simp [Expr.shows_name, h]
  | scalar h => simp [Expr.shows_name, h, Ty.vars]
  | bare h hlen => simp [Expr.shows_name, h, Ty.vars, Ty.varsList]
  | array h _ ih =>
    rw [Expr.shows_index h nofun]
    simp [Ty.vars, ih]
  | ref h _ ih =>
    rw [Expr.shows_index h nofun]
    simp [Ty.vars, ih]
  | @arrayValue _ _ _ _ size _ _ h _ hsize ih =>
    have hsize' : size.names = [] := by
      cases size with
      | int _ _ => rfl
      | _ => cases hsize
    rw [Expr.shows_index h nofun]
    simp [Ty.vars, ih, Expr.Shows, hsize']
  | applied h hes hlen ih =>
    rw [Expr.shows_index h nofun, Ty.vars]
    clear hes hlen
    induction ih with
    | nil => simp [Ty.varsList]
    | cons he _ ih' =>
      rw [Ty.varsList, List.mem_append, he.choose_spec, ih']
      simp

end

/-- The variables of a type at the variables are those that are named in the expression and unbound. -/
theorem Opened.mem_vars {tab : SymbolTable} {items : List Item} (hset : tab.Settled items) {s : Store} (hs : s.Acyclic)
    {k : Nat} {names : List Ident} {vars : Frame} (hopened : Opened s k names vars) {home : ScopeId} {e : Expr} {t : Ty}
    (h : TypeExpr tab s ⟨vars, home⟩ e t) {v : VarId} : v ∈ t.vars ↔
      ∃ (j : Nat) (n : Ident), names[j]? = some n ∧ v = k + j ∧ n.name ∈ e.names ∧ s.binding? v = none := by
  rw [h.mem_vars]
  constructor
  · rintro ⟨name, hmem, u, hu, hv⟩
    obtain ⟨j, n, hn, rfl, hentry⟩ := (hopened.lookup _ _).1 (Env.meaning?_typeVar hset hu)
    cases hentry
    obtain ⟨hj, _⟩ := List.getElem?_eq_some_iff.1 hn
    have hplain := hopened.plain j hj
    rw [hplain.read hs] at hv
    cases hb : s.binding? (k + j) with
    | none =>
      rw [hb] at hv
      obtain rfl := List.mem_singleton.1 hv
      exact ⟨j, n, hn, rfl, hmem, hb⟩
    | some p =>
      rw [hb, Option.getD_some, hplain.2 p hb] at hv
      cases hv
  · rintro ⟨j, n, hn, rfl, hmem, hnone⟩
    obtain ⟨hj, _⟩ := List.getElem?_eq_some_iff.1 hn
    have hl := (hopened.lookup n.name _).2 ⟨j, n, hn, rfl, rfl⟩
    refine ⟨n.name, hmem, .var (k + j), by simp [Env.meaning?, hl, LocalName.meaning], ?_⟩
    rw [(hopened.plain j hj).read hs, hnone]
    exact List.mem_singleton_self _

/-! ## At closed parameters -/

section

variable {tab : SymbolTable} {items : List Item} (hset : tab.Settled items) {names : List Ident} {params : List Ty}
  {known : Frame} (hknown : Frame.ofTypeVars names params = .ok known) (hclosed : ∀ p ∈ params, p.vars = [])
  {s s' : Store} (hs : s.Acyclic) {home : ScopeId} {e : Expr} {t : Ty} (h : TypeExpr tab s ⟨known, home⟩ e t)

include hset hknown hclosed

theorem typeVar_closed {name : String} {t : Ty} (hm : Env.meaning? tab ⟨known, home⟩ name = some (.typeVar t)) :
    t.vars = [] := by
  obtain ⟨j, _, p, _, hp, _, hentry⟩ := (Frame.lookup_ofTypeVars hknown name _).1 (Env.meaning?_typeVar hset hm)
  cases hentry
  exact hclosed t (List.mem_of_getElem? hp)

include hs h

/-- At closed parameters, expressions denote closed types. -/
theorem TypeExpr.vars_eq_nil : t.vars = [] := by
  rw [List.eq_nil_iff_forall_not_mem]
  intro v hv
  obtain ⟨name, _, u, hu, hv⟩ := h.mem_vars.1 hv
  have hu' := typeVar_closed hset hknown hclosed hu
  rw [Store.deref?_closed hs hu', Option.getD_some, hu'] at hv
  cases hv

/-- At closed parameters, the store does not matter. -/
theorem TypeExpr.of_closed (hs' : s'.Acyclic) : TypeExpr tab s' ⟨known, home⟩ e t := by
  have hvar : ∀ {name t}, Env.meaning? tab ⟨known, home⟩ name = some (.typeVar t) →
      ∃ u, Env.meaning? tab ⟨known, home⟩ name = some (.typeVar u) ∧ (s.deref? t).getD t = (s'.deref? u).getD u := by
    intro name t hm
    have ht := typeVar_closed hset hknown hclosed hm
    exact ⟨t, hm, by rw [Store.deref?_closed hs ht, Store.deref?_closed hs' ht]⟩
  obtain ⟨u, hu, rfl⟩ := h.transport (R := Eq) (fun hm _ _ => hm) hvar (fun _ => rfl) (fun _ _ _ htu => by rw [htu])
    fun _ _ hts => by rw [List.forall₂_eq_eq_eq] at hts; rw [hts]
  exact hu

end

end DualInference
