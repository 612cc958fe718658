/-
Finding parameters.

To find the parameters of a declaration, its type variables are made variables of the store, and its type expressions are
unified, one after the other, with closed types. If there are parameters at which the expressions denote these types, every
unification succeeds, and each binds the variables that its expression mentions to their parameters (`Filling.unify`). In
the end the variables have been solved that were mentioned, and the first one that was not is what is complained about
(`Filled.solution`).

If there are such parameters for some expressions, and after them one more expression can be unified with its type, then
there are such parameters for all of these expressions (`Filling.refit`). So a unification fails only where there are none.
-/
import DualInference.Proofs.Inference.Parameters

namespace DualInference

open Infer

/-! ## Variables for a declaration -/

section

variable {st st' : State} {span : Span}

/-- New variables are numbered from the size of the store on, and nothing happens to those that were there. -/
theorem freshVars_eq (names : List Ident) (hst : st.store.WellFormed) :
    ∃ s, freshVars names st = some (.ok (varsFrom st.store.size names.length), { st with store := s }) ∧ s.WellFormed ∧
      s.size = st.store.size + names.length ∧ ∀ v, s.binding? v = st.store.binding? v := by
  induction names generalizing st with
  | nil => exact ⟨st.store, rfl, hst, rfl, fun _ => rfl⟩
  | cons name names ih =>
    have hst₁ : { st with store := st.store.fresh.2 : State }.store.WellFormed := hst.fresh
    obtain ⟨s, hrun, hs, hsize, hbinding⟩ := ih hst₁
    refine ⟨s, ?_, hs, ?_, fun v => ?_⟩
    · rw [freshVars]
      refine bind_eq_ok.2 ⟨st, st, rfl, bind_eq_ok.2 ⟨(), _, rfl, bind_eq_ok.2 ⟨_, _, hrun, ?_⟩⟩⟩
      simp only [Store.size_fresh, varsFrom, List.length_cons, List.range'_succ, List.map_cons]
      rfl
    · rw [hsize, Store.size_fresh, List.length_cons]
      omega
    · rw [hbinding, Store.binding?_fresh]

theorem solution_sound {names : List Ident} {ts params : List Ty} (hlen : names.length = ts.length)
    (hrun : solution span names ts st = some (.ok params, st')) :
    List.Forall₂ (fun t p => st.store.deref? t = some p) ts params ∧ st' = st := by
  induction names generalizing ts params st with
  | nil =>
    obtain rfl := List.length_eq_zero_iff.1 hlen.symm
    cases hrun
    exact ⟨.nil, rfl⟩
  | cons name names ih =>
    cases ts with
    | nil => cases hlen
    | cons t ts =>
      obtain ⟨p, st₁, hclosed, hrun₁⟩ := bind_eq_ok.1 hrun
      obtain ⟨ps, st₂, hsolution, hret⟩ := bind_eq_ok.1 hrun₁
      cases hret
      cases hp : st.store.deref? t with
      | none =>
        rw [closed_of_none hp] at hclosed
        cases hclosed
      | some p' =>
        rw [closed_of_some _ hp] at hclosed
        cases hclosed
        obtain ⟨hps, rfl⟩ := ih (Nat.succ.inj hlen) hsolution
        exact ⟨.cons hp hps, rfl⟩

theorem solution_complete {names : List Ident} {ts params : List Ty} (hlen : names.length = ts.length)
    (h : List.Forall₂ (fun t p => st.store.deref? t = some p) ts params) :
    solution span names ts st = some (.ok params, st) := by
  induction h generalizing names with
  | nil =>
    obtain rfl := List.length_eq_zero_iff.1 hlen
    rfl
  | @cons t p ts params hp _ ih =>
    cases names with
    | nil => cases hlen
    | cons name names =>
      exact bind_eq_ok.2 ⟨p, st, closed_of_some _ hp, bind_eq_ok.2 ⟨params, st, ih (Nat.succ.inj hlen), rfl⟩⟩

/-- The first variable that is left open is the one that is complained about. -/
theorem solution_fails {names : List Ident} {ts : List Ty} {found : Ident → Bool}
    (h : List.Forall₂ (fun n t => (st.store.deref? t).isSome = found n) names ts) {name : Ident}
    (hfind : names.find? (fun n => !found n) = some name) :
    solution span names ts st = some (.error ⟨.unresolvedTypeVariable name.name, span⟩, st) := by
  induction h with
  | nil => cases hfind
  | @cons n t names ts hn _ ih =>
    rw [List.find?_cons, ← hn] at hfind
    cases hd : st.store.deref? t with
    | none =>
      rw [hd] at hfind
      cases hfind
      rw [solution, bind_apply, closed_of_none hd]
    | some p =>
      rw [hd] at hfind
      rw [solution, bind_of_ok (closed_of_some _ hd), bind_apply, ih hfind]

end

/-! ## Later stores -/

theorem Store.Extends.retains {s s' : Store} (h : s.Extends s') : s.Retains s' := by
  intro v p hv
  rw [h.binding (Store.lt_size_of_binding? hv), hv]

theorem Store.Extends.plain {s s' : Store} (h : s.Extends s') {v : VarId} (hv : s.Plain v) : s'.Plain v := by
  refine ⟨hv.1.trans_le h.size, fun p hp => ?_⟩
  rw [h.binding hv.1] at hp
  exact hv.2 p hp

theorem Store.Extends.allots {s s' : Store} (h : s.Extends s') {θ : VarId → Ty} {v : VarId} (hv : s.Allots θ v) :
    s'.Allots θ v := by
  refine ⟨hv.1.trans_le h.size, hv.2.1, fun p hp => ?_⟩
  rw [h.binding hv.1] at hp
  exact hv.2.2 p hp

theorem Slots.mono {s s' : Store} {k : Nat} {names : List Ident} {params : List Ty} {vars known : Frame}
    (h : Slots s k names params vars known)
    (hallots : ∀ v, s.Allots (paramAt k params) v → s'.Allots (paramAt k params) v) :
    Slots s' k names params vars known :=
  ⟨h.length, h.vars, h.known, fun j hj => hallots _ (h.allots j hj)⟩

/-- the parameters that variables are bound to, or else the old ones -/
def refitted (s : Store) (k : Nat) (params : List Ty) : List Ty :=
  params.mapIdx fun j p => (s.binding? (k + j)).getD p

section

variable {s s₁ : Store} {k : Nat} {names : List Ident} {params : List Ty} {vars known : Frame}

theorem Slots.closed (h : Slots s k names params vars known) : ∀ p ∈ params, p.vars = [] := by
  intro p hp
  obtain ⟨j, hj⟩ := List.getElem?_of_mem hp
  rw [← paramAt_add hj]
  exact (h.allots j (h.length ▸ (List.getElem?_eq_some_iff.1 hj).1)).2.1

/-- Variables may be given the types that they have been bound to instead. -/
theorem Slots.refit (h : Slots s k names params vars known) {vs : List VarId} (hfills : s.Fills vs s₁) :
    ∃ known', Slots s k names (refitted s₁ k params) vars known' ∧ ∀ j < names.length,
      paramAt k (refitted s₁ k params) (k + j) = (s₁.binding? (k + j)).getD (paramAt k params (k + j)) := by
  have hlen : (refitted s₁ k params).length = names.length := by simp [refitted, h.length]
  have hat : ∀ j < names.length,
      paramAt k (refitted s₁ k params) (k + j) = (s₁.binding? (k + j)).getD (paramAt k params (k + j)) := by
    intro j hj
    have hp := List.getElem?_eq_getElem (h.length ▸ hj)
    rw [paramAt_add hp]
    refine paramAt_add ?_
    simp [refitted, hp]
  obtain ⟨known', hknown'⟩ := Frame.ofTypeVars_of_length (h.length.trans hlen.symm) h.known
  have hplain : ∀ j < names.length, s.Plain (k + j) := fun j hj => h.opened.plain j hj
  refine ⟨known', ⟨hlen, h.vars, hknown', fun j hj => ⟨(hplain j hj).1, ?_, fun p hp => ?_⟩⟩, hat⟩
  · rw [hat j hj]
    cases hb : s₁.binding? (k + j) with
    | none => exact (h.allots j hj).2.1
    | some p => exact (hfills.plain (hplain j hj)).2 p hb
  · rw [hat j hj, hfills.kept _ _ hp, Option.getD_some]

end

/-! ## Variables bound to their parameters -/

/-- the variables of the given names are bound to their parameters, and the others are unbound -/
def Filled (s : Store) (k : Nat) (names : List Ident) (params : List Ty) (done : List String) : Prop :=
  ∀ (j : Nat) (n : Ident), names[j]? = some n →
    s.binding? (k + j) = if n.name ∈ done then some (paramAt k params (k + j)) else none

section

variable {tab : SymbolTable} {items : List Item} (hset : tab.Settled items) {home : ScopeId} {k : Nat}
  {names : List Ident} {params : List Ty} {vars known : Frame}

include hset

/-- Unification binds the variables that a type expression mentions. -/
theorem Filled.step {s s₁ s₂ : Store} (hs : s.Acyclic) (hslots : Slots s k names params vars known) {done : List String}
    (h : Filled s k names params done) (hext : s.Extends s₁) {e : Expr} {t : Ty} (ht : TypeExpr tab s ⟨vars, home⟩ e t)
    (hfulfils : s₁.Fulfils (paramAt k params) t.vars s₂) : Filled s₂ k names params (done ++ e.names) := by
  intro j n hn
  have hj : j < names.length := (List.getElem?_eq_some_iff.1 hn).1
  have hmem := hslots.opened.mem_vars hset hs ht (v := k + j)
  rw [hfulfils.binding?, hext.binding (hslots.allots j hj).1]
  rw [h j n hn] at hmem ⊢
  by_cases hdone : n.name ∈ done
  · have hnot : k + j ∉ t.vars := by
      rw [hmem]
      rintro ⟨_, _, _, _, _, hnone⟩
      rw [if_pos hdone] at hnone
      cases hnone
    rw [if_neg hnot, if_pos hdone, if_pos (List.mem_append_left _ hdone)]
  · by_cases hnamed : n.name ∈ e.names
    · have hin : k + j ∈ t.vars := hmem.2 ⟨j, n, hn, rfl, hnamed, if_neg hdone⟩
      rw [if_pos hin, if_pos (List.mem_append_right _ hnamed)]
    · have hnot : k + j ∉ t.vars := by
        rw [hmem]
        rintro ⟨j', n', hn', hjj', hnamed', _⟩
        obtain rfl := Nat.add_left_cancel hjj'
        rw [hn] at hn'
        cases hn'
        exact hnamed hnamed'
      have happ : n.name ∉ done ++ e.names := by
        rw [List.mem_append]
        rintro (h | h)
        · exact hdone h
        · exact hnamed h
      rw [if_neg hnot, if_neg hdone, if_neg happ]

end

/-- The type variables of a declaration are variables of the second store, made since the first one. Those whose names
are done are bound to their parameters, and the others are unbound. -/
structure Filling (s₀ : Store) (names : List Ident) (params : List Ty) (vars known : Frame) (done : List String)
    (s : Store) : Prop where
  wellFormed : s.WellFormed
  later : s₀.Extends s
  slots : Slots s s₀.size names params vars known
  filled : Filled s s₀.size names params done

/-- New variables stand ready for any parameters. -/
theorem freshVars_filling (names : List Ident) (st : State) (hst : st.store.WellFormed) :
    ∃ s, freshVars names st = some (.ok (varsFrom st.store.size names.length), { st with store := s }) ∧
      s.WellFormed ∧ st.store.size ≤ s.size ∧
      ∀ {params known}, params.length = names.length → (∀ p ∈ params, p.vars = []) →
        Frame.ofTypeVars names params = .ok known →
        ∃ vars, Frame.ofTypeVars names (varsFrom st.store.size names.length) = .ok vars ∧
          Filling st.store names params vars known [] s := by
  obtain ⟨s, hfresh, hs, hsize, hbinding⟩ := freshVars_eq names hst
  have hle : st.store.size ≤ s.size := by omega
  refine ⟨s, hfresh, hs, hle, fun {params known} hlen hclosed hknown => ?_⟩
  have hvarsLen : params.length = (varsFrom st.store.size names.length).length := by rw [length_varsFrom, hlen]
  obtain ⟨vars, hvars⟩ := Frame.ofTypeVars_of_length hvarsLen hknown
  have hnone : ∀ j, s.binding? (st.store.size + j) = none := by
    intro j
    rw [hbinding, Store.binding?_of_size_le (Nat.le_add_right _ j)]
  refine ⟨vars, hvars, hs, ⟨hle, fun {v} _ => hbinding v⟩, ⟨hlen, hvars, hknown, fun j hj => ?_⟩, fun j n _ => ?_⟩
  · refine ⟨hsize ▸ Nat.add_lt_add_left hj _, paramAt_closed hclosed (hlen ▸ hj), fun p hp => ?_⟩
    rw [hnone] at hp
    cases hp
  · rw [hnone, if_neg List.not_mem_nil]

section

variable {tab : SymbolTable} {items : List Item} (hset : tab.Settled items) {home : ScopeId} {names : List Ident}
  {params : List Ty} {vars known : Frame} {done : List String} {s₀ s s' : Store}

include hset

/-- A type expression can be unified with the type that it denotes at the parameters, in any later store. -/
theorem Filling.unify (h : Filling s₀ names params vars known done s) {s₁ : Store} (hext : s.Extends s₁)
    (hs₁ : s₁.WellFormed) (hs' : s'.Acyclic) {e : Expr} {a : Ty} (he : TypeExpr tab s' ⟨known, home⟩ e a) :
    ∃ t s₂, TypeExpr tab s ⟨vars, home⟩ e t ∧ s₁.unify t a = some s₂ ∧ s₁.size ≤ s₂.size ∧
      Filling s₀ names params vars known (done ++ e.names) s₂ := by
  have hs := h.wellFormed.acyclic
  have hslots₁ := h.slots.mono fun v hv => hext.allots hv
  obtain ⟨t, ht, rfl⟩ := he.at_vars hset hs hs' h.slots
  have hmem : ∀ v ∈ t.vars, ∃ j < names.length, v = s₀.size + j := by
    intro v hv
    obtain ⟨j, n, hn, rfl, _⟩ := (h.slots.opened.mem_vars hset hs ht).1 hv
    exact ⟨j, (List.getElem?_eq_some_iff.1 hn).1, rfl⟩
  have hallots : ∀ v ∈ t.vars, s₁.Allots (paramAt s₀.size params) v := by
    intro v hv
    obtain ⟨j, hj, rfl⟩ := hmem v hv
    exact hslots₁.allots j hj
  obtain ⟨s₂, hunify, hfulfils⟩ := Store.unify_complete hs₁ hallots
  have hsize : s₁.size ≤ s₂.size := Nat.le_of_eq hfulfils.size.symm
  refine ⟨t, s₂, ht, hunify, hsize, hfulfils.wellFormed, ⟨?_, fun {v} hv => ?_⟩,
    hslots₁.mono fun v hv => hfulfils.allots hv, h.filled.step hset hs h.slots hext ht hfulfils⟩
  · exact h.later.size.trans (hext.size.trans hsize)
  · -- no variable from before is one of the declaration
    have hnot : v ∉ t.vars := by
      intro hvt
      obtain ⟨j, _, rfl⟩ := hmem v hvt
      omega
    rw [hfulfils.binding?, if_neg hnot, hext.binding (hv.trans_le h.later.size), h.later.binding hv]

/-- If the names of some expressions are done, and a further expression can be unified with a closed type, there are
parameters at which the expressions denote what they did, and the further one denotes that type. -/
theorem Filling.refit (h : Filling s₀ names params vars known done s) (hs' : s'.Acyclic) {es : List Expr} {as : List Ty}
    (hes : List.Forall₂ (TypeExpr tab s' ⟨known, home⟩) es as) (hdone : ∀ e ∈ es, ∀ name ∈ e.names, name ∈ done)
    {e : Expr} {t a : Ty} (ht : TypeExpr tab s ⟨vars, home⟩ e t) (ha : a.vars = []) {s₁ : Store}
    (hunify : s.unify t a = some s₁) :
    ∃ params' known', params'.length = names.length ∧ (∀ p ∈ params', p.vars = []) ∧
      Frame.ofTypeVars names params' = .ok known' ∧ List.Forall₂ (TypeExpr tab s' ⟨known', home⟩) es as ∧
      TypeExpr tab s' ⟨known', home⟩ e a := by
  have hs := h.wellFormed.acyclic
  have hopened := h.slots.opened
  have hplain : ∀ v ∈ t.vars, s.Plain v := by
    intro v hv
    obtain ⟨j, n, hn, rfl, _⟩ := (hopened.mem_vars hset hs ht).1 hv
    exact hopened.plain j (List.getElem?_eq_some_iff.1 hn).1
  obtain ⟨hfills, hsubst⟩ := Store.unify_sound h.wellFormed hplain ha hunify
  -- the variables may be given the new parameters as well
  obtain ⟨known', hslots, hat⟩ := h.slots.refit hfills
  refine ⟨_, known', hslots.length, hslots.closed, hslots.known, ?_, ?_⟩
  · refine List.forall₂_iff_zip.2 ⟨hes.length_eq, fun {e₁ a₁} hmem => ?_⟩
    obtain ⟨t₁, ht₁, rfl⟩ := (List.forall₂_zip hes hmem).at_vars hset hs hs' h.slots
    -- all variables of the earlier expressions are bound, so nothing is left to be put for them
    have hnil : t₁.vars = [] := by
      rw [List.eq_nil_iff_forall_not_mem]
      intro v hv
      obtain ⟨j, n, hn, rfl, hname, hnone⟩ := (hopened.mem_vars hset hs ht₁).1 hv
      rw [h.filled j n hn, if_pos (hdone e₁ (List.of_mem_zip hmem).1 n.name hname)] at hnone
      cases hnone
    have hnew := ht₁.at_params hset hs hs' hslots
    rwa [Store.subst_closed _ hnil] at hnew ⊢
  · obtain ⟨hsome, rfl⟩ := Ty.eq_subst_of_subst? hsubst
    have heq : t.subst (fun v => (s₁.binding? v).getD (.var v)) =
        t.subst (paramAt s₀.size (refitted s₁ s₀.size params)) := by
      refine Ty.subst_congr fun v hv => ?_
      obtain ⟨j, n, hn, rfl, _⟩ := (hopened.mem_vars hset hs ht).1 hv
      rw [hat j (List.getElem?_eq_some_iff.1 hn).1]
      obtain ⟨p, hp⟩ := Option.isSome_iff_exists.1 (hsome _ hv)
      rw [hp, Option.getD_some, Option.getD_some]
    rw [heq]
    exact ht.at_params hset hs hs' hslots

end

/-- If variables have been bound to parameters where their names were found, the solution is the parameters, or the first
name that was not found has none. -/
theorem Filled.solution {st : State} (hs : st.store.Acyclic) {k : Nat} {names : List Ident} {params : List Ty}
    (hlen : params.length = names.length) (hclosed : ∀ p ∈ params, p.vars = []) {done : List String}
    (h : Filled st.store k names params done) (found : Ident → Bool) (hfound : ∀ n, found n = decide (n.name ∈ done))
    (span : Span) :
    Infer.solution span names (varsFrom k names.length) st =
      some (match names.find? fun n => !found n with
        | none => .ok params
        | some n => .error ⟨.unresolvedTypeVariable n.name, span⟩, st) := by
  have hvarsLen : names.length = (varsFrom k names.length).length := (length_varsFrom _ _).symm
  have hderef : ∀ (j : Nat) (n : Ident) (p : Ty), names[j]? = some n → params[j]? = some p →
      st.store.deref? (.var (k + j)) = if found n then some p else none := by
    intro j n p hn hp
    rw [Store.deref?_var hs, h j n hn, hfound, paramAt_add hp]
    by_cases hmem : n.name ∈ done
    · simp [hmem, Store.deref?_closed hs (hclosed p (List.mem_of_getElem? hp))]
    · simp [hmem]
  cases hfind : names.find? (fun n => !found n) with
  | none =>
    refine solution_complete hvarsLen (List.forall₂_iff_zip.2 ⟨by rw [← hvarsLen, hlen], fun {t p} hmem => ?_⟩)
    obtain ⟨j, hj⟩ := List.mem_iff_getElem?.1 hmem
    obtain ⟨ht, hp⟩ := List.getElem?_zip_eq_some.1 hj
    obtain ⟨hlt, rfl⟩ := getElem?_varsFrom.1 ht
    have hn := List.getElem?_eq_getElem hlt
    have hin := List.find?_eq_none.1 hfind _ (List.mem_of_getElem? hn)
    rw [hderef j _ p hn hp, if_pos (by simpa using hin)]
  | some n =>
    refine solution_fails (List.forall₂_iff_zip.2 ⟨hvarsLen, fun {n t} hmem => ?_⟩) hfind
    obtain ⟨j, hj⟩ := List.mem_iff_getElem?.1 hmem
    obtain ⟨hn, ht⟩ := List.getElem?_zip_eq_some.1 hj
    obtain ⟨hlt, rfl⟩ := getElem?_varsFrom.1 ht
    rw [hderef j n _ hn (List.getElem?_eq_getElem (hlen ▸ hlt))]
    cases found n <;> rfl

end DualInference
