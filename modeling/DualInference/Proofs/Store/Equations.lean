/-
Equations between types, and what is left of their order.

A store stands for the assignments that respect it. Unification that succeeds leaves a store that stands for exactly
those of them that make the two types the same (`unify_solutions`), and it succeeds if there is any (`exists_unify`).
Types that are equal up to bindings are those that all assignments make the same (`resolve_eq_iff`), and dereferencing
depends on that equality alone.

Main results:
- `equal_is_idle_unification`: two types are equal if and only if they unify without a new binding;
- `order_of_equations`: unifying pairs one after another, in any order and either way round, succeeds or fails as a
  whole, and if it succeeds the stores differ in nothing that can be observed. They may well differ in which variable is
  bound to which (`crossed_bindings`).
-/
import DualInference.Proofs.Store.Dereference
import DualInference.Proofs.Store.InPlace
import DualInference.Proofs.Store.Unifier
import Mathlib.Data.Sym.Sym2

namespace DualInference

namespace Store

variable {s s' : Store} {θ : VarId → Ty} {a b : Ty}

/-! ## Assignments -/

/-- The assignment of what each variable resolves to respects the store. -/
theorem respects_resolve (hs : s.Acyclic) : s.Respects fun v => s.resolve (.var v) := by
  intro v t hv
  rw [← resolve_eq_subst hs]
  exact (resolve_var hs v).trans (by rw [hv])

/-- Types resolve to the same type if all assignments that respect the store make them the same. -/
theorem resolve_eq_iff (hs : s.Acyclic) :
    s.resolve a = s.resolve b ↔ ∀ θ, s.Respects θ → a.subst θ = b.subst θ := by
  refine ⟨fun h θ hθ => by rw [← hθ.resolve hs a, h, hθ.resolve hs], fun h => ?_⟩
  rw [resolve_eq_subst hs a, resolve_eq_subst hs b]
  exact h _ (respects_resolve hs)

/-! ## One equation -/

/-- Types that have a solution unify. -/
theorem exists_unify (hs : s.WellFormed) (ha : s.Covers a) (hb : s.Covers b) (hθ : s.Solves θ a b) :
    ∃ s', s.unify a b = some s' ∧ s'.Respects θ := by
  obtain ⟨s', h, _, hrespects⟩ := reconcileWithin_solvable _ (hs.enough ha hb (Nat.le_refl _)) hθ
  exact ⟨s', h, hrespects⟩

/-- Unification leaves the two types equal. -/
theorem resolve_unify (hs : s.WellFormed) (ha : s.Covers a) (hb : s.Covers b) (h : s.unify a b = some s') :
    s'.resolve a = s'.resolve b :=
  (unify_agree h).resolves hs (.cons ha hb (by nofun)) (a, b) List.mem_cons_self

/-- An assignment that respects a store respects all stores with fewer bindings. -/
theorem Respects.of_grows (h : s'.Respects θ) (hgrows : s.Grows s') : s.Respects θ :=
  fun v t hv => h v t (hgrows.binding? hv)

/-- The store that unification leaves stands for the solutions. -/
theorem unify_solutions (hs : s.WellFormed) (ha : s.Covers a) (hb : s.Covers b) (h : s.unify a b = some s') :
    s'.Respects θ ↔ s.Solves θ a b := by
  have hgrows := unify_grows hs ha hb h
  have hs' := (hgrows.wellFormed hs).acyclic
  refine ⟨fun hθ => ⟨hθ.of_grows hgrows, ?_⟩, fun hθ => ?_⟩
  · exact (resolve_eq_iff hs').1 (resolve_unify hs ha hb h) θ hθ
  · obtain ⟨s'', h'', hrespects⟩ := exists_unify hs ha hb hθ
    obtain rfl := Option.some.inj (h.symm.trans h'')
    exact hrespects

/-! ## Unification that binds nothing -/

/-- Two stores with the same variables and the same bindings are the same. -/
theorem ext_binding? (hsize : s'.size = s.size) (h : ∀ v, s'.binding? v = s.binding? v) : s' = s := by
  obtain ⟨cells⟩ := s
  obtain ⟨cells'⟩ := s'
  simp only [mk.injEq]
  refine Array.ext hsize fun i hi' hi => ?_
  simpa [binding?, Array.getElem?_eq_getElem hi, Array.getElem?_eq_getElem hi'] using h i

/-- A store with a new binding is not respected by what the variables resolved to before: the variable that is bound now
resolved to itself then, and it is not reached from what it is bound to. -/
theorem Grows.eq_of_respects (hgrows : s.Grows s') (hs : s.WellFormed)
    (hrespects : s'.Respects fun v => s.resolve (.var v)) : s' = s := by
  have hac := hs.acyclic
  have hs' := (hgrows.wellFormed hs).acyclic
  refine ext_binding? hgrows.size_eq fun v => ?_
  cases hv : s.binding? v with
  | some t => exact hgrows.binding? hv
  | none =>
    cases hv' : s'.binding? v with
    | none => rfl
    | some t =>
      have hresolve : s.resolve t = .var v := calc
        s.resolve t = t.subst fun w => s.resolve (.var w) := resolve_eq_subst hac t
        _ = s.resolve (.var v) := (hrespects v t hv').symm
        _ = .var v := by rw [resolve_var hac, hv]
      obtain ⟨w, hw, hreach⟩ := ((mem_resolve_iff hac).1 (by rw [hresolve]; exact List.mem_singleton_self v)).1
      have hcycle : Relation.ReflTransGen s'.Refers w v :=
        Relation.ReflTransGen.mono (fun _ _ ⟨u, hu, hmem⟩ => ⟨u, hgrows.binding? hu, hmem⟩) _ _ hreach
      exact absurd (Relation.TransGen.head' ⟨t, hv', hw⟩ hcycle) (hs'.not_refers_self v)

/-- Types that are equal already unify without a new binding, since what the variables resolve to is a solution. -/
theorem unify_of_resolve_eq (hs : s.WellFormed) (ha : s.Covers a) (hb : s.Covers b) (h : s.resolve a = s.resolve b) :
    s.unify a b = some s := by
  have hrespects := respects_resolve hs.acyclic
  have hsolves : s.Solves (fun v => s.resolve (.var v)) a b :=
    ⟨hrespects, (resolve_eq_iff hs.acyclic).1 h _ hrespects⟩
  obtain ⟨s', hunify, hrespects'⟩ := exists_unify hs ha hb hsolves
  rw [hunify, (unify_grows hs ha hb hunify).eq_of_respects hs hrespects']

/-- Types that can be dereferenced and are equal later on were equal before. -/
theorem Retains.resolve_eq_of_deref? (h : s.Retains s') (hs : s.Acyclic) (hs' : s'.Acyclic) {t u : Ty}
    (ha : s.deref? a = some t) (hb : s.deref? b = some u) (heq : s'.resolve a = s'.resolve b) :
    s.resolve a = s.resolve b := calc
  s.resolve a = t := resolve_of_deref? hs ha
  _ = s'.resolve a := (resolve_of_deref? hs' (h.deref? hs hs' ha)).symm
  _ = s'.resolve b := heq
  _ = u := resolve_of_deref? hs' (h.deref? hs hs' hb)
  _ = s.resolve b := (resolve_of_deref? hs hb).symm

/-- Unification in place succeeds as unification does. -/
theorem unifyInPlace_eq_true_iff (hs : s.Acyclic) : s.unifyInPlace a b = (true, s') ↔ s.unify a b = some s' := by
  rw [unifyInPlace_eq hs]
  cases s.unify a b <;> simp

theorem unifyInPlace_of_resolve_eq (hs : s.WellFormed) (ha : s.Covers a) (hb : s.Covers b)
    (h : s.resolve a = s.resolve b) : s.unifyInPlace a b = (true, s) :=
  (unifyInPlace_eq_true_iff hs.acyclic).2 (unify_of_resolve_eq hs ha hb h)

/-- **Equality is unification that binds nothing.** Two types of a well-formed store are equal up to bindings if and
only if they unify and the store stays as it is. So types that have been unified unify again, either way round, without a
new binding. Types that can be dereferenced unify if and only if they are equal, and the store stays as it is in either
case. -/
theorem equal_is_idle_unification (hs : s.WellFormed) (ha : s.Covers a) (hb : s.Covers b) :
    (s.equal a b = true ↔ s.unifyInPlace a b = (true, s)) ∧
    (∀ s', s.unifyInPlace a b = (true, s') →
      s'.unifyInPlace a b = (true, s') ∧ s'.unifyInPlace b a = (true, s')) ∧
    ((s.deref? a).isSome → (s.deref? b).isSome → s.unifyInPlace a b = (s.equal a b, s)) := by
  have hac := hs.acyclic
  have hidle : s.equal a b = true ↔ s.unifyInPlace a b = (true, s) := by
    rw [equal_iff hs ha hb]
    refine ⟨unifyInPlace_of_resolve_eq hs ha hb, fun h => ?_⟩
    exact resolve_unify hs ha hb ((unifyInPlace_eq_true_iff hac).1 h)
  refine ⟨hidle, fun s' h => ?_, fun hda hdb => ?_⟩
  · rw [unifyInPlace_eq_true_iff hac] at h
    have hgrows := unify_grows hs ha hb h
    have hs' := hgrows.wellFormed hs
    have heq := resolve_unify hs ha hb h
    exact ⟨unifyInPlace_of_resolve_eq hs' (hgrows.covers ha) (hgrows.covers hb) heq,
      unifyInPlace_of_resolve_eq hs' (hgrows.covers hb) (hgrows.covers ha) heq.symm⟩
  · cases h : s.equal a b with
    | true => exact hidle.1 h
    | false =>
      obtain ⟨t, ht⟩ := Option.isSome_iff_exists.1 hda
      obtain ⟨u, hu⟩ := Option.isSome_iff_exists.1 hdb
      rw [unifyInPlace_eq hac]
      cases hunify : s.unify a b with
      | none => rfl
      | some s' =>
        have hgrows := unify_grows hs ha hb hunify
        have hkeep : s.Retains s' := fun v t hv => hgrows.binding? hv
        have heq := hkeep.resolve_eq_of_deref? hac (hgrows.wellFormed hs).acyclic ht hu (resolve_unify hs ha hb hunify)
        rw [(equal_iff hs ha hb).2 heq] at h
        cases h

/-- To unify the second variable with arrays of integers binds the first one. After that nothing is left to bind. -/
theorem chainedStore_idle_unification :
    chainedStore.equal (.var 1) (.array .int) = false ∧
    chainedStore.unifyInPlace (.var 1) (.array .int) = (true, chainedStore.bind 0 .int) ∧
    (chainedStore.bind 0 .int).unifyInPlace (.array .int) (.var 1) = (true, chainedStore.bind 0 .int) := by
  have hfirst : chainedStore.unifyInPlace (.var 1) (.array .int) = (true, chainedStore.bind 0 .int) := by decide
  have hidle :=
    equal_is_idle_unification chainedStore_wellFormed (a := .var 1) (b := .array .int) (by decide) (by decide)
  exact ⟨by decide, hfirst, (hidle.2.1 _ hfirst).2⟩

/-! ## Many equations -/

/-- unify pairs one after another, whether or not those before could be unified, and say of each whether it could -/
def unifyEach : Store → List (Ty × Ty) → List Bool × Store
  | s, [] => ([], s)
  | s, p :: ps =>
    let first := s.unifyInPlace p.1 p.2
    let rest := first.2.unifyEach ps
    (first.1 :: rest.1, rest.2)

/-- the assignment respects the store and makes the two types of each pair the same -/
structure SolvesAll (s : Store) (θ : VarId → Ty) (ps : List (Ty × Ty)) : Prop where
  respects : s.Respects θ
  equal : ∀ p ∈ ps, p.1.subst θ = p.2.subst θ

theorem solvesAll_cons {ps : List (Ty × Ty)} :
    s.SolvesAll θ ((a, b) :: ps) ↔ s.Solves θ a b ∧ ∀ p ∈ ps, p.1.subst θ = p.2.subst θ := by
  refine ⟨fun h => ?_, fun h => ⟨h.1.respects, List.forall_mem_cons.2 ⟨h.1.equal, h.2⟩⟩⟩
  obtain ⟨hfirst, hrest⟩ := List.forall_mem_cons.1 h.equal
  exact ⟨⟨h.respects, hfirst⟩, hrest⟩

instance (s : Store) (ps : List (Ty × Ty)) : Decidable (s.CoversAll ps) :=
  inferInstanceAs (Decidable (∀ p ∈ ps, s.Covers p.1 ∧ s.Covers p.2))

theorem CoversAll.grows {ps : List (Ty × Ty)} (h : s.CoversAll ps) (hgrows : s.Grows s') : s'.CoversAll ps :=
  fun p hp => ⟨hgrows.covers (h p hp).1, hgrows.covers (h p hp).2⟩

theorem unifyInPlace_grows (hs : s.WellFormed) (ha : s.Covers a) (hb : s.Covers b) :
    s.Grows (s.unifyInPlace a b).2 := by
  rw [unifyInPlace_eq hs.acyclic]
  cases h : s.unify a b with
  | none => exact .refl s
  | some s' => exact unify_grows hs ha hb h

theorem unifyEach_grows {ps : List (Ty × Ty)} (hs : s.WellFormed) (hps : s.CoversAll ps) :
    s.Grows (s.unifyEach ps).2 := by
  induction ps generalizing s with
  | nil => exact .refl s
  | cons p ps ih =>
    have hfirst := unifyInPlace_grows hs hps.head.1 hps.head.2
    exact hfirst.trans (ih (hfirst.wellFormed hs) (hps.tail.grows hfirst))

/-- If every pair could be unified, the store in the end stands for the common solutions. -/
theorem unifyEach_solutions {ps : List (Ty × Ty)} (hs : s.WellFormed) (hps : s.CoversAll ps)
    (hall : false ∉ (s.unifyEach ps).1) : (s.unifyEach ps).2.Respects θ ↔ s.SolvesAll θ ps := by
  induction ps generalizing s with
  | nil => exact ⟨fun h => ⟨h, nofun⟩, fun h => h.respects⟩
  | cons p ps ih =>
    obtain ⟨a, b⟩ := p
    obtain ⟨ha, hb⟩ := hps.head
    simp only [unifyEach, List.mem_cons, not_or] at hall ⊢
    obtain ⟨hfirst, hrest⟩ := hall
    have hgrows := unifyInPlace_grows hs ha hb
    have hunify : s.unify a b = some (s.unifyInPlace a b).2 :=
      (unifyInPlace_eq_true_iff hs.acyclic).1 (Prod.ext (by simpa using hfirst) rfl)
    rw [ih (hgrows.wellFormed hs) (hps.tail.grows hgrows) hrest, solvesAll_cons, ← unify_solutions hs ha hb hunify]
    exact ⟨fun h => ⟨h.respects, h.equal⟩, fun h => ⟨h.1, h.2⟩⟩

/-- If there is a common solution, every pair can be unified. -/
theorem unifyEach_of_solution {ps : List (Ty × Ty)} (hs : s.WellFormed) (hps : s.CoversAll ps) (hθ : s.SolvesAll θ ps) :
    false ∉ (s.unifyEach ps).1 := by
  induction ps generalizing s with
  | nil => exact List.not_mem_nil
  | cons p ps ih =>
    obtain ⟨a, b⟩ := p
    obtain ⟨ha, hb⟩ := hps.head
    obtain ⟨hsolves, hrest⟩ := solvesAll_cons.1 hθ
    obtain ⟨s', hunify, hrespects⟩ := exists_unify hs ha hb hsolves
    have hgrows := unify_grows hs ha hb hunify
    simp only [unifyEach, (unifyInPlace_eq_true_iff hs.acyclic).2 hunify]
    exact List.not_mem_cons_of_ne_of_not_mem (by nofun)
      (ih (hgrows.wellFormed hs) (hps.tail.grows hgrows) ⟨hrespects, hrest⟩)

/-! ## Any order -/

/-- the same pairs in any order, each of them either way round -/
def Rearranged (ps qs : List (Ty × Ty)) : Prop :=
  (ps.map fun p => s(p.1, p.2)).Perm (qs.map fun q => s(q.1, q.2))

instance (ps qs : List (Ty × Ty)) : Decidable (Rearranged ps qs) :=
  inferInstanceAs (Decidable (List.Perm _ _))

namespace Rearranged

variable {ps qs : List (Ty × Ty)}

theorem symm (h : Rearranged ps qs) : Rearranged qs ps :=
  List.Perm.symm h

/-- What holds of all pairs either way round holds of them in any order. -/
theorem forall_mem {P : Ty → Ty → Prop} (hP : ∀ a b, P a b → P b a) (h : Rearranged ps qs)
    (hps : ∀ p ∈ ps, P p.1 p.2) : ∀ q ∈ qs, P q.1 q.2 := by
  intro q hq
  obtain ⟨p, hp, heq⟩ := List.mem_map.1 (h.mem_iff.2 (List.mem_map_of_mem hq))
  rcases Sym2.eq_iff.1 heq with ⟨h₁, h₂⟩ | ⟨h₁, h₂⟩
  · exact h₁ ▸ h₂ ▸ hps p hp
  · exact h₁ ▸ h₂ ▸ hP _ _ (hps p hp)

theorem coversAll (h : Rearranged ps qs) (hps : s.CoversAll ps) : s.CoversAll qs :=
  h.forall_mem (P := fun a b => s.Covers a ∧ s.Covers b) (fun _ _ => And.symm) hps

theorem solvesAll (h : Rearranged ps qs) (hθ : s.SolvesAll θ ps) : s.SolvesAll θ qs :=
  ⟨hθ.respects, h.forall_mem (P := fun a b => a.subst θ = b.subst θ) (fun _ _ => Eq.symm) hθ.equal⟩

end Rearranged

/-- If all pairs can be unified in one order, they can in any other. -/
theorem unifyEach_rearranged {ps qs : List (Ty × Ty)} (hs : s.WellFormed) (hps : s.CoversAll ps) (h : Rearranged ps qs)
    (hall : false ∉ (s.unifyEach ps).1) : false ∉ (s.unifyEach qs).1 := by
  have hfinal := ((unifyEach_grows hs hps).wellFormed hs).acyclic
  have hsolves := (unifyEach_solutions hs hps hall).1 (respects_resolve hfinal)
  exact unifyEach_of_solution hs (h.coversAll hps) (h.solvesAll hsolves)

/-- The store left in one order stands for the same assignments as that left in the other, so the same types resolve to
the same type. -/
theorem resolve_unifyEach_rearranged {ps qs : List (Ty × Ty)} (hs : s.WellFormed) (hps : s.CoversAll ps)
    (h : Rearranged ps qs) (hall : false ∉ (s.unifyEach ps).1) :
    (s.unifyEach ps).2.resolve a = (s.unifyEach ps).2.resolve b ↔
      (s.unifyEach qs).2.resolve a = (s.unifyEach qs).2.resolve b := by
  have hqs := h.coversAll hps
  have hfinal := ((unifyEach_grows hs hps).wellFormed hs).acyclic
  have hfinal' := ((unifyEach_grows hs hqs).wellFormed hs).acyclic
  rw [resolve_eq_iff hfinal, resolve_eq_iff hfinal']
  refine forall_congr' fun θ => imp_congr_left ?_
  rw [unifyEach_solutions hs hps hall, unifyEach_solutions hs hqs (unifyEach_rearranged hs hps h hall)]
  exact ⟨h.solvesAll, h.symm.solvesAll⟩

/-- **The order of equations does not matter.** Let pairs of types of a well-formed store be unified one after another,
in two orders and each pair either way round. Then all of them can be unified in the one order if and only if they can
in the other, and if they can, every type dereferences to the same in the two stores, or to nothing in both, and the
same types are equal. -/
theorem order_of_equations (hs : s.WellFormed) {ps qs : List (Ty × Ty)} (hps : s.CoversAll ps) (h : Rearranged ps qs) :
    (false ∉ (s.unifyEach ps).1 ↔ false ∉ (s.unifyEach qs).1) ∧
    (false ∉ (s.unifyEach ps).1 →
      (∀ t, (s.unifyEach ps).2.deref? t = (s.unifyEach qs).2.deref? t) ∧
      ∀ t u, s.Covers t → s.Covers u → (s.unifyEach ps).2.equal t u = (s.unifyEach qs).2.equal t u) := by
  have hqs := h.coversAll hps
  refine ⟨⟨unifyEach_rearranged hs hps h, unifyEach_rearranged hs hqs h.symm⟩, fun hall => ?_⟩
  have hgrows := unifyEach_grows hs hps
  have hgrows' := unifyEach_grows hs hqs
  have hfinal := hgrows.wellFormed hs
  have hfinal' := hgrows'.wellFormed hs
  refine ⟨fun t => Option.ext fun u => ?_, fun t u ht hu => ?_⟩
  · rw [deref?_eq_some_iff hfinal.acyclic, deref?_eq_some_iff hfinal'.acyclic]
    refine and_congr_right fun hu => ?_
    -- a type without variables resolves to itself
    have hsame := resolve_unifyEach_rearranged (a := t) (b := u) hs hps h hall
    rwa [resolve_closed hfinal.acyclic hu, resolve_closed hfinal'.acyclic hu] at hsame
  · rw [Bool.eq_iff_iff, equal_iff hfinal (hgrows.covers ht) (hgrows.covers hu),
      equal_iff hfinal' (hgrows'.covers ht) (hgrows'.covers hu)]
    exact resolve_unifyEach_rearranged hs hps h hall

/-- two unbound variables -/
def twoVars : Store :=
  (fresh {}).2.fresh.2

/-- In the one order the first variable is bound to the second, which is bound to integers then; in the other both are
bound to integers. What the variables dereference to is the same. -/
theorem crossed_bindings :
    (twoVars.unifyEach [(.var 0, .var 1), (.var 0, .int)]).2.binding? 0 = some (.var 1) ∧
    (twoVars.unifyEach [(.int, .var 0), (.var 1, .var 0)]).2.binding? 0 = some .int ∧
    ∀ t, (twoVars.unifyEach [(.var 0, .var 1), (.var 0, .int)]).2.deref? t =
      (twoVars.unifyEach [(.int, .var 0), (.var 1, .var 0)]).2.deref? t := by
  refine ⟨by decide, by decide, ?_⟩
  exact ((order_of_equations wellFormed_empty.fresh.fresh (s := twoVars) (by decide) (by decide)).2 (by decide)).1

end Store

end DualInference
