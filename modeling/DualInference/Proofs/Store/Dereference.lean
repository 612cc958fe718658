/-
Dereferencing gives the whole type or nothing.

What is left open in a type are the unbound variables that can be reached from it, through its structure and through
bindings (`mem_resolve_iff`). If there is one, dereferencing gives nothing; if there is none, it gives the resolved type
(`deref?_eq_some_iff`). So a dereferenced type has no variables, and it is the only such type that the type is equal to
(`deref?_whole_or_none`).
-/
import DualInference.Proofs.Store.Agreement
import DualInference.Proofs.Store.Evolution

namespace DualInference

namespace Store

variable {s : Store}

/-! ## What can be reached -/

/-- the variable stands in the type, or in a binding that is reached from the type -/
def Reaches (s : Store) (t : Ty) (v : VarId) : Prop :=
  ∃ w ∈ t.vars, Relation.ReflTransGen s.Refers w v

/-- What a bound variable leads to, its binding leads to. -/
theorem reflTransGen_of_bound {v w : VarId} {u : Ty} (hw : s.binding? w = some u) :
    Relation.ReflTransGen s.Refers w v ↔ v = w ∨ s.Reaches u v := by
  rw [Relation.ReflTransGen.cases_head_iff]
  refine or_congr eq_comm ⟨?_, ?_⟩
  · rintro ⟨x, ⟨u', hu', hx⟩, h⟩
    obtain rfl := Option.some.inj (hw.symm.trans hu')
    exact ⟨x, hx, h⟩
  · rintro ⟨x, hx, h⟩
    exact ⟨x, ⟨u, hw, hx⟩, h⟩

/-- An unbound variable leads nowhere. -/
theorem reflTransGen_of_unbound {v w : VarId} (hw : s.binding? w = none) :
    Relation.ReflTransGen s.Refers w v ↔ v = w := by
  rw [Relation.ReflTransGen.cases_head_iff, or_iff_left, eq_comm]
  rintro ⟨x, ⟨u, hu, _⟩, _⟩
  rw [hw] at hu
  cases hu

/-- The variables of a resolved type are the unbound ones that are reached. -/
theorem mem_resolve_iff (hs : s.Acyclic) {t : Ty} {v : VarId} :
    v ∈ (s.resolve t).vars ↔ s.Reaches t v ∧ s.binding? v = none := by
  induction t using hs.induction with
  | h t ih =>
    rw [resolve_eq hs, Ty.vars_subst, List.mem_flatMap, Reaches, ← exists_and_right]
    refine exists_congr fun w => ?_
    rw [and_assoc]
    refine and_congr_right fun hw => ?_
    cases hb : s.binding? w with
    | some u =>
      -- the bound variable itself is reached too, but it is not left open
      have hne : s.binding? v = none → v ≠ w := by
        rintro hv rfl
        rw [hv] at hb
        cases hb
      rw [reflTransGen_of_bound hb, Option.map_some, Option.getD_some, ih w hw u hb]
      exact ⟨fun h => ⟨.inr h.1, h.2⟩, fun h => ⟨h.1.resolve_left (hne h.2), h.2⟩⟩
    | none =>
      rw [reflTransGen_of_unbound hb, Option.map_none, Option.getD_none, Ty.vars, List.mem_singleton]
      exact ⟨fun h => ⟨h, h ▸ hb⟩, And.left⟩

/-! ## The dereferenced type -/

/-- A type that resolves to one without variables can be dereferenced. -/
theorem deref?_of_closed (hs : s.Acyclic) {t : Ty} (ht : (s.resolve t).vars = []) :
    s.deref? t = some (s.resolve t) := by
  induction t using hs.induction with
  | h t ih =>
    rw [deref?_eq hs, resolve_eq_subst hs t]
    refine Ty.subst?_eq_some fun v hv => ?_
    have hclosed : (s.resolve (.var v)).vars = [] := by
      rw [resolve_eq_subst hs, Ty.vars_subst, List.flatMap_eq_nil_iff] at ht
      exact ht v hv
    rw [resolve_var hs] at hclosed ⊢
    cases hb : s.binding? v with
    | some u =>
      rw [hb] at hclosed
      exact ih v hv u hb hclosed
    | none =>
      rw [hb] at hclosed
      cases hclosed

/-- Dereferencing gives the resolved type, if that has no variables. -/
theorem deref?_eq_some_iff (hs : s.Acyclic) {t u : Ty} : s.deref? t = some u ↔ u.vars = [] ∧ s.resolve t = u := by
  refine ⟨fun h => ⟨vars_deref? h, resolve_of_deref? hs h⟩, ?_⟩
  rintro ⟨hu, rfl⟩
  exact deref?_of_closed hs hu

/-- Dereferencing gives nothing if an unbound variable is reached. -/
theorem deref?_eq_none_iff (hs : s.Acyclic) {t : Ty} :
    s.deref? t = none ↔ ∃ v, s.Reaches t v ∧ s.binding? v = none := by
  simp only [← mem_resolve_iff hs]
  rw [Option.eq_none_iff_forall_ne_some]
  refine ⟨fun h => List.exists_mem_of_ne_nil _ fun hclosed => h _ (deref?_of_closed hs hclosed), ?_⟩
  rintro ⟨v, hv⟩ u hu
  obtain ⟨hclosed, rfl⟩ := (deref?_eq_some_iff hs).1 hu
  rw [hclosed] at hv
  cases hv

/-- **The whole type or nothing.** Dereferencing a type of a well-formed store gives nothing if and only if an unbound
variable is reached from it. Otherwise it gives a type without variables, which is equal to the type, stays what it is
when dereferenced again, and is the only one of that sort. Two types that can be dereferenced are equal if and only if
they give the same type. -/
theorem deref?_whole_or_none (hs : s.WellFormed) {t : Ty} (ht : s.Covers t) :
    (s.deref? t = none ↔ ∃ v, s.Reaches t v ∧ s.binding? v = none) ∧
    (s.deref? t ≠ none → ∃ u, s.deref? t = some u ∧ u.vars = [] ∧ s.equal t u = true ∧ s.deref? u = some u ∧
      ∀ w : Ty, w.vars = [] → s.equal t w = true → w = u) ∧
    ∀ t', s.Covers t' → s.deref? t ≠ none → s.deref? t' ≠ none →
      (s.equal t t' = true ↔ s.deref? t = s.deref? t') := by
  have hac := hs.acyclic
  refine ⟨deref?_eq_none_iff hac, fun h => ?_, fun t' ht' h h' => ?_⟩
  · obtain ⟨u, hu⟩ := Option.ne_none_iff_exists'.1 h
    obtain ⟨hclosed, hres⟩ := (deref?_eq_some_iff hac).1 hu
    refine ⟨u, hu, hclosed, ?_, deref?_closed hac hclosed, fun w hw heq => ?_⟩
    · rw [equal_iff hs ht (s.covers_closed hclosed), hres, resolve_closed hac hclosed]
    · rw [equal_iff hs ht (s.covers_closed hw), hres, resolve_closed hac hw] at heq
      exact heq.symm
  · obtain ⟨u, hu⟩ := Option.ne_none_iff_exists'.1 h
    obtain ⟨u', hu'⟩ := Option.ne_none_iff_exists'.1 h'
    rw [equal_iff hs ht ht', resolve_of_deref? hac hu, resolve_of_deref? hac hu', hu, hu', Option.some.injEq]

/-- four variables, the first unbound, the second bound to arrays of the first, the third to integers, the last to pairs
of an integer and a reference to one -/
def chainedStore : Store :=
  (((fresh {}).2.fresh.2.fresh.2.fresh.2.bind 1 (.array (.var 0))).bind 2 .int).bind 3 (.tuple [.var 2, .ref (.var 2)])

theorem chainedStore_wellFormed : chainedStore.WellFormed :=
  ((wellFormed_empty.fresh.fresh.fresh.fresh.bind ⟨by decide, by decide, by decide, by decide⟩).bind
    ⟨by decide, by decide, by decide, by decide⟩).bind ⟨by decide, by decide, by decide, by decide⟩

/-- References to the second variable lead to the unbound one. The last variable gives a pair, is equal to no other type
without variables, and is equal to every type that gives the same pair. -/
theorem chainedStore_whole_or_none :
    (∃ v, chainedStore.Reaches (.ref (.var 1)) v ∧ chainedStore.binding? v = none) ∧
    chainedStore.deref? (.var 3) = some (.tuple [.int, .ref .int]) ∧
    (∀ w : Ty, w.vars = [] → chainedStore.equal (.var 3) w = true → w = .tuple [.int, .ref .int]) ∧
    chainedStore.equal (.var 3) (.tuple [.var 2, .ref .int]) = true := by
  have hnone := deref?_whole_or_none chainedStore_wellFormed (t := .ref (.var 1)) (by decide)
  have hwhole := deref?_whole_or_none chainedStore_wellFormed (t := .var 3) (by decide)
  have hpair : chainedStore.deref? (.var 3) = some (.tuple [.int, .ref .int]) := by decide
  refine ⟨hnone.1.1 (by decide), hpair, ?_, ?_⟩
  · obtain ⟨u, hu, _, _, _, honly⟩ := hwhole.2.1 (by decide)
    obtain rfl := Option.some.inj (hpair.symm.trans hu)
    exact honly
  · exact (hwhole.2.2 (.tuple [.var 2, .ref .int]) (by decide) (by decide) (by decide)).2 (by decide)

end Store

end DualInference
