/-
Equality up to bindings.

In a well-formed store two types compare equal if they come to the same type once all bindings are followed
(`equal_iff`). So equality up to bindings is an equivalence, and it outlasts everything that keeps the bindings there
are: what is bound stays replaced, whatever becomes of the variables that were unbound (`Retains.resolve_resolve`).
A dereferenced type lasts for the same reason (`Retains.deref?`).
-/
import DualInference.Proofs.Store.Matching

namespace DualInference

namespace Store

variable {s s' : Store}

/-! ## The resolved type, part by part -/

theorem resolve_scalar (hs : s.Acyclic) (c : Scalar) : s.resolve (.scalar c) = .scalar c := by
  rw [resolve_eq hs, Ty.subst]

theorem resolve_wrap (hs : s.Acyclic) (w : Wrapper) (t : Ty) : s.resolve (.wrap w t) = .wrap w (s.resolve t) := by
  rw [resolve_eq hs, Ty.subst, ← resolve_eq hs]

theorem resolve_compound (hs : s.Acyclic) (f : Former) (ts : List Ty) :
    s.resolve (.compound f ts) = .compound f (ts.map s.resolve) := by
  rw [resolve_eq hs, Ty.subst, Ty.substList_eq_map]
  congr 1
  exact List.map_congr_left fun t _ => (resolve_eq hs t).symm

theorem resolve_var (hs : s.Acyclic) (v : VarId) :
    s.resolve (.var v) = match s.binding? v with
      | some u => s.resolve u
      | none => .var v := by
  rw [resolve_eq hs, Ty.subst]
  cases s.binding? v <;> rfl

/-- To resolve a type is to put for each variable what it resolves to. -/
theorem resolve_eq_subst (hs : s.Acyclic) (t : Ty) : s.resolve t = t.subst fun v => s.resolve (.var v) := by
  rw [resolve_eq hs]
  refine Ty.subst_congr fun v _ => ?_
  rw [resolve_var hs]
  cases s.binding? v <;> rfl

mutual

theorem resolve_subst (hs : s.Acyclic) (f : VarId → Ty) :
    ∀ t : Ty, s.resolve (t.subst f) = t.subst fun v => s.resolve (f v)
  | .scalar c => by rw [Ty.subst, Ty.subst, resolve_scalar hs]
  | .wrap w t => by rw [Ty.subst, Ty.subst, resolve_wrap hs, resolve_subst hs f t]
  | .compound p ts => by rw [Ty.subst, Ty.subst, resolve_compound hs, map_resolve_subst hs f ts]
  | .var v => rfl

theorem map_resolve_subst (hs : s.Acyclic) (f : VarId → Ty) :
    ∀ ts : List Ty, (Ty.substList f ts).map s.resolve = Ty.substList (fun v => s.resolve (f v)) ts
  | [] => rfl
  | t :: ts => by
    rw [Ty.substList, Ty.substList, List.map_cons, resolve_subst hs f t, map_resolve_subst hs f ts]

end

/-- Bindings followed at the root first are followed all the same. -/
theorem resolve_prune (hs : s.Acyclic) (t : Ty) : s.resolve (s.prune t) = s.resolve t := by
  induction t using hs.induction with
  | h t ih =>
    cases t with
    | var v =>
      rw [prune_var hs, resolve_var hs]
      cases hb : s.binding? v with
      | some u => exact ih v (by simp [Ty.vars]) u hb
      | none =>
        dsimp only
        rw [resolve_var hs, hb]
    | scalar c => rw [prune_scalar]
    | wrap w t => rw [prune_wrap]
    | compound f ts => rw [prune_compound]

theorem resolve_of_prune_var (hs : s.Acyclic) {t : Ty} {v : VarId} (h : s.prune t = .var v) : s.resolve t = .var v := by
  rw [← resolve_prune hs, h, resolve_var hs, binding?_of_prune hs h]

theorem resolve_ne_var (hs : s.Acyclic) {t : Ty} (ht : ∀ v, t ≠ .var v) (w : VarId) : s.resolve t ≠ .var w := by
  cases t with
  | var v => exact absurd rfl (ht v)
  | scalar c =>
    rw [resolve_scalar hs]
    nofun
  | wrap w t =>
    rw [resolve_wrap hs]
    nofun
  | compound f ts =>
    rw [resolve_compound hs]
    nofun

theorem resolve_closed (hs : s.Acyclic) {t : Ty} (ht : t.vars = []) : s.resolve t = t := by
  rw [resolve_eq hs, subst_closed _ ht]

/-- A dereferenced type is the resolved one. -/
theorem resolve_of_deref? (hs : s.Acyclic) {t u : Ty} (h : s.deref? t = some u) : s.resolve t = u := by
  induction t using hs.induction generalizing u with
  | h t ih =>
    rw [deref?_eq hs] at h
    obtain ⟨hsome, rfl⟩ := Ty.eq_subst_of_subst? h
    rw [resolve_eq hs]
    refine Ty.subst_congr fun v hv => ?_
    obtain ⟨x, hx⟩ := Option.isSome_iff_exists.1 (hsome v hv)
    obtain ⟨b, hb, hbx⟩ := Option.bind_eq_some_iff.1 hx
    rw [hx, hb, Option.map_some, Option.getD_some, Option.getD_some]
    exact ih v hv b hb hbx

/-! ## Equality -/

section

variable {meet : Store → Ty → Ty → Option Store} {G : Store → Ty → Ty → Prop}

mutual

/-- If resolved types are compared wherever variables meet, then they are compared everywhere. -/
theorem alongside_eq_resolve (hG : Hereditary G) (hs : s.Acyclic)
    (hmeet : ∀ a b, G s a b → Meets a b → meet s a b = if s.resolve a = s.resolve b then some s else none) :
    ∀ a b : Ty, G s a b → alongside meet s a b = if s.resolve a = s.resolve b then some s else none
  | .var v, b, h => by
    simp only [alongside]
    exact hmeet _ _ h (.inl ⟨v, rfl⟩)
  | .scalar p, .var w, h => by
    simp only [alongside]
    exact hmeet _ _ h (.inr ⟨w, rfl⟩)
  | .wrap p t, .var w, h => by
    simp only [alongside]
    exact hmeet _ _ h (.inr ⟨w, rfl⟩)
  | .compound p ts, .var w, h => by
    simp only [alongside]
    exact hmeet _ _ h (.inr ⟨w, rfl⟩)
  | .scalar p, .scalar q, _ => by
    simp only [alongside, resolve_scalar hs, Ty.scalar.injEq]
  | .wrap p t, .wrap q u, h => by
    rw [alongside, alongside_eq_resolve hG hs hmeet t u (hG.wrap h), resolve_wrap hs, resolve_wrap hs]
    by_cases hp : p = q <;> simp [hp]
  | .compound p ts, .compound q us, h => by
    rw [alongside, resolve_compound hs, resolve_compound hs]
    by_cases hlen : ts.length = us.length
    · rw [alongsideList_eq_resolve hG hs hmeet ts us hlen (hG.compound h)]
      by_cases hp : p = q <;> simp [hp, hlen]
    · have hne : ts.map s.resolve ≠ us.map s.resolve := fun heq => hlen (by simpa using congrArg List.length heq)
      simp [hlen, hne]
  | .scalar _, .wrap _ _, _ => by simp [alongside, resolve_scalar hs, resolve_wrap hs]
  | .scalar _, .compound _ _, _ => by simp [alongside, resolve_scalar hs, resolve_compound hs]
  | .wrap _ _, .scalar _, _ => by simp [alongside, resolve_scalar hs, resolve_wrap hs]
  | .wrap _ _, .compound _ _, _ => by simp [alongside, resolve_wrap hs, resolve_compound hs]
  | .compound _ _, .scalar _, _ => by simp [alongside, resolve_scalar hs, resolve_compound hs]
  | .compound _ _, .wrap _ _, _ => by simp [alongside, resolve_wrap hs, resolve_compound hs]

theorem alongsideList_eq_resolve (hG : Hereditary G) (hs : s.Acyclic)
    (hmeet : ∀ a b, G s a b → Meets a b → meet s a b = if s.resolve a = s.resolve b then some s else none) :
    ∀ ts us : List Ty, ts.length = us.length → (∀ t ∈ ts, ∀ u ∈ us, G s t u) →
      alongsideList meet s ts us = if ts.map s.resolve = us.map s.resolve then some s else none
  | [], [], _, _ => by simp [alongsideList]
  | [], _ :: _, hlen, _ => by cases hlen
  | _ :: _, [], hlen, _ => by cases hlen
  | t :: ts, u :: us, hlen, h => by
    have hrest : ∀ t' ∈ ts, ∀ u' ∈ us, G s t' u' := fun t' ht' u' hu' => h t' (by simp [ht']) u' (by simp [hu'])
    rw [alongsideList, alongside_eq_resolve hG hs hmeet t u (h t (by simp) u (by simp))]
    by_cases htu : s.resolve t = s.resolve u
    · simp [htu, alongsideList_eq_resolve hG hs hmeet ts us (Nat.succ.inj hlen) hrest]
    · simp [htu]

end

end

/-- With enough levels, a comparison that binds nothing compares resolved types. -/
theorem reconcileWithin_none : ∀ (n : Nat) (a b : Ty), Enough n s a b →
    reconcileWithin (fun _ _ _ => none) n s a b = if s.resolve a = s.resolve b then some s else none := by
  intro n
  induction n with
  | zero =>
    intro a b h
    exact alongside_eq_resolve (enough_hereditary 0) h.wellFormed.acyclic
      (fun a b h hm => absurd (h.pos hm) (Nat.lt_irrefl 0)) a b h
  | succ n ih =>
    intro a b h
    have hs := h.wellFormed.acyclic
    refine alongside_eq_resolve (enough_hereditary (n + 1)) hs (fun a b h hm => ?_) a b h
    have hne : ∀ {c d : Ty} {v : VarId}, s.prune c = .var v → (∀ w, s.prune d ≠ .var w) →
        s.resolve c ≠ s.resolve d := by
      intro c d v hc hd heq
      rw [resolve_of_prune_var hs hc, ← resolve_prune hs d] at heq
      exact resolve_ne_var hs hd v heq.symm
    cases hpa : s.prune a with
    | var v =>
      cases hpb : s.prune b with
      | var w =>
        dsimp only
        rw [resolve_of_prune_var hs hpa, resolve_of_prune_var hs hpb]
        simp only [Ty.var.injEq]
      | _ =>
        dsimp only
        rw [if_neg (hne hpa (by simp [hpb]))]
    | _ =>
      cases hpb : s.prune b with
      | var w =>
        dsimp only
        rw [if_neg (hne hpb (by simp [hpa])).symm]
      | _ =>
        have h' := h.prune hm (by simp [hpa]) (by simp [hpb])
        have hrec := ih _ _ h'
        rw [resolve_prune hs, resolve_prune hs, hpa, hpb] at hrec
        exact hrec

/-- **Equality up to bindings.** Two types of a well-formed store compare equal if they resolve to the same type. -/
theorem equal_iff (hs : s.WellFormed) {a b : Ty} (ha : s.Covers a) (hb : s.Covers b) :
    s.equal a b = true ↔ s.resolve a = s.resolve b := by
  unfold equal reconcile
  rw [reconcileWithin_none _ a b (hs.enough ha hb (Nat.le_refl _))]
  by_cases h : s.resolve a = s.resolve b <;> simp [h]

/-! ## In later stores -/

namespace Retains

/-- Whatever was resolved before comes to what it would have come to from the start. -/
theorem resolve_resolve (h : s.Retains s') (hs : s.Acyclic) (hs' : s'.Acyclic) (t : Ty) :
    s'.resolve (s.resolve t) = s'.resolve t := by
  induction t using hs.induction with
  | h t ih =>
    rw [resolve_eq hs, resolve_subst hs', resolve_eq_subst hs' t]
    refine Ty.subst_congr fun v hv => ?_
    cases hb : s.binding? v with
    | none => rfl
    | some u =>
      rw [Option.map_some, Option.getD_some, ih v hv u hb, resolve_var hs' v, h v u hb]

/-- A type without open variables stays what it is. -/
theorem deref? (h : s.Retains s') (hs : s.Acyclic) (hs' : s'.Acyclic) {t u : Ty} (ht : s.deref? t = some u) :
    s'.deref? t = some u := by
  induction t using hs.induction generalizing u with
  | h t ih =>
    rw [deref?_eq hs] at ht
    rw [deref?_eq hs', ← ht]
    refine Ty.subst?_congr fun v hv => ?_
    obtain ⟨x, hx⟩ := Option.isSome_iff_exists.1 ((Ty.eq_subst_of_subst? ht).1 v hv)
    obtain ⟨b, hb, hbx⟩ := Option.bind_eq_some_iff.1 hx
    rw [hb, h v b hb, Option.bind_some, Option.bind_some, hbx, ih v hv b hb hbx]

/-- Types that are equal up to bindings stay so. -/
theorem equal (h : s.Retains s') (hs : s.WellFormed) (hs' : s'.WellFormed) (hsize : s.size ≤ s'.size) {a b : Ty}
    (ha : s.Covers a) (hb : s.Covers b) (heq : s.equal a b = true) : s'.equal a b = true := by
  have ha' : s'.Covers a := fun v hv => (ha v hv).trans_le hsize
  have hb' : s'.Covers b := fun v hv => (hb v hv).trans_le hsize
  rw [equal_iff hs ha hb] at heq
  rw [equal_iff hs' ha' hb', ← h.resolve_resolve hs.acyclic hs'.acyclic a, heq,
    h.resolve_resolve hs.acyclic hs'.acyclic b]

end Retains

end Store

end DualInference
