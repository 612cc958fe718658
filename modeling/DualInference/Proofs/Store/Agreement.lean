/-
Unifications that succeed, as runs.

A run goes through pairs of types, from the first to the last, and makes the two types of each pair equal (`Agree`):
equal heads are taken off, and where a variable stands on either side both sides are pruned and the variable is bound.
Every unification that succeeds is such a run (`unify_agree`). What such a run does to the store is then read off its
steps, without a look at levels or at the order in which two types are gone through:
- an acyclic store stays acyclic, and bindings stay (`Agree.acyclic`, `Agree.retains`), whether or not the types are of
  the store;
- if they are, the store grows, and the types of each pair resolve to the same type in the end (`Agree.resolves`);
- only variables of the resolved types are bound (`Agree.binding?_or`).
-/
import DualInference.Proofs.Store.Resolved

namespace DualInference

namespace Store

variable {s s' : Store}

/-! ## Runs -/

/-- a run through pairs of types, from one store to another, that makes the two types of each pair equal -/
inductive Agree : Store → List (Ty × Ty) → Store → Prop
  | done (s : Store) : Agree s [] s
  | scalar {s s' : Store} {c : Scalar} {rest : List (Ty × Ty)} (h : Agree s rest s') :
    Agree s ((.scalar c, .scalar c) :: rest) s'
  | wrap {s s' : Store} {w : Wrapper} {t u : Ty} {rest : List (Ty × Ty)} (h : Agree s ((t, u) :: rest) s') :
    Agree s ((.wrap w t, .wrap w u) :: rest) s'
  | compound {s s' : Store} {f : Former} {ts us : List Ty} {rest : List (Ty × Ty)} (hlen : ts.length = us.length)
    (h : Agree s (ts.zip us ++ rest) s') : Agree s ((.compound f ts, .compound f us) :: rest) s'
  | pruned {s s' : Store} {a b : Ty} {rest : List (Ty × Ty)} (h : Agree s ((s.prune a, s.prune b) :: rest) s') :
    Agree s ((a, b) :: rest) s'
  | same {s s' : Store} {a b : Ty} {rest : List (Ty × Ty)} (v : VarId) (ha : s.prune a = .var v)
    (hb : s.prune b = .var v) (h : Agree s rest s') : Agree s ((a, b) :: rest) s'
  | bind {s s' : Store} {a b : Ty} {rest : List (Ty × Ty)} (v : VarId) (t : Ty)
    (hab : s.prune a = .var v ∧ s.prune b = t ∨ s.prune b = .var v ∧ s.prune a = t) (habsent : s.occurs v t = false)
    (h : Agree (s.bind v t) rest s') : Agree s ((a, b) :: rest) s'

section

variable {meet : Store → Ty → Ty → Option Store}

/-- what comes of a pair where variables meet is the first step, or the first steps, of a run -/
def MeetsAgree (meet : Store → Ty → Ty → Option Store) : Prop :=
  ∀ {s a b s₁}, meet s a b = some s₁ → ∀ {rest s'}, Agree s₁ rest s' → Agree s ((a, b) :: rest) s'

mutual

theorem alongside_agree (hmeet : MeetsAgree meet) : ∀ {a b : Ty} {s s₁ : Store}, alongside meet s a b = some s₁ →
    ∀ {rest : List (Ty × Ty)} {s' : Store}, Agree s₁ rest s' → Agree s ((a, b) :: rest) s'
  | .var v, b, s, s₁, h, rest, s', hrest => by
    simp only [alongside] at h
    exact hmeet h hrest
  | .scalar p, .var w, s, s₁, h, rest, s', hrest => by
    simp only [alongside] at h
    exact hmeet h hrest
  | .wrap p t, .var w, s, s₁, h, rest, s', hrest => by
    simp only [alongside] at h
    exact hmeet h hrest
  | .compound p ts, .var w, s, s₁, h, rest, s', hrest => by
    simp only [alongside] at h
    exact hmeet h hrest
  | .scalar p, .scalar q, s, s₁, h, rest, s', hrest => by
    simp only [alongside] at h
    split at h
    · rename_i hp
      cases h
      subst hp
      exact .scalar hrest
    · cases h
  | .wrap p t, .wrap q u, s, s₁, h, rest, s', hrest => by
    simp only [alongside] at h
    split at h
    · rename_i hp
      subst hp
      exact .wrap (alongside_agree hmeet (a := t) (b := u) h hrest)
    · cases h
  | .compound p ts, .compound q us, s, s₁, h, rest, s', hrest => by
    simp only [alongside] at h
    split at h
    · rename_i hp
      obtain ⟨rfl, hlen⟩ := hp
      exact .compound hlen (alongsideList_agree hmeet hlen h hrest)
    · cases h
  | .scalar _, .wrap _ _, _, _, h, _, _, _ => by simp [alongside] at h
  | .scalar _, .compound _ _, _, _, h, _, _, _ => by simp [alongside] at h
  | .wrap _ _, .scalar _, _, _, h, _, _, _ => by simp [alongside] at h
  | .wrap _ _, .compound _ _, _, _, h, _, _, _ => by simp [alongside] at h
  | .compound _ _, .scalar _, _, _, h, _, _, _ => by simp [alongside] at h
  | .compound _ _, .wrap _ _, _, _, h, _, _, _ => by simp [alongside] at h

theorem alongsideList_agree (hmeet : MeetsAgree meet) : ∀ {ts us : List Ty} {s s₁ : Store}, ts.length = us.length →
    alongsideList meet s ts us = some s₁ → ∀ {rest : List (Ty × Ty)} {s' : Store}, Agree s₁ rest s' →
    Agree s (ts.zip us ++ rest) s'
  | [], [], s, s₁, _, h, rest, s', hrest => by
    cases h
    exact hrest
  | [], _ :: _, _, _, hlen, _, _, _, _ => by cases hlen
  | _ :: _, [], _, _, hlen, _, _, _, _ => by cases hlen
  | t :: ts, u :: us, s, s₁, hlen, h, rest, s', hrest => by
    rw [alongsideList] at h
    cases hfirst : alongside meet s t u with
    | none =>
      rw [hfirst] at h
      cases h
    | some s₂ =>
      rw [hfirst] at h
      exact alongside_agree hmeet hfirst (alongsideList_agree hmeet (Nat.succ.inj hlen) h hrest)

end

end

/-- What an assignment leaves behind, it has bound. -/
theorem assign_eq_some {v : VarId} {t : Ty} : s.assign v t = some s' ↔ s.occurs v t = false ∧ s' = s.bind v t := by
  unfold assign
  by_cases hocc : s.occurs v t = true
  · simp [hocc]
  · simp [hocc, eq_comm]

theorem reconcileWithin_agree : ∀ (n : Nat) {a b : Ty} {s s₁ : Store}, reconcileWithin assign n s a b = some s₁ →
    ∀ {rest : List (Ty × Ty)} {s' : Store}, Agree s₁ rest s' → Agree s ((a, b) :: rest) s' := by
  intro n
  induction n with
  | zero => exact alongside_agree fun h => by cases h
  | succ n ih =>
    refine alongside_agree fun {s a b s₁} h rest s' hrest => ?_
    split at h
    · rename_i v w ha hb
      split at h
      · rename_i hvw
        cases h
        exact .same v ha (hvw ▸ hb) hrest
      · obtain ⟨habsent, rfl⟩ := assign_eq_some.1 h
        exact .bind v (.var w) (.inl ⟨ha, hb⟩) habsent hrest
    · rename_i v ha _
      obtain ⟨habsent, rfl⟩ := assign_eq_some.1 h
      exact .bind v _ (.inl ⟨ha, rfl⟩) habsent hrest
    · rename_i w hb _
      obtain ⟨habsent, rfl⟩ := assign_eq_some.1 h
      exact .bind w _ (.inr ⟨hb, rfl⟩) habsent hrest
    · exact .pruned (ih h hrest)

/-- A unification that succeeds is a run. -/
theorem unify_agree {a b : Ty} (h : s.unify a b = some s') : Agree s [(a, b)] s' :=
  reconcileWithin_agree _ h (.done s')

/-! ## What a run keeps -/

/-- What is bound is unbound before. -/
theorem unbound_of_pruned (hs : s.Acyclic) {a b t : Ty} {v : VarId}
    (hab : s.prune a = .var v ∧ s.prune b = t ∨ s.prune b = .var v ∧ s.prune a = t) : s.binding? v = none := by
  rcases hab with ⟨ha, _⟩ | ⟨hb, _⟩
  · exact binding?_of_prune hs ha
  · exact binding?_of_prune hs hb

theorem Retains.refl (s : Store) : s.Retains s :=
  fun _ _ h => h

theorem Retains.bind {v : VarId} (hunbound : s.binding? v = none) (t : Ty) : s.Retains (s.bind v t) := by
  intro w u hw
  by_cases hlt : v < s.size
  · have hne : w ≠ v := by
      rintro rfl
      rw [hunbound] at hw
      cases hw
    rw [binding?_bind s hlt, if_neg hne, hw]
  · rwa [bind_of_size_le (Nat.le_of_not_lt hlt)]

namespace Agree

variable {ps : List (Ty × Ty)}

theorem acyclic (h : Agree s ps s') (hs : s.Acyclic) : s'.Acyclic := by
  induction h with
  | done => exact hs
  | scalar _ ih | wrap _ ih | compound _ _ ih | pruned _ ih | same _ _ _ _ ih => exact ih hs
  | bind v t hab habsent _ ih => exact ih (hs.bind_absent (unbound_of_pruned hs hab) habsent)

theorem retains (h : Agree s ps s') (hs : s.Acyclic) : s.Retains s' := by
  induction h with
  | done => exact .refl _
  | scalar _ ih | wrap _ ih | compound _ _ ih | pruned _ ih | same _ _ _ _ ih => exact ih hs
  | bind v t hab habsent _ ih =>
    have hunbound := unbound_of_pruned hs hab
    exact (Retains.bind hunbound t).trans (ih (hs.bind_absent hunbound habsent))

end Agree

/-- if the first store is acyclic then so is the second, and its bindings are there in the second -/
def Lasts (s s' : Store) : Prop :=
  s.Acyclic → s'.Acyclic ∧ s.Retains s'

namespace Lasts

theorem refl (s : Store) : s.Lasts s :=
  fun hs => ⟨hs, .refl s⟩

theorem trans {s'' : Store} (h : s.Lasts s') (h' : s'.Lasts s'') : s.Lasts s'' := by
  intro hs
  obtain ⟨hs', hkeep⟩ := h hs
  obtain ⟨hs'', hkeep'⟩ := h' hs'
  exact ⟨hs'', hkeep.trans hkeep'⟩

theorem fresh (s : Store) : s.Lasts s.fresh.2 :=
  fun hs => ⟨hs.fresh, fun v p hv => by rw [binding?_fresh, hv]⟩

/-- Unification keeps an acyclic store acyclic, and the bindings in it, also where the types are not of the store. -/
theorem unify {a b : Ty} (h : s.unify a b = some s') : s.Lasts s' :=
  fun hs => ⟨(unify_agree h).acyclic hs, (unify_agree h).retains hs⟩

end Lasts

/-! ## What a run brings about -/

/-- both types of each pair are of the store -/
def CoversAll (s : Store) (ps : List (Ty × Ty)) : Prop :=
  ∀ p ∈ ps, s.Covers p.1 ∧ s.Covers p.2

namespace CoversAll

variable {a b : Ty} {ps rest : List (Ty × Ty)}

theorem cons (ha : s.Covers a) (hb : s.Covers b) (h : s.CoversAll rest) : s.CoversAll ((a, b) :: rest) := by
  intro p hp
  rcases List.mem_cons.1 hp with rfl | hp
  · exact ⟨ha, hb⟩
  · exact h p hp

theorem tail (h : s.CoversAll ((a, b) :: rest)) : s.CoversAll rest :=
  fun p hp => h p (List.mem_cons_of_mem _ hp)

theorem head (h : s.CoversAll ((a, b) :: rest)) : s.Covers a ∧ s.Covers b :=
  h (a, b) List.mem_cons_self

theorem parts {f : Former} {ts us : List Ty} (h : s.CoversAll ((.compound f ts, .compound f us) :: rest)) :
    s.CoversAll (ts.zip us ++ rest) := by
  intro p hp
  rcases List.mem_append.1 hp with hp | hp
  · obtain ⟨ht, hu⟩ := List.of_mem_zip hp
    exact ⟨h.head.1.part ht, h.head.2.part hu⟩
  · exact h.tail p hp

theorem pruned (hs : s.WellFormed) (h : s.CoversAll ((a, b) :: rest)) :
    s.CoversAll ((s.prune a, s.prune b) :: rest) :=
  .cons (hs.covers_prune h.head.1) (hs.covers_prune h.head.2) h.tail

/-- The binding that a pair of variables and types of the store leads to is proper. -/
theorem proper (hs : s.WellFormed) (h : s.CoversAll ((a, b) :: rest)) {v : VarId} {t : Ty}
    (hab : s.prune a = .var v ∧ s.prune b = t ∨ s.prune b = .var v ∧ s.prune a = t) (habsent : s.occurs v t = false) :
    s.Proper v t := by
  have hca := hs.covers_prune h.head.1
  have hcb := hs.covers_prune h.head.2
  have hunbound := unbound_of_pruned hs.acyclic hab
  rcases hab with ⟨ha, rfl⟩ | ⟨hb, rfl⟩
  · exact ⟨hca v (by simp [ha, Ty.vars]), hunbound, hcb, habsent⟩
  · exact ⟨hcb v (by simp [hb, Ty.vars]), hunbound, hca, habsent⟩

theorem bind (h : s.CoversAll ps) (v : VarId) (t : Ty) : (s.bind v t).CoversAll ps :=
  fun p hp => ⟨fun x hx => by rw [size_bind]; exact (h p hp).1 x hx, fun x hx => by rw [size_bind]; exact (h p hp).2 x hx⟩

end CoversAll

/-- In a later store a pruned type resolves to what the type does. -/
theorem Retains.resolve_prune (h : s.Retains s') (hs : s.Acyclic) (hs' : s'.Acyclic) (t : Ty) :
    s'.resolve (s.prune t) = s'.resolve t := by
  rw [← h.resolve_resolve hs hs' (s.prune t), Store.resolve_prune hs, h.resolve_resolve hs hs']

/-- Only unbound variables are left in a resolved type. -/
theorem unbound_of_mem_resolve (hs : s.Acyclic) {t : Ty} {v : VarId} (hv : v ∈ (s.resolve t).vars) :
    s.binding? v = none := by
  induction t using hs.induction with
  | h t ih =>
    rw [resolve_eq hs, Ty.vars_subst, List.mem_flatMap] at hv
    obtain ⟨w, hw, hv⟩ := hv
    cases hb : s.binding? w with
    | some u =>
      rw [hb] at hv
      exact ih w hw u hb hv
    | none =>
      rw [hb] at hv
      obtain rfl : v = w := List.mem_singleton.1 hv
      exact hb

/-- A variable is reachable and unbound if the resolved type mentions it. -/
theorem occurs_iff_mem_resolve (hs : s.Acyclic) (v : VarId) (t : Ty) :
    s.occurs v t = true ↔ v ∈ (s.resolve t).vars := by
  induction t using hs.induction with
  | h t ih =>
    rw [occurs_eq_any hs, List.any_eq_true, resolve_eq hs, Ty.vars_subst, List.mem_flatMap]
    refine exists_congr fun w => and_congr_right fun hw => ?_
    rw [occurs_var hs]
    cases hb : s.binding? w with
    | some u => exact ih w hw u hb
    | none =>
      change (w == v) = true ↔ v ∈ [w]
      rw [beq_iff_eq, List.mem_singleton, eq_comm]

/-- A proper binding brings in no variables but those of the type that is bound to. -/
theorem mem_resolve_bind (hs : s.WellFormed) {v : VarId} {t : Ty} (hp : s.Proper v t) {c : Ty} {x : VarId}
    (hx : x ∈ ((s.bind v t).resolve c).vars) : x ∈ (s.resolve c).vars ∨ x ∈ (s.resolve t).vars := by
  have hs' := (hs.bind hp).acyclic
  have hkeep : s.Retains (s.bind v t) := .bind hp.unbound t
  -- what stays unbound resolves to itself
  have hother : ∀ w, w ≠ v → s.binding? w = none → (s.bind v t).resolve (.var w) = .var w := by
    intro w hne hw
    rw [resolve_var hs', binding?_bind s hp.lt, if_neg hne, hw]
  have hbound : (s.bind v t).resolve (.var v) = s.resolve t := by
    rw [resolve_var hs', binding?_bind s hp.lt, if_pos rfl]
    dsimp only
    rw [← hkeep.resolve_resolve hs.acyclic hs', resolve_eq_subst hs']
    conv_rhs => rw [← Ty.subst_var (s.resolve t)]
    refine Ty.subst_congr fun w hw => hother w ?_ (unbound_of_mem_resolve hs.acyclic hw)
    rintro rfl
    rw [← occurs_iff_mem_resolve hs.acyclic, hp.absent] at hw
    cases hw
  rw [← hkeep.resolve_resolve hs.acyclic hs', resolve_eq_subst hs', Ty.vars_subst, List.mem_flatMap] at hx
  obtain ⟨w, hw, hx⟩ := hx
  by_cases hwv : w = v
  · rw [hwv, hbound] at hx
    exact .inr hx
  · rw [hother w hwv (unbound_of_mem_resolve hs.acyclic hw)] at hx
    obtain rfl : x = w := List.mem_singleton.1 hx
    exact .inl hw

namespace Agree

variable {ps : List (Ty × Ty)}

/-- Among types of the store, the store grows. -/
theorem grows (h : Agree s ps s') (hs : s.WellFormed) (hps : s.CoversAll ps) : s.Grows s' := by
  induction h with
  | done => exact .refl _
  | scalar _ ih => exact ih hs hps.tail
  | wrap _ ih => exact ih hs (.cons hps.head.1 hps.head.2 hps.tail)
  | compound _ _ ih => exact ih hs hps.parts
  | pruned _ ih => exact ih hs (hps.pruned hs)
  | same _ _ _ _ ih => exact ih hs hps.tail
  | bind v t hab habsent _ ih =>
    have hp := hps.proper hs hab habsent
    exact (Grows.bind hp).trans (ih (hs.bind hp) (hps.tail.bind v t))

/-- **Soundness.** In the end both types of each pair resolve to the same type. -/
theorem resolves (h : Agree s ps s') (hs : s.WellFormed) (hps : s.CoversAll ps) :
    ∀ p ∈ ps, s'.resolve p.1 = s'.resolve p.2 := by
  have hs' := ((h.grows hs hps).wellFormed hs).acyclic
  have hkeep := h.retains hs.acyclic
  induction h with
  | done => nofun
  | scalar _ ih => exact List.forall_mem_cons.2 ⟨rfl, ih hs hps.tail hs' hkeep⟩
  | wrap _ ih =>
    obtain ⟨hfirst, hrest⟩ := List.forall_mem_cons.1 (ih hs (.cons hps.head.1 hps.head.2 hps.tail) hs' hkeep)
    refine List.forall_mem_cons.2 ⟨?_, hrest⟩
    rw [resolve_wrap hs', resolve_wrap hs', hfirst]
  | @compound _ _ f ts us _ hlen _ ih =>
    have hall := ih hs hps.parts hs' hkeep
    refine List.forall_mem_cons.2 ⟨?_, fun p hp => hall p (List.mem_append_right _ hp)⟩
    rw [resolve_compound hs', resolve_compound hs']
    congr 1
    refine List.forall₂_eq_eq_eq ▸ List.forall₂_map_left_iff.2 (List.forall₂_map_right_iff.2 ?_)
    refine List.forall₂_iff_zip.2 ⟨hlen, fun {t u} hmem => ?_⟩
    exact hall (t, u) (List.mem_append_left _ hmem)
  | pruned _ ih =>
    obtain ⟨hfirst, hrest⟩ := List.forall_mem_cons.1 (ih hs (hps.pruned hs) hs' hkeep)
    refine List.forall_mem_cons.2 ⟨?_, hrest⟩
    rwa [hkeep.resolve_prune hs.acyclic hs', hkeep.resolve_prune hs.acyclic hs'] at hfirst
  | @same _ _ a b _ v ha hb _ ih =>
    refine List.forall_mem_cons.2 ⟨?_, ih hs hps.tail hs' hkeep⟩
    rw [← hkeep.resolve_prune hs.acyclic hs' a, ← hkeep.resolve_prune hs.acyclic hs' b, ha, hb]
  | @bind s s' a b _ v t hab habsent hrun ih =>
    have hp := hps.proper hs hab habsent
    have hkeep' := hrun.retains (hs.bind hp).acyclic
    refine List.forall_mem_cons.2 ⟨?_, ih (hs.bind hp) (hps.tail.bind v t) hs' hkeep'⟩
    have hv : s'.binding? v = some t := hkeep' v t (by rw [binding?_bind s hp.lt, if_pos rfl])
    have hvt : s'.resolve (.var v) = s'.resolve t := by rw [resolve_var hs', hv]
    have hpa := hkeep.resolve_prune hs.acyclic hs' a
    have hpb := hkeep.resolve_prune hs.acyclic hs' b
    rcases hab with ⟨ha, hb⟩ | ⟨hb, ha⟩
    · rw [← hpa, ← hpb, ha, hb, hvt]
    · rw [← hpa, ← hpb, ha, hb, hvt]

/-- Bindings are added for variables of the resolved types only. -/
theorem binding?_or (h : Agree s ps s') (hs : s.WellFormed) (hps : s.CoversAll ps) {W : VarId → Prop}
    (hW : ∀ p ∈ ps, ∀ x, x ∈ (s.resolve p.1).vars ∨ x ∈ (s.resolve p.2).vars → W x) {x : VarId} {u : Ty}
    (hx : s'.binding? x = some u) : s.binding? x = some u ∨ s.binding? x = none ∧ W x := by
  induction h with
  | done => exact .inl hx
  | scalar _ ih => exact ih hs hps.tail (List.forall_mem_cons.1 hW).2 hx
  | wrap _ ih =>
    obtain ⟨hfirst, hrest⟩ := List.forall_mem_cons.1 hW
    rw [resolve_wrap hs.acyclic, resolve_wrap hs.acyclic] at hfirst
    exact ih hs (.cons hps.head.1 hps.head.2 hps.tail) (List.forall_mem_cons.2 ⟨hfirst, hrest⟩) hx
  | compound _ _ ih =>
    obtain ⟨hfirst, hrest⟩ := List.forall_mem_cons.1 hW
    rw [resolve_compound hs.acyclic, resolve_compound hs.acyclic] at hfirst
    refine ih hs hps.parts (fun p hp x hx => ?_) hx
    rcases List.mem_append.1 hp with hp | hp
    · obtain ⟨ht, hu⟩ := List.of_mem_zip hp
      refine hfirst x (hx.imp (Ty.mem_varsList (List.mem_map_of_mem ht)) (Ty.mem_varsList (List.mem_map_of_mem hu)))
    · exact hrest p hp x hx
  | pruned _ ih =>
    obtain ⟨hfirst, hrest⟩ := List.forall_mem_cons.1 hW
    refine ih hs (hps.pruned hs) (List.forall_mem_cons.2 ⟨?_, hrest⟩) hx
    rwa [Store.resolve_prune hs.acyclic, Store.resolve_prune hs.acyclic]
  | same _ _ _ _ ih => exact ih hs hps.tail (List.forall_mem_cons.1 hW).2 hx
  | @bind s s' a b _ v t hab habsent _ ih =>
    have hp := hps.proper hs hab habsent
    obtain ⟨hfirst, hrest⟩ := List.forall_mem_cons.1 hW
    have hfirst : ∀ y, y ∈ (s.resolve (.var v)).vars ∨ y ∈ (s.resolve t).vars → W y := by
      rintro y hy
      refine hfirst y ?_
      rw [← Store.resolve_prune hs.acyclic a, ← Store.resolve_prune hs.acyclic b]
      rcases hab with ⟨ha, hb⟩ | ⟨hb, ha⟩
      · rwa [ha, hb]
      · rw [ha, hb]
        exact hy.symm
    have hnew := ih (hs.bind hp) (hps.tail.bind v t) (fun p hp' y hy => ?_) hx
    · rw [binding?_bind s hp.lt] at hnew
      by_cases hxv : x = v
      · subst hxv
        refine .inr ⟨hp.unbound, hfirst x (.inl ?_)⟩
        rw [resolve_var hs.acyclic, hp.unbound]
        exact List.mem_singleton_self x
      · rwa [if_neg hxv] at hnew
    · rcases hy with hy | hy
      · exact (mem_resolve_bind hs hp hy).elim (fun h => hrest p hp' y (.inl h)) fun h => hfirst y (.inr h)
      · exact (mem_resolve_bind hs hp hy).elim (fun h => hrest p hp' y (.inr h)) fun h => hfirst y (.inr h)

end Agree

end Store

end DualInference
