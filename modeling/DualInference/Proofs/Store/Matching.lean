/-
Matching a pattern with a closed type.

When the fields of an aggregate or the formals of a procedure are compared with arguments, the other side is always a
type without variables, and the variables of the pattern are unbound or bound to types without variables. Then
unification is matching:
- if it succeeds, the type is the pattern with its variables replaced by what they are bound to then (`unify_sound`);
- if the type is the pattern with its variables replaced, and no variable is bound to anything else, it succeeds, and
  binds the variables of the pattern and nothing else (`unify_complete`).
-/
import DualInference.Proofs.Store.Unify

namespace DualInference

namespace Store

variable {s s' : Store}

/-! ## Closed types -/

theorem prune_closed (s : Store) {t : Ty} (ht : t.vars = []) : s.prune t = t := by
  cases t with
  | scalar c => exact prune_scalar c
  | wrap w t => exact prune_wrap w t
  | compound f ts => exact prune_compound f ts
  | var v => cases ht

theorem deref?_closed (hs : s.Acyclic) {t : Ty} (ht : t.vars = []) : s.deref? t = some t := by
  have hnone : ∀ v ∈ t.vars, (s.binding? v).bind s.deref? = some (.var v) := by
    rw [ht]
    nofun
  rw [deref?_eq hs, Ty.subst?_eq_some hnone, Ty.subst_var]

theorem occurs_closed (hs : s.Acyclic) (v : VarId) {t : Ty} (ht : t.vars = []) : s.occurs v t = false := by
  rw [occurs_eq_any hs, ht]
  rfl

theorem subst_closed (f : VarId → Ty) {t : Ty} (ht : t.vars = []) : t.subst f = t := by
  have hvar : ∀ v ∈ t.vars, f v = .var v := by
    rw [ht]
    nofun
  rw [Ty.subst_congr hvar, Ty.subst_var]

/-- A type without variables is a type of every store. -/
theorem covers_closed (s : Store) {t : Ty} (ht : t.vars = []) : s.Covers t := by
  intro v hv
  rw [ht] at hv
  cases hv

mutual

/-- Closed types are compared without a look at the store. -/
theorem alongside_closed (meet : Store → Ty → Ty → Option Store) (s : Store) :
    ∀ {a b : Ty}, a.vars = [] → b.vars = [] → alongside meet s a b = if a = b then some s else none
  | .var v, _, ha, _ => by cases ha
  | _, .var w, _, hb => by cases hb
  | .scalar p, .scalar q, _, _ => by simp only [alongside, Ty.scalar.injEq]
  | .wrap p t, .wrap q u, ha, hb => by
    rw [alongside, alongside_closed meet s (a := t) (b := u) ha hb]
    by_cases hp : p = q <;> simp [hp]
  | .compound p ts, .compound q us, ha, hb => by
    rw [alongside]
    by_cases hlen : ts.length = us.length
    · have hts : Ty.varsList ts = [] := ha
      have hus : Ty.varsList us = [] := hb
      rw [alongsideList_closed meet s hts hus hlen]
      by_cases hp : p = q <;> simp [hp, hlen]
    · have hne : ts ≠ us := fun h => hlen (by rw [h])
      simp [hlen, hne]
  | .scalar _, .wrap _ _, _, _ => by simp [alongside]
  | .scalar _, .compound _ _, _, _ => by simp [alongside]
  | .wrap _ _, .scalar _, _, _ => by simp [alongside]
  | .wrap _ _, .compound _ _, _, _ => by simp [alongside]
  | .compound _ _, .scalar _, _, _ => by simp [alongside]
  | .compound _ _, .wrap _ _, _, _ => by simp [alongside]

theorem alongsideList_closed (meet : Store → Ty → Ty → Option Store) (s : Store) :
    ∀ {as bs : List Ty}, Ty.varsList as = [] → Ty.varsList bs = [] → as.length = bs.length →
      alongsideList meet s as bs = if as = bs then some s else none
  | [], [], _, _, _ => by simp [alongsideList]
  | [], _ :: _, _, _, hlen => by cases hlen
  | _ :: _, [], _, _, hlen => by cases hlen
  | a :: as, b :: bs, ha, hb, hlen => by
    obtain ⟨ha, has⟩ := List.append_eq_nil_iff.1 ha
    obtain ⟨hb, hbs⟩ := List.append_eq_nil_iff.1 hb
    rw [alongsideList, alongside_closed meet s ha hb]
    by_cases hab : a = b
    · simp [hab, alongsideList_closed meet s has hbs (Nat.succ.inj hlen)]
    · simp [hab]

end

theorem reconcileWithin_closed (settle : Store → VarId → Ty → Option Store) (n : Nat) (s : Store) {a b : Ty}
    (ha : a.vars = []) (hb : b.vars = []) : reconcileWithin settle n s a b = if a = b then some s else none := by
  cases n with
  | zero => exact alongside_closed _ s ha hb
  | succ n => exact alongside_closed _ s ha hb

theorem equal_closed (s : Store) {a b : Ty} (ha : a.vars = []) (hb : b.vars = []) : s.equal a b = decide (a = b) := by
  unfold equal reconcile
  rw [reconcileWithin_closed _ _ s ha hb]
  by_cases hab : a = b <;> simp [hab]

/-! ## A variable against a closed type -/

/-- a variable of the store that is unbound or bound to a closed type -/
def Plain (s : Store) (v : VarId) : Prop :=
  v < s.size ∧ ∀ p, s.binding? v = some p → p.vars = []

theorem WellFormed.bind_closed (hs : s.WellFormed) {v : VarId} (hv : v < s.size) (hnone : s.binding? v = none) {b : Ty}
    (hb : b.vars = []) : (s.bind v b).WellFormed :=
  hs.bind ⟨hv, hnone, s.covers_closed hb, occurs_closed hs.acyclic v hb⟩

/-- where a plain variable meets a closed type, it is bound to it, or has to be bound to it already -/
def Meeting (meet : Store → Ty → Ty → Option Store) : Prop :=
  ∀ {s v b}, s.WellFormed → s.Plain v → b.vars = [] → alongside meet s (.var v) b =
    match s.binding? v with
    | none => some (s.bind v b)
    | some p => if p = b then some s else none

theorem reconcileWithin_meeting (n : Nat) : ∃ meet, reconcileWithin assign (n + 1) = alongside meet ∧ Meeting meet := by
  refine ⟨_, rfl, fun {s v b} hs hv hb => ?_⟩
  rw [alongside, prune_closed s hb, prune_var hs.acyclic]
  cases hbind : s.binding? v with
  | none =>
    dsimp only
    cases b with
    | var w => cases hb
    | _ =>
      dsimp only
      rw [assign, occurs_closed hs.acyclic v hb]
      rfl
  | some p =>
    have hp := hv.2 p hbind
    dsimp only
    rw [prune_closed s hp]
    cases p with
    | var w => cases hp
    | _ =>
      cases b with
      | var w => cases hb
      | _ => exact reconcileWithin_closed assign n s hp hb

/-- what is bound in the first store is bound to the same in the second -/
def Retains (s s' : Store) : Prop :=
  ∀ v p, s.binding? v = some p → s'.binding? v = some p

theorem Retains.trans {s'' : Store} (h : s.Retains s') (h' : s'.Retains s'') : s.Retains s'' :=
  fun v p hv => h' v p (h v p hv)

/-- What has been filled in stays so. -/
theorem Retains.subst? (h : s.Retains s') {t a : Ty} (ht : t.subst? s.binding? = some a) :
    t.subst? s'.binding? = some a := by
  rw [← ht]
  refine Ty.subst?_congr fun v hv => ?_
  obtain ⟨p, hp⟩ := Option.isSome_iff_exists.1 ((Ty.eq_subst_of_subst? ht).1 v hv)
  rw [hp, h v p hp]

/-! ## What is found is an instance -/

/-- the second store binds some of the given variables to closed types, and is the first one otherwise -/
structure Fills (s : Store) (vs : List VarId) (s' : Store) : Prop where
  wellFormed : s'.WellFormed
  size : s'.size = s.size
  kept : s.Retains s'
  new : ∀ {v p}, s'.binding? v = some p → s.binding? v = some p ∨ v ∈ vs ∧ p.vars = []

namespace Fills

theorem refl (hs : s.WellFormed) (vs : List VarId) : s.Fills vs s :=
  ⟨hs, rfl, fun _ _ h => h, fun h => .inl h⟩

theorem append {s'' : Store} {vs ws : List VarId} (h : s.Fills vs s') (h' : s'.Fills ws s'') :
    s.Fills (vs ++ ws) s'' := by
  refine ⟨h'.wellFormed, h'.size.trans h.size, h.kept.trans h'.kept, fun hv => ?_⟩
  rcases h'.new hv with hv | ⟨hmem, hp⟩
  · rcases h.new hv with hv | ⟨hmem, hp⟩
    · exact .inl hv
    · exact .inr ⟨List.mem_append_left ws hmem, hp⟩
  · exact .inr ⟨List.mem_append_right vs hmem, hp⟩

theorem plain {vs : List VarId} (h : s.Fills vs s') {v : VarId} (hv : s.Plain v) : s'.Plain v := by
  refine ⟨h.size ▸ hv.1, fun p hp => ?_⟩
  rcases h.new hp with hp | ⟨_, hp⟩
  · exact hv.2 p hp
  · exact hp

end Fills

section

variable {meet : Store → Ty → Ty → Option Store}

theorem alongside_var_sound (hmeet : Meeting meet) (hs : s.WellFormed) {v : VarId} (hv : s.Plain v) {a : Ty}
    (ha : a.vars = []) (h : alongside meet s (.var v) a = some s') : s.Fills [v] s' ∧ s'.binding? v = some a := by
  rw [hmeet hs hv ha] at h
  cases hb : s.binding? v with
  | none =>
    rw [hb] at h
    cases h
    have hbind := s.binding?_bind hv.1
    refine ⟨⟨hs.bind_closed hv.1 hb ha, size_bind s v a, fun w p hw => ?_, fun {w p} hw => ?_⟩, ?_⟩
    · have hne : w ≠ v := by
        rintro rfl
        rw [hb] at hw
        cases hw
      rw [hbind, if_neg hne, hw]
    · rw [hbind] at hw
      split at hw
      · rename_i heq
        cases hw
        exact .inr ⟨by rw [heq]; exact List.mem_singleton_self v, ha⟩
      · exact .inl hw
    · rw [hbind, if_pos rfl]
  | some p =>
    rw [hb] at h
    dsimp only at h
    split at h
    · rename_i hp
      cases h
      exact ⟨.refl hs [v], hp ▸ hb⟩
    · cases h

mutual

theorem alongside_sound (hmeet : Meeting meet) : ∀ {t a : Ty} {s s' : Store}, s.WellFormed → (∀ v ∈ t.vars, s.Plain v) →
    a.vars = [] → alongside meet s t a = some s' → s.Fills t.vars s' ∧ t.subst? s'.binding? = some a
  | .var v, a, s, s', hs, hv, ha, h => alongside_var_sound hmeet hs (hv v (by simp [Ty.vars])) ha h
  | .scalar p, a, s, s', hs, _, ha, h => by
    rw [alongside_closed meet s rfl ha] at h
    split at h
    · rename_i heq
      cases h
      exact ⟨.refl hs [], by rw [← heq]; rfl⟩
    · cases h
  | .wrap w t, .wrap w' a, s, s', hs, hv, ha, h => by
    rw [alongside] at h
    split at h
    · rename_i hw
      obtain ⟨hfills, heq⟩ := alongside_sound hmeet (t := t) (a := a) hs hv ha h
      exact ⟨hfills, by rw [Ty.subst?, heq, hw]; rfl⟩
    · cases h
  | .compound f ts, .compound f' as, s, s', hs, hv, ha, h => by
    rw [alongside] at h
    split at h
    · rename_i hf
      obtain ⟨hfills, heq⟩ := alongsideList_sound hmeet hs hv ha hf.2 h
      exact ⟨hfills, by rw [Ty.subst?, heq, hf.1]; rfl⟩
    · cases h
  | .wrap _ _, .scalar _, _, _, _, _, _, h => by simp [alongside] at h
  | .wrap _ _, .compound _ _, _, _, _, _, _, h => by simp [alongside] at h
  | .compound _ _, .scalar _, _, _, _, _, _, h => by simp [alongside] at h
  | .compound _ _, .wrap _ _, _, _, _, _, _, h => by simp [alongside] at h
  | .wrap _ _, .var _, _, _, _, _, ha, _ => by cases ha
  | .compound _ _, .var _, _, _, _, _, ha, _ => by cases ha

theorem alongsideList_sound (hmeet : Meeting meet) : ∀ {ts as : List Ty} {s s' : Store}, s.WellFormed →
    (∀ v ∈ Ty.varsList ts, s.Plain v) → Ty.varsList as = [] → ts.length = as.length →
    alongsideList meet s ts as = some s' → s.Fills (Ty.varsList ts) s' ∧ Ty.substList? s'.binding? ts = some as
  | [], [], s, s', hs, _, _, _, h => by
    cases h
    exact ⟨.refl hs [], rfl⟩
  | [], _ :: _, _, _, _, _, _, hlen, _ => by cases hlen
  | _ :: _, [], _, _, _, _, _, hlen, _ => by cases hlen
  | t :: ts, a :: as, s, s', hs, hv, ha, hlen, h => by
    obtain ⟨ha, has⟩ := List.append_eq_nil_iff.1 ha
    rw [alongsideList] at h
    split at h
    · rename_i s₁ h₁
      obtain ⟨hfills, heq⟩ := alongside_sound hmeet hs (fun v hmem => hv v (List.mem_append_left _ hmem)) ha h₁
      have hv₁ : ∀ v ∈ Ty.varsList ts, s₁.Plain v := fun v hmem => hfills.plain (hv v (List.mem_append_right _ hmem))
      obtain ⟨hfills', heqs⟩ := alongsideList_sound hmeet hfills.wellFormed hv₁ has (Nat.succ.inj hlen) h
      refine ⟨hfills.append hfills', ?_⟩
      rw [Ty.substList?, hfills'.kept.subst? heq, heqs]
      rfl
    · cases h

end

/-! ## All instances are found -/

/-- the variable may be given the type: it is unbound or bound to that type already -/
def Allots (s : Store) (θ : VarId → Ty) (v : VarId) : Prop :=
  v < s.size ∧ (θ v).vars = [] ∧ ∀ p, s.binding? v = some p → p = θ v

theorem Allots.plain {θ : VarId → Ty} {v : VarId} (h : s.Allots θ v) : s.Plain v :=
  ⟨h.1, fun p hp => h.2.2 p hp ▸ h.2.1⟩

/-- the second store binds the given variables, and is the first one otherwise -/
structure Fulfils (s : Store) (θ : VarId → Ty) (vs : List VarId) (s' : Store) : Prop where
  wellFormed : s'.WellFormed
  size : s'.size = s.size
  binding? : ∀ v, s'.binding? v = if v ∈ vs then some (θ v) else s.binding? v

namespace Fulfils

variable {θ : VarId → Ty}

theorem refl (hs : s.WellFormed) : s.Fulfils θ [] s :=
  ⟨hs, rfl, fun v => by rw [if_neg List.not_mem_nil]⟩

theorem append {s'' : Store} {vs ws : List VarId} (h : s.Fulfils θ vs s') (h' : s'.Fulfils θ ws s'') :
    s.Fulfils θ (vs ++ ws) s'' := by
  refine ⟨h'.wellFormed, h'.size.trans h.size, fun v => ?_⟩
  rw [h'.binding?, h.binding?]
  by_cases hw : v ∈ ws
  · rw [if_pos hw, if_pos (List.mem_append_right vs hw)]
  · simp [hw]

theorem allots {vs : List VarId} (h : s.Fulfils θ vs s') {v : VarId} (hv : s.Allots θ v) : s'.Allots θ v := by
  refine ⟨h.size ▸ hv.1, hv.2.1, fun p hp => ?_⟩
  rw [h.binding?] at hp
  split at hp
  · exact (Option.some.inj hp).symm
  · exact hv.2.2 p hp

end Fulfils

theorem alongside_var_complete (hmeet : Meeting meet) {θ : VarId → Ty} (hs : s.WellFormed) {v : VarId}
    (hv : s.Allots θ v) : ∃ s', alongside meet s (.var v) (θ v) = some s' ∧ s.Fulfils θ [v] s' := by
  rw [hmeet hs hv.plain hv.2.1]
  cases hb : s.binding? v with
  | none =>
    refine ⟨_, rfl, hs.bind_closed hv.1 hb hv.2.1, size_bind s v _, fun w => ?_⟩
    rw [s.binding?_bind hv.1]
    by_cases hw : w = v
    · simp [hw]
    · simp [hw]
  | some p =>
    obtain rfl := hv.2.2 p hb
    refine ⟨s, if_pos rfl, hs, rfl, fun w => ?_⟩
    by_cases hw : w = v
    · simp [hw, hb]
    · simp [hw]

mutual

theorem alongside_complete (hmeet : Meeting meet) {θ : VarId → Ty} : ∀ {t : Ty} {s : Store}, s.WellFormed →
    (∀ v ∈ t.vars, s.Allots θ v) → ∃ s', alongside meet s t (t.subst θ) = some s' ∧ s.Fulfils θ t.vars s'
  | .var v, s, hs, hv => alongside_var_complete hmeet hs (hv v (by simp [Ty.vars]))
  | .scalar p, s, hs, _ => ⟨s, by simp [Ty.subst, alongside], .refl hs⟩
  | .wrap w t, s, hs, hv => by
    rw [Ty.subst, alongside, if_pos rfl]
    exact alongside_complete hmeet (t := t) hs hv
  | .compound f ts, s, hs, hv => by
    rw [Ty.subst, alongside, if_pos ⟨rfl, by rw [Ty.substList_eq_map, List.length_map]⟩]
    have hts : ∀ v ∈ Ty.varsList ts, s.Allots θ v := hv
    exact alongsideList_complete hmeet hs hts

theorem alongsideList_complete (hmeet : Meeting meet) {θ : VarId → Ty} : ∀ {ts : List Ty} {s : Store}, s.WellFormed →
    (∀ v ∈ Ty.varsList ts, s.Allots θ v) →
    ∃ s', alongsideList meet s ts (Ty.substList θ ts) = some s' ∧ s.Fulfils θ (Ty.varsList ts) s'
  | [], s, hs, _ => ⟨s, rfl, .refl hs⟩
  | t :: ts, s, hs, hv => by
    obtain ⟨s₁, h₁, hf₁⟩ := alongside_complete hmeet hs fun v hmem => hv v (List.mem_append_left _ hmem)
    have hv₁ : ∀ v ∈ Ty.varsList ts, s₁.Allots θ v := fun v hmem => hf₁.allots (hv v (List.mem_append_right _ hmem))
    obtain ⟨s₂, h₂, hf₂⟩ := alongsideList_complete hmeet hf₁.wellFormed hv₁
    refine ⟨s₂, ?_, hf₁.append hf₂⟩
    rw [Ty.substList, alongsideList, h₁]
    exact h₂

end

end

/-! ## Unification with a closed type -/

/-- A pattern with a variable that the store knows is compared with at least one pruning. -/
theorem unify_meeting {t : Ty} (ht : ∀ v ∈ t.vars, v < s.size) (hne : t.vars ≠ []) :
    ∃ meet, Meeting meet ∧ ∀ a, s.unify t a = alongside meet s t a := by
  obtain ⟨v, hv⟩ := List.exists_mem_of_ne_nil _ hne
  have hpos : 0 < s.size := Nat.zero_lt_of_lt (ht v hv)
  obtain ⟨n, hn⟩ : ∃ n, 2 * s.size = n + 1 := ⟨2 * s.size - 1, by omega⟩
  obtain ⟨meet, heq, hmeet⟩ := reconcileWithin_meeting n
  exact ⟨meet, hmeet, fun a => by rw [unify, reconcile, hn, heq]⟩

/-- If a pattern unifies with a closed type, the type is what the pattern has become. -/
theorem unify_sound (hs : s.WellFormed) {t a : Ty} (ht : ∀ v ∈ t.vars, s.Plain v) (ha : a.vars = [])
    (h : s.unify t a = some s') : s.Fills t.vars s' ∧ t.subst? s'.binding? = some a := by
  by_cases hclosed : t.vars = []
  · rw [unify, reconcile, reconcileWithin_closed _ _ s hclosed ha] at h
    split at h
    · rename_i heq
      cases h
      subst heq
      have hnone : ∀ v ∈ t.vars, s.binding? v = some (.var v) := by
        rw [hclosed]
        nofun
      exact ⟨.refl hs _, by rw [Ty.subst?_eq_some hnone, Ty.subst_var]⟩
    · cases h
  · obtain ⟨meet, hmeet, heq⟩ := unify_meeting (fun v hv => (ht v hv).1) hclosed
    rw [heq] at h
    exact alongside_sound hmeet hs ht ha h

/-- A pattern unifies with each of its closed instances that the store allows, and all its variables are bound then. -/
theorem unify_complete (hs : s.WellFormed) {θ : VarId → Ty} {t : Ty} (ht : ∀ v ∈ t.vars, s.Allots θ v) :
    ∃ s', s.unify t (t.subst θ) = some s' ∧ s.Fulfils θ t.vars s' := by
  by_cases hclosed : t.vars = []
  · rw [subst_closed θ hclosed, unify, reconcile, reconcileWithin_closed _ _ s hclosed hclosed, if_pos rfl, hclosed]
    exact ⟨s, rfl, .refl hs⟩
  · obtain ⟨meet, hmeet, heq⟩ := unify_meeting (fun v hv => (ht v hv).1) hclosed
    rw [heq]
    exact alongside_complete hmeet hs ht

end Store

end DualInference
