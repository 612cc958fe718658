/-
Unification finds a most general unifier.

An assignment of types to all variables respects a store if it gives each bound variable what its binding comes to under
it, and it solves a pair of types if it respects the store and makes the two types the same (`Solves`). Unification
succeeds if there is a solution at all, and the store it leaves behind is respected by every solution
(`unify_most_general`).

- That a solution leads to success goes down the two types (`alongside_solvable`): a solution of two types solves their
  parts, an unbound variable that occurs in a larger type has no solution (`Respects.not_occurs`), and each binding that
  is made is one that the solution gives.
- That success leads to a solution is read off the run (`Agree.resolves`): what variables resolve to in the end, with
  anything closed for those that stay unbound, is one.
-/
import DualInference.Proofs.Store.Agreement

namespace DualInference

/-! ## Substitution after substitution -/

namespace Ty

mutual

theorem subst_subst (f g : VarId → Ty) : ∀ t : Ty, (t.subst f).subst g = t.subst fun v => (f v).subst g
  | .scalar _ => rfl
  | .wrap _ t => by rw [subst, subst, subst, subst_subst f g t]
  | .compound _ ts => by rw [subst, subst, subst, substList_substList f g ts]
  | .var _ => rfl

theorem substList_substList (f g : VarId → Ty) :
    ∀ ts : List Ty, substList g (substList f ts) = substList (fun v => (f v).subst g) ts
  | [] => rfl
  | t :: ts => by rw [substList, substList, substList, subst_subst f g t, substList_substList f g ts]

end

mutual

/-- What is put for a variable is no larger than the whole. -/
theorem size_le_size_subst (θ : VarId → Ty) {v : VarId} : ∀ {t : Ty}, v ∈ t.vars → (θ v).size ≤ (t.subst θ).size
  | .scalar _, hv => by cases hv
  | .wrap _ t, hv => (size_le_size_subst θ (t := t) hv).trans (Nat.le_succ _)
  | .compound _ ts, hv => (size_le_sizeList_subst θ (l := ts) hv).trans (Nat.le_succ _)
  | .var w, hv => by
    obtain rfl : v = w := List.mem_singleton.1 hv
    exact Nat.le_refl _

theorem size_le_sizeList_subst (θ : VarId → Ty) {v : VarId} :
    ∀ {l : List Ty}, v ∈ varsList l → (θ v).size ≤ sizeList (substList θ l)
  | [], hv => by cases hv
  | t :: ts, hv => by
    rw [substList, sizeList]
    rcases List.mem_append.1 hv with hv | hv
    · exact (size_le_size_subst θ hv).trans (Nat.le_add_right _ _)
    · exact (size_le_sizeList_subst θ hv).trans (Nat.le_add_left _ _)

end

/-- What is put for a variable of a larger type is smaller than the whole. -/
theorem size_lt_size_subst (θ : VarId → Ty) {v : VarId} {t : Ty} (ht : ∀ w, t ≠ .var w) (hv : v ∈ t.vars) :
    (θ v).size < (t.subst θ).size := by
  cases t with
  | scalar c => cases hv
  | wrap w t => exact Nat.lt_succ_of_le (size_le_size_subst θ (t := t) hv)
  | compound f ts => exact Nat.lt_succ_of_le (size_le_sizeList_subst θ (l := ts) hv)
  | var w => exact absurd rfl (ht w)

end Ty

namespace Store

variable {s s' : Store} {θ : VarId → Ty}

/-! ## Assignments -/

/-- the assignment gives each bound variable what its binding comes to under it -/
def Respects (s : Store) (θ : VarId → Ty) : Prop :=
  ∀ v t, s.binding? v = some t → θ v = t.subst θ

/-- the assignment respects the store and makes the two types the same -/
structure Solves (s : Store) (θ : VarId → Ty) (a b : Ty) : Prop where
  respects : s.Respects θ
  equal : a.subst θ = b.subst θ

namespace Respects

theorem resolve (h : s.Respects θ) (hs : s.Acyclic) (t : Ty) : (s.resolve t).subst θ = t.subst θ := by
  induction t using hs.induction with
  | h t ih =>
    rw [resolve_eq hs, Ty.subst_subst]
    refine Ty.subst_congr fun v hv => ?_
    cases hb : s.binding? v with
    | none => rfl
    | some u => rw [Option.map_some, Option.getD_some, ih v hv u hb, h v u hb]

theorem prune (h : s.Respects θ) (hs : s.Acyclic) (t : Ty) : (s.prune t).subst θ = t.subst θ := by
  rw [← h.resolve hs (s.prune t), resolve_prune hs, h.resolve hs]

/-- An assignment that gives a new binding respects the store with it. -/
theorem bind (h : s.Respects θ) {v : VarId} {t : Ty} (hv : θ v = t.subst θ) : (s.bind v t).Respects θ := by
  by_cases hlt : v < s.size
  case neg => rwa [bind_of_size_le (Nat.le_of_not_lt hlt)]
  intro w u hw
  rw [binding?_bind s hlt] at hw
  split at hw
  · rename_i hwv
    cases hw
    rw [hwv, hv]
  · exact h w u hw

/-- No assignment gives a variable a type in which it occurs, but for the variable itself. -/
theorem not_occurs (h : s.Respects θ) (hs : s.Acyclic) {v : VarId} {t : Ty} (ht : ∀ w, t ≠ .var w)
    (hv : θ v = t.subst θ) : s.occurs v t = false := by
  refine Bool.eq_false_iff.2 fun hocc => ?_
  have hlt := Ty.size_lt_size_subst θ (resolve_ne_var hs ht) ((occurs_iff_mem_resolve hs v t).1 hocc)
  rw [h.resolve hs, ← hv] at hlt
  exact Nat.lt_irrefl _ hlt

end Respects

/-- what each variable resolves to, with `void` for those that are unbound -/
def completion (s : Store) (v : VarId) : Ty :=
  (s.resolve (.var v)).subst fun _ => .void

theorem subst_completion (hs : s.Acyclic) (t : Ty) : t.subst s.completion = (s.resolve t).subst fun _ => .void := by
  rw [resolve_eq_subst hs, Ty.subst_subst]
  rfl

theorem respects_completion (hs : s.Acyclic) : s.Respects s.completion := by
  intro v t hv
  rw [subst_completion hs, completion, resolve_var hs, hv]

theorem vars_completion (s : Store) (v : VarId) : (s.completion v).vars = [] := by
  rw [completion, Ty.vars_subst, List.flatMap_eq_nil_iff]
  exact fun _ _ => rfl

/-! ## A solution leads to success -/

/-- where variables of two types meet and the types have a solution, things go on in a later store that the solution
respects -/
def MeetsSolvable (θ : VarId → Ty) (n : Nat) (meet : Store → Ty → Ty → Option Store) : Prop :=
  ∀ {s a b}, Enough n s a b → Meets a b → s.Solves θ a b → ∃ s', meet s a b = some s' ∧ s.Grows s' ∧ s'.Respects θ

section

variable {n : Nat} {meet : Store → Ty → Ty → Option Store}

mutual

/-- A solution of two types solves their parts. -/
theorem alongside_solvable (hmeet : MeetsSolvable θ n meet) : ∀ {a b : Ty} {s : Store}, Enough n s a b →
    s.Solves θ a b → ∃ s', alongside meet s a b = some s' ∧ s.Grows s' ∧ s'.Respects θ
  | .var v, b, s, h, hθ => by
    simp only [alongside]
    exact hmeet h (.inl ⟨v, rfl⟩) hθ
  | .scalar p, .var w, s, h, hθ => by
    simp only [alongside]
    exact hmeet h (.inr ⟨w, rfl⟩) hθ
  | .wrap p t, .var w, s, h, hθ => by
    simp only [alongside]
    exact hmeet h (.inr ⟨w, rfl⟩) hθ
  | .compound p ts, .var w, s, h, hθ => by
    simp only [alongside]
    exact hmeet h (.inr ⟨w, rfl⟩) hθ
  | .scalar p, .scalar q, s, _, hθ => by
    have hpq : p = q := Ty.scalar.inj hθ.equal
    exact ⟨s, by simp [alongside, hpq], .refl s, hθ.respects⟩
  | .wrap p t, .wrap q u, s, h, hθ => by
    obtain ⟨hpq, htu⟩ := Ty.wrap.inj hθ.equal
    rw [alongside, if_pos hpq]
    exact alongside_solvable hmeet ((enough_hereditary n).wrap h) ⟨hθ.respects, htu⟩
  | .compound p ts, .compound q us, s, h, hθ => by
    obtain ⟨hpq, htsus⟩ := Ty.compound.inj hθ.equal
    have hlen : ts.length = us.length := by
      simpa only [Ty.substList_eq_map, List.length_map] using congrArg List.length htsus
    rw [alongside, if_pos ⟨hpq, hlen⟩]
    exact alongsideList_solvable hmeet ((enough_hereditary n).compound h) hθ.respects htsus
  | .scalar _, .wrap _ _, _, _, hθ => by cases hθ.equal
  | .scalar _, .compound _ _, _, _, hθ => by cases hθ.equal
  | .wrap _ _, .scalar _, _, _, hθ => by cases hθ.equal
  | .wrap _ _, .compound _ _, _, _, hθ => by cases hθ.equal
  | .compound _ _, .scalar _, _, _, hθ => by cases hθ.equal
  | .compound _ _, .wrap _ _, _, _, hθ => by cases hθ.equal

theorem alongsideList_solvable (hmeet : MeetsSolvable θ n meet) : ∀ {ts us : List Ty} {s : Store},
    (∀ t ∈ ts, ∀ u ∈ us, Enough n s t u) → s.Respects θ → Ty.substList θ ts = Ty.substList θ us →
    ∃ s', alongsideList meet s ts us = some s' ∧ s.Grows s' ∧ s'.Respects θ
  | [], _, s, _, hθ, _ => ⟨s, rfl, .refl s, hθ⟩
  | _ :: _, [], s, _, hθ, _ => ⟨s, rfl, .refl s, hθ⟩
  | t :: ts, u :: us, s, h, hθ, heq => by
    obtain ⟨htu, htsus⟩ := List.cons.inj heq
    obtain ⟨s₁, h₁, hg₁, hθ₁⟩ := alongside_solvable hmeet (h t (by simp) u (by simp)) ⟨hθ, htu⟩
    have hrest : ∀ t' ∈ ts, ∀ u' ∈ us, Enough n s₁ t' u' := fun t' ht' u' hu' =>
      (enough_hereditary n).grows hg₁ (h t' (by simp [ht']) u' (by simp [hu']))
    obtain ⟨s₂, h₂, hg₂, hθ₂⟩ := alongsideList_solvable hmeet hrest hθ₁ htsus
    refine ⟨s₂, ?_, hg₁.trans hg₂, hθ₂⟩
    rw [alongsideList, h₁]
    exact h₂

end

end

/-- With enough levels, types that have a solution are made equal. -/
theorem reconcileWithin_solvable : ∀ (n : Nat) {s : Store} {a b : Ty}, Enough n s a b → s.Solves θ a b →
    ∃ s', reconcileWithin assign n s a b = some s' ∧ s.Grows s' ∧ s'.Respects θ := by
  intro n
  induction n with
  | zero => exact alongside_solvable fun h hm _ => absurd (h.pos hm) (Nat.lt_irrefl 0)
  | succ n ih =>
    refine alongside_solvable fun {s a b} h hm hθ => ?_
    have hs := h.wellFormed.acyclic
    have hca := h.wellFormed.covers_prune h.left
    have hcb := h.wellFormed.covers_prune h.right
    have heq : (s.prune a).subst θ = (s.prune b).subst θ := by
      rw [hθ.respects.prune hs, hθ.respects.prune hs, hθ.equal]
    -- an unbound variable can be bound to what the solution gives it
    have hassign : ∀ {v : VarId} {t : Ty}, s.binding? v = none → s.Covers (.var v) → s.Covers t →
        s.occurs v t = false → θ v = t.subst θ → ∃ s', s.assign v t = some s' ∧ s.Grows s' ∧ s'.Respects θ :=
      fun hv hcv hct habsent hvt => ⟨_, assign_eq_some.2 ⟨habsent, rfl⟩,
        .bind ⟨hcv _ (by simp [Ty.vars]), hv, hct, habsent⟩, hθ.respects.bind hvt⟩
    split
    · rename_i v w hpa hpb
      rw [hpa] at hca heq
      rw [hpb] at hcb heq
      split
      · exact ⟨s, rfl, .refl s, hθ.respects⟩
      · rename_i hvw
        refine hassign (binding?_of_prune hs hpa) hca hcb ?_ heq
        rw [occurs_var hs, binding?_of_prune hs hpb]
        exact beq_eq_false_iff_ne.2 (Ne.symm hvw)
    · rename_i v hpa hpb
      rw [hpa] at hca heq
      exact hassign (binding?_of_prune hs hpa) hca hcb (hθ.respects.not_occurs hs hpb heq) heq
    · rename_i w hpb hpa
      rw [hpb] at hcb heq
      exact hassign (binding?_of_prune hs hpb) hcb hca (hθ.respects.not_occurs hs hpa heq.symm) heq.symm
    · rename_i hpa hpb _
      exact ih (h.prune hm hpa hpb) ⟨hθ.respects, heq⟩

/-! ## Most general unifiers -/

/-- **Most general unifiers.** Two types of a well-formed store unify if and only if they have a solution; if there is
one, there is one without variables. Success leaves a well-formed store of the same variables in which all bindings are
kept. It binds only variables that were unbound and that the resolved types mention, the two types are equal in it, and
every solution respects it. -/
theorem unify_most_general (hs : s.WellFormed) {a b : Ty} (ha : s.Covers a) (hb : s.Covers b) :
    ((s.unify a b).isSome ↔ ∃ θ, s.Solves θ a b) ∧
    ((s.unify a b).isSome → ∃ θ, (∀ v, (θ v).vars = []) ∧ s.Solves θ a b) ∧
    ∀ s', s.unify a b = some s' →
      s'.WellFormed ∧ s'.size = s.size ∧ s.Retains s' ∧
      (∀ v t, s'.binding? v = some t → s.binding? v = some t ∨
        s.binding? v = none ∧ (v ∈ (s.resolve a).vars ∨ v ∈ (s.resolve b).vars)) ∧
      s'.equal a b = true ∧
      ∀ θ, s.Solves θ a b → s'.Respects θ := by
  have henough := hs.enough ha hb (Nat.le_refl _)
  have hpair : s.CoversAll [(a, b)] := .cons ha hb (by nofun)
  have hsound : ∀ {s'}, s.unify a b = some s' → s.Grows s' ∧ s'.resolve a = s'.resolve b := fun h =>
    ⟨(unify_agree h).grows hs hpair, (unify_agree h).resolves hs hpair (a, b) List.mem_cons_self⟩
  have hclosed : (s.unify a b).isSome → ∃ θ, (∀ v, (θ v).vars = []) ∧ s.Solves θ a b := by
    intro h
    obtain ⟨s', h⟩ := Option.isSome_iff_exists.1 h
    obtain ⟨hgrows, heq⟩ := hsound h
    have hs' := (hgrows.wellFormed hs).acyclic
    refine ⟨s'.completion, vars_completion s', fun v t hv => ?_, ?_⟩
    · exact respects_completion hs' v t (hgrows.binding? hv)
    · rw [subst_completion hs', subst_completion hs', heq]
  refine ⟨⟨fun h => (hclosed h).imp fun θ => And.right, fun ⟨θ, hθ⟩ => ?_⟩, hclosed, fun s' h => ?_⟩
  · obtain ⟨s', h, _⟩ := reconcileWithin_solvable _ henough hθ
    exact Option.isSome_iff_exists.2 ⟨s', h⟩
  · obtain ⟨hgrows, heq⟩ := hsound h
    have hs' := hgrows.wellFormed hs
    refine ⟨hs', hgrows.size_eq, fun v t hv => hgrows.binding? hv, fun v t hv => ?_, ?_, fun θ hθ => ?_⟩
    · refine (unify_agree h).binding?_or hs hpair (W := fun x => x ∈ (s.resolve a).vars ∨ x ∈ (s.resolve b).vars)
        (fun p hp x hx => ?_) hv
      obtain rfl := List.mem_singleton.1 hp
      exact hx
    · exact (equal_iff hs' (hgrows.covers ha) (hgrows.covers hb)).2 heq
    · obtain ⟨s'', h'', _, hθ''⟩ := reconcileWithin_solvable _ henough hθ
      obtain rfl : s'' = s' := Option.some.inj (h''.symm.trans h)
      exact hθ''

/-- two variables, the second bound to arrays of the first -/
def nestedStore : Store :=
  (fresh {}).2.fresh.2.bind 1 (.array (.var 0))

theorem nestedStore_wellFormed : nestedStore.WellFormed :=
  wellFormed_empty.fresh.fresh.bind ⟨by decide, by decide, by decide, by decide⟩

/-- The second variable and an array of integers leave one choice for the first variable. Between the two variables no
choice would do. -/
theorem nestedStore_most_general :
    (∃ s', nestedStore.unify (.var 1) (.array .int) = some s' ∧ s'.binding? 0 = some .int ∧
      ∀ θ, nestedStore.Solves θ (.var 1) (.array .int) → s'.Respects θ) ∧
    ¬∃ θ, nestedStore.Solves θ (.var 0) (.var 1) := by
  have hgeneral : ∀ {a b : Ty}, nestedStore.Covers a → nestedStore.Covers b → _ := fun ha hb =>
    unify_most_general nestedStore_wellFormed ha hb
  refine ⟨⟨nestedStore.bind 0 .int, by decide, by decide, ?_⟩, ?_⟩
  · exact ((hgeneral (by decide) (by decide)).2.2 _ (by decide)).2.2.2.2.2
  · rw [← (hgeneral (by decide) (by decide)).1]
    decide

end Store

end DualInference
