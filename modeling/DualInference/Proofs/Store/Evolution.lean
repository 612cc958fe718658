/-
How a store comes about.

A store changes in two ways only: a variable is made, or an unbound variable is bound to a type in which it does not
occur (`Evolves`). Whatever comes of it is well formed and keeps the bindings there were, and so what was found equal
and what was dereferenced before stay as they were.

That unification never binds a variable twice is said without looking into it (`reconcile_eq_unify`): however bound
variables were to be treated where they are about to be bound, unification would come out the same.
-/
import DualInference.Proofs.Store.Paired
import DualInference.Proofs.Store.Resolved

namespace DualInference

namespace Store

variable {s s' s'' : Store}

/-! ## Cycles -/

/-- the second variable stands in the binding of the first -/
def Refers (s : Store) (v w : VarId) : Prop :=
  ∃ t, s.binding? v = some t ∧ w ∈ t.vars

/-- No variable is reachable from its own binding. -/
theorem Acyclic.not_refers_self (hs : s.Acyclic) (v : VarId) : ¬Relation.TransGen s.Refers v v := by
  obtain ⟨rank, hrank⟩ := hs
  have hlt : ∀ {x y}, Relation.TransGen s.Refers x y → rank y < rank x := by
    intro x y h
    induction h with
    | single h =>
      obtain ⟨t, ht, hmem⟩ := h
      exact hrank x t ht _ hmem
    | tail _ h ih =>
      obtain ⟨t, ht, hmem⟩ := h
      exact (hrank _ t ht _ hmem).trans ih
  exact fun h => Nat.lt_irrefl _ (hlt h)

/-! ## Evolution -/

/-- a variable is made, or properly bound -/
def Changes (s s' : Store) : Prop :=
  s' = s.fresh.2 ∨ s.Binds s'

/-- variables are made and properly bound, in any order -/
def Evolves : Store → Store → Prop :=
  Relation.ReflTransGen Changes

namespace Evolves

theorem refl (s : Store) : s.Evolves s :=
  Relation.ReflTransGen.refl

theorem trans (h : s.Evolves s') (h' : s'.Evolves s'') : s.Evolves s'' :=
  Relation.ReflTransGen.trans h h'

theorem fresh (s : Store) : s.Evolves s.fresh.2 :=
  Relation.ReflTransGen.single (.inl rfl)

theorem of_grows (h : s.Grows s') : s.Evolves s' :=
  Relation.ReflTransGen.mono (fun _ _ hb => Or.inr hb) _ _ h

theorem size_le (h : s.Evolves s') : s.size ≤ s'.size := by
  induction h with
  | refl => exact Nat.le_refl _
  | tail _ h ih =>
    rcases h with rfl | ⟨v, t, _, rfl⟩
    · rw [size_fresh]
      exact ih.trans (Nat.le_succ _)
    · rwa [size_bind]

theorem wellFormed (h : s.Evolves s') (hs : s.WellFormed) : s'.WellFormed := by
  induction h with
  | refl => exact hs
  | tail _ h ih =>
    rcases h with rfl | ⟨v, t, ht, rfl⟩
    · exact ih.fresh
    · exact ih.bind ht

/-- What is bound stays bound, to the same type. -/
theorem retains (h : s.Evolves s') : s.Retains s' := by
  induction h with
  | refl => exact fun _ _ hv => hv
  | tail _ h ih =>
    intro v p hv
    rcases h with rfl | h
    · rw [binding?_fresh]
      exact ih v p hv
    · exact Grows.binding? (.single h) (ih v p hv)

end Evolves

/-! ## Bound variables are left alone -/

/-- where an unbound variable meets another type it is bound to it, if it does not occur there; for bound variables
anything may be done -/
def AssignsUnbound (settle : Store → VarId → Ty → Option Store) : Prop :=
  ∀ s v t, s.binding? v = none → settle s v t = s.assign v t

/-- a well-formed store and two types of it -/
structure Compared (s : Store) (a b : Ty) : Prop where
  wellFormed : s.WellFormed
  left : s.Covers a
  right : s.Covers b

theorem compared_hereditary : Hereditary Compared where
  wrap h := ⟨h.wellFormed, h.left, h.right⟩
  compound h _ ht _ hu := ⟨h.wellFormed, h.left.part ht, h.right.part hu⟩
  grows hg h := ⟨hg.wellFormed h.wellFormed, hg.covers h.left, hg.covers h.right⟩

theorem reconcileWithin_settle {settle : Store → VarId → Ty → Option Store} (hset : AssignsUnbound settle) :
    ∀ n s a b, Compared s a b → reconcileWithin assign n s a b = reconcileWithin settle n s a b ∧
      ∀ s', reconcileWithin assign n s a b = some s' → s.Grows s' := by
  intro n
  induction n with
  | zero =>
    intro s a b h
    refine alongside_congr compared_hereditary (fun s a b _ _ => ⟨rfl, fun s' hs' => ?_⟩) a b s h
    cases hs'
  | succ n ih =>
    intro s a b h
    refine alongside_congr compared_hereditary (fun s a b h _ => ?_) a b s h
    have hca := h.wellFormed.covers_prune h.left
    have hcb := h.wellFormed.covers_prune h.right
    -- pruning ends at unbound variables only
    have hassign : ∀ {c : Ty} {v t}, s.prune c = .var v → s.Covers (.var v) → s.Covers t →
        s.assign v t = settle s v t ∧ ∀ s', s.assign v t = some s' → s.Grows s' := by
      intro c v t hc hv ht
      have hfree := binding?_of_prune h.wellFormed.acyclic hc
      exact ⟨(hset s v t hfree).symm, fun s' => lawful_assign s v t s' h.wellFormed (hv v (by simp [Ty.vars])) hfree ht⟩
    cases hpa : s.prune a with
    | var v =>
      rw [hpa] at hca
      cases hpb : s.prune b with
      | var w =>
        rw [hpb] at hcb
        dsimp only
        split
        · exact ⟨rfl, fun s' hs' => by cases hs'; exact .refl s⟩
        · exact hassign hpa hca hcb
      | _ =>
        rw [hpb] at hcb
        exact hassign hpa hca hcb
    | _ =>
      rw [hpa] at hca
      cases hpb : s.prune b with
      | var w =>
        rw [hpb] at hcb
        exact hassign hpb hcb hca
      | _ =>
        rw [hpb] at hcb
        exact ih s _ _ ⟨h.wellFormed, hca, hcb⟩

/-- Unification comes out the same however it would treat bound variables: it never tries to bind one. -/
theorem reconcile_eq_unify {settle : Store → VarId → Ty → Option Store} (hset : AssignsUnbound settle)
    (hs : s.WellFormed) {a b : Ty} (ha : s.Covers a) (hb : s.Covers b) : s.reconcile settle a b = s.unify a b :=
  (reconcileWithin_settle hset _ s a b ⟨hs, ha, hb⟩).1.symm

end Store

end DualInference
