/-
Types that are alike.

Two inferences of one expression make type variables of their own, so their types can only be compared up to the numbers
of variables. A `Pairing` says which variable of the one stands for which of the other; it is one-to-one. Two types are
alike if they are equal but for paired variables (`Ty.Alike`). Types that are alike under the pairing without pairs are
equal and have no variables.

Being alike also says that a type is well formed: every compound in it has as many parts as `D` asks for. A closed and
well-formed type is one that is alike to itself without any pairs.
-/
import DualInference.Ty.Basic
import Mathlib.Data.List.Forall2
import Mathlib.Order.Basic

namespace DualInference

/-- which variables stand for which, one-to-one -/
structure Pairing where
  pairs : VarId → VarId → Prop
  left_unique : ∀ {v v' w}, pairs v w → pairs v' w → v = v'
  right_unique : ∀ {v w w'}, pairs v w → pairs v w' → w = w'

namespace Pairing

instance : Preorder Pairing where
  le V V' := ∀ v w, V.pairs v w → V'.pairs v w
  le_refl _ _ _ h := h
  le_trans _ _ _ h h' v w hp := h' v w (h v w hp)

/-- without pairs -/
def none : Pairing :=
  ⟨fun _ _ => False, fun h => h.elim, fun h => h.elim⟩

theorem none_le (V : Pairing) : none ≤ V :=
  fun _ _ h => h.elim

/-- the other way round -/
def flip (V : Pairing) : Pairing :=
  ⟨fun w v => V.pairs v w, V.right_unique, V.left_unique⟩

/-- one pair more, of variables that have no partner yet -/
def insert (V : Pairing) (v w : VarId) (hv : ∀ w', ¬V.pairs v w') (hw : ∀ v', ¬V.pairs v' w) : Pairing where
  pairs v' w' := V.pairs v' w' ∨ v' = v ∧ w' = w
  left_unique {v₁ v₂ w'} h₁ h₂ := by
    rcases h₁ with h₁ | ⟨rfl, rfl⟩
    · rcases h₂ with h₂ | ⟨rfl, rfl⟩
      · exact V.left_unique h₁ h₂
      · exact absurd h₁ (hw v₁)
    · rcases h₂ with h₂ | ⟨rfl, _⟩
      · exact absurd h₂ (hw v₂)
      · rfl
  right_unique {v' w₁ w₂} h₁ h₂ := by
    rcases h₁ with h₁ | ⟨rfl, rfl⟩
    · rcases h₂ with h₂ | ⟨rfl, rfl⟩
      · exact V.right_unique h₁ h₂
      · exact absurd h₁ (hv w₁)
    · rcases h₂ with h₂ | ⟨_, rfl⟩
      · exact absurd h₂ (hv w₂)
      · rfl

end Pairing

namespace Ty

/-- equal but for paired variables, with as many parts to each compound as `D` asks for -/
inductive Alike (D : Former → Nat → Prop) (V : Pairing) : Ty → Ty → Prop
  | scalar (s : Scalar) : Alike D V (.scalar s) (.scalar s)
  | wrap (w : Wrapper) {t u : Ty} (h : Alike D V t u) : Alike D V (.wrap w t) (.wrap w u)
  | compound (f : Former) {ts us : List Ty} (hlen : D f ts.length) (h : List.Forall₂ (Alike D V) ts us) :
    Alike D V (.compound f ts) (.compound f us)
  | var {v w : VarId} (h : V.pairs v w) : Alike D V (.var v) (.var w)

section

variable {D : Former → Nat → Prop} {V V' : Pairing}

mutual

/-- Only the pairs of the variables that occur matter. -/
theorem Alike.imp : ∀ {t u : Ty}, Alike D V t u → (∀ v ∈ t.vars, ∀ w, V.pairs v w → V'.pairs v w) → Alike D V' t u
  | .scalar s, u, h, _ => by
    cases h
    exact .scalar s
  | .wrap w t, u, h, hV => by
    cases h with
    | wrap _ h => exact .wrap w (Alike.imp h hV)
  | .compound f ts, u, h, hV => by
    cases h with
    | compound _ hlen h => exact .compound f hlen (Alike.impList h hV)
  | .var v, u, h, hV => by
    cases h with
    | var h => exact .var (hV v (by simp [vars]) _ h)

theorem Alike.impList : ∀ {ts us : List Ty}, List.Forall₂ (Alike D V) ts us →
    (∀ v ∈ varsList ts, ∀ w, V.pairs v w → V'.pairs v w) → List.Forall₂ (Alike D V') ts us
  | [], us, h, _ => by
    cases h
    exact .nil
  | t :: ts, us, h, hV => by
    cases h with
    | cons h hs =>
      exact .cons (Alike.imp h fun v hv => hV v (by simp [varsList, hv]))
        (Alike.impList hs fun v hv => hV v (by simp [varsList, hv]))

end

theorem Alike.mono (hV : V ≤ V') {t u : Ty} (h : Alike D V t u) : Alike D V' t u :=
  h.imp fun v _ w => hV v w

mutual

theorem Alike.flip : ∀ {t u : Ty}, Alike D V t u → Alike D V.flip u t
  | .scalar s, u, h => by
    cases h
    exact .scalar s
  | .wrap w t, u, h => by
    cases h with
    | wrap _ h => exact .wrap w h.flip
  | .compound f ts, u, h => by
    cases h with
    | compound _ hlen h => exact .compound f (h.length_eq ▸ hlen) (Alike.flipList h)
  | .var v, u, h => by
    cases h with
    | var h => exact .var h

theorem Alike.flipList : ∀ {ts us : List Ty}, List.Forall₂ (Alike D V) ts us → List.Forall₂ (Alike D V.flip) us ts
  | [], us, h => by
    cases h
    exact .nil
  | t :: ts, us, h => by
    cases h with
    | cons h hs => exact .cons h.flip (Alike.flipList hs)

end

mutual

/-- What a type is alike to is determined. -/
theorem Alike.right_unique : ∀ {t u u' : Ty}, Alike D V t u → Alike D V t u' → u = u'
  | .scalar s, u, u', h, h' => by
    cases h
    cases h'
    rfl
  | .wrap w t, u, u', h, h' => by
    cases h with
    | wrap _ h =>
      cases h' with
      | wrap _ h' => rw [Alike.right_unique h h']
  | .compound f ts, u, u', h, h' => by
    cases h with
    | compound _ _ h =>
      cases h' with
      | compound _ _ h' => rw [Alike.right_uniqueList h h']
  | .var v, u, u', h, h' => by
    cases h with
    | var h =>
      cases h' with
      | var h' => rw [V.right_unique h h']

theorem Alike.right_uniqueList : ∀ {ts us us' : List Ty}, List.Forall₂ (Alike D V) ts us →
    List.Forall₂ (Alike D V) ts us' → us = us'
  | [], us, us', h, h' => by
    cases h
    cases h'
    rfl
  | t :: ts, us, us', h, h' => by
    cases h with
    | cons h hs =>
      cases h' with
      | cons h' hs' => rw [Alike.right_unique h h', Alike.right_uniqueList hs hs']

end

mutual

/-- Each variable of the first type has its partner in the second. -/
theorem Alike.pairs_vars : ∀ {t u : Ty}, Alike D V t u → ∀ v ∈ t.vars, ∃ w ∈ u.vars, V.pairs v w
  | .scalar s, u, h, v, hv => by simp [vars] at hv
  | .wrap w t, u, h, v, hv => by
    cases h with
    | wrap _ h => exact Alike.pairs_vars h v hv
  | .compound f ts, u, h, v, hv => by
    cases h with
    | compound _ _ h => exact Alike.pairs_varsList h v hv
  | .var x, u, h, v, hv => by
    cases h with
    | var h =>
      rw [vars, List.mem_singleton] at hv
      exact ⟨_, by simp [vars], hv ▸ h⟩

theorem Alike.pairs_varsList : ∀ {ts us : List Ty}, List.Forall₂ (Alike D V) ts us →
    ∀ v ∈ varsList ts, ∃ w ∈ varsList us, V.pairs v w
  | [], us, h, v, hv => by simp [varsList] at hv
  | t :: ts, us, h, v, hv => by
    cases h with
    | cons h hs =>
      rcases List.mem_append.1 hv with hv | hv
      · obtain ⟨w, hw, hp⟩ := Alike.pairs_vars h v hv
        exact ⟨w, List.mem_append_left _ hw, hp⟩
      · obtain ⟨w, hw, hp⟩ := Alike.pairs_varsList hs v hv
        exact ⟨w, List.mem_append_right _ hw, hp⟩

end

mutual

theorem Alike.refl_of_closed : ∀ {t u : Ty}, Alike D .none t u → u = t
  | .scalar s, u, h => by
    cases h
    rfl
  | .wrap w t, u, h => by
    cases h with
    | wrap _ h => rw [Alike.refl_of_closed h]
  | .compound f ts, u, h => by
    cases h with
    | compound _ _ h => rw [Alike.refl_of_closedList h]
  | .var v, u, h => by
    cases h with
    | var h => exact h.elim

theorem Alike.refl_of_closedList : ∀ {ts us : List Ty}, List.Forall₂ (Alike D .none) ts us → us = ts
  | [], us, h => by
    cases h
    rfl
  | t :: ts, us, h => by
    cases h with
    | cons h hs => rw [Alike.refl_of_closed h, Alike.refl_of_closedList hs]

end

/-- Without pairs, only closed types are alike. -/
theorem Alike.vars_eq_nil {t u : Ty} (h : Alike D .none t u) : t.vars = [] := by
  rw [List.eq_nil_iff_forall_not_mem]
  intro v hv
  obtain ⟨w, _, hw⟩ := h.pairs_vars v hv
  exact hw

/-! ## Walks through types that are alike -/

theorem Alike.atRoot {f g : VarId → Ty} (hfg : ∀ v w, V.pairs v w → Alike D V (f v) (g w)) {t u : Ty}
    (h : Alike D V t u) : Alike D V (t.atRoot f) (u.atRoot g) := by
  cases h with
  | scalar s => exact .scalar s
  | wrap w h => exact .wrap w h
  | compound f hlen h => exact .compound f hlen h
  | var h => exact hfg _ _ h

mutual

theorem Alike.subst {f g : VarId → Ty} (hfg : ∀ v w, V.pairs v w → Alike D V' (f v) (g w)) :
    ∀ {t u : Ty}, Alike D V t u → Alike D V' (t.subst f) (u.subst g)
  | .scalar s, u, h => by
    cases h
    exact .scalar s
  | .wrap w t, u, h => by
    cases h with
    | wrap _ h => exact .wrap w (Alike.subst hfg h)
  | .compound p ts, u, h => by
    cases h with
    | compound _ hlen h =>
      refine .compound p ?_ (Alike.substList hfg h)
      rwa [substList_eq_map, List.length_map]
  | .var v, u, h => by
    cases h with
    | var h => exact hfg _ _ h

theorem Alike.substList {f g : VarId → Ty} (hfg : ∀ v w, V.pairs v w → Alike D V' (f v) (g w)) :
    ∀ {ts us : List Ty}, List.Forall₂ (Alike D V) ts us →
      List.Forall₂ (Alike D V') (Ty.substList f ts) (Ty.substList g us)
  | [], us, h => by
    cases h
    exact .nil
  | t :: ts, us, h => by
    cases h with
    | cons h hs => exact .cons (Alike.subst hfg h) (Alike.substList hfg hs)

end

/-- Related options stay related when related functions are applied to them. -/
theorem rel_map {α β α' β' : Type} {R : α → β → Prop} {S : α' → β' → Prop} {f : α → α'} {g : β → β'}
    (hfg : ∀ a b, R a b → S (f a) (g b)) {a : Option α} {b : Option β} (h : Option.Rel R a b) :
    Option.Rel S (a.map f) (b.map g) := by
  cases h with
  | some h => exact .some (hfg _ _ h)
  | none => exact .none

theorem rel_cases {α β : Type} {R : α → β → Prop} {a : Option α} {b : Option β} (h : Option.Rel R a b) :
    a = none ∧ b = none ∨ ∃ x y, a = some x ∧ b = some y ∧ R x y := by
  cases h with
  | some h => exact .inr ⟨_, _, rfl, rfl, h⟩
  | none => exact .inl ⟨rfl, rfl⟩

theorem length_of_substList? {f : VarId → Option Ty} {ts us : List Ty} (h : substList? f ts = some us) :
    us.length = ts.length := by
  induction ts generalizing us with
  | nil =>
    cases h
    rfl
  | cons t ts ih =>
    rw [substList?] at h
    split at h
    · obtain ⟨us', hus', rfl⟩ := Option.map_eq_some_iff.1 h
      simp [ih hus']
    · cases h

mutual

theorem Alike.subst? {f g : VarId → Option Ty} (hfg : ∀ v w, V.pairs v w → Option.Rel (Alike D V') (f v) (g w)) :
    ∀ {t u : Ty}, Alike D V t u → Option.Rel (Alike D V') (t.subst? f) (u.subst? g)
  | .scalar s, u, h => by
    cases h
    exact .some (.scalar s)
  | .wrap w t, u, h => by
    cases h with
    | wrap _ h => exact rel_map (fun _ _ => .wrap w) (Alike.subst? hfg h)
  | .compound p ts, u, h => by
    cases h with
    | @compound _ _ us hlen h =>
      rw [Ty.subst?, Ty.subst?]
      rcases rel_cases (Alike.substList? hfg h) with ⟨hts, hus⟩ | ⟨ts', us', hts, hus, hrel⟩
      · rw [hts, hus]
        exact .none
      · rw [hts, hus]
        exact .some (.compound p (length_of_substList? hts ▸ hlen) hrel)
  | .var v, u, h => by
    cases h with
    | var h => exact hfg _ _ h

theorem Alike.substList? {f g : VarId → Option Ty}
    (hfg : ∀ v w, V.pairs v w → Option.Rel (Alike D V') (f v) (g w)) :
    ∀ {ts us : List Ty}, List.Forall₂ (Alike D V) ts us →
      Option.Rel (List.Forall₂ (Alike D V')) (Ty.substList? f ts) (Ty.substList? g us)
  | [], us, h => by
    cases h
    exact .some .nil
  | t :: ts, us, h => by
    cases h with
    | @cons _ u _ us h hs =>
      rw [Ty.substList?, Ty.substList?]
      rcases rel_cases (Alike.subst? hfg h) with ⟨ht, hu⟩ | ⟨t', u', ht, hu, hrel⟩
      · rw [ht, hu]
        exact .none
      · rw [ht, hu]
        exact rel_map (fun _ _ => .cons hrel) (Alike.substList? hfg hs)

end

mutual

theorem Alike.anyVar {p q : VarId → Bool} (hpq : ∀ v w, V.pairs v w → p v = q w) :
    ∀ {t u : Ty}, Alike D V t u → t.anyVar p = u.anyVar q
  | .scalar s, u, h => by
    cases h
    rfl
  | .wrap w t, u, h => by
    cases h with
    | wrap _ h => rw [Ty.anyVar, Ty.anyVar, Alike.anyVar hpq h]
  | .compound f ts, u, h => by
    cases h with
    | compound _ _ h => rw [Ty.anyVar, Ty.anyVar, Alike.anyVarList hpq h]
  | .var v, u, h => by
    cases h with
    | var h => exact hpq _ _ h

theorem Alike.anyVarList {p q : VarId → Bool} (hpq : ∀ v w, V.pairs v w → p v = q w) :
    ∀ {ts us : List Ty}, List.Forall₂ (Alike D V) ts us → Ty.anyVarList p ts = Ty.anyVarList q us
  | [], us, h => by
    cases h
    rfl
  | t :: ts, us, h => by
    cases h with
    | cons h hs => rw [Ty.anyVarList, Ty.anyVarList, Alike.anyVar hpq h, Alike.anyVarList hpq hs]

end

end

end Ty

end DualInference
