/-
Reading types in an acyclic store.

A store is acyclic if some rank of the variables goes down along every binding. Then a walk that may enter as many
bindings, one inside the other, as there are variables enters all there are (`follow_eq_read`), and every reading obeys
the equation one would write it down by (`read_eq`): a bound variable reads as its binding does. From there on nobody
has to count levels: `prune`, `resolve`, `deref?` and `occurs` are used through their equations.

What makes the count right is that ranks can be counted: the number of variables of smaller rank goes down along
bindings too, and it is below the number of variables.
-/
import DualInference.Ty.Store
import Mathlib.Algebra.Order.BigOperators.Group.List
import Mathlib.Algebra.Order.Group.Nat
import Mathlib.Data.Finset.Card

namespace DualInference

/-- The variables of a type in a list are variables of the list. -/
theorem Ty.mem_varsList {t : Ty} {ts : List Ty} (ht : t ∈ ts) {v : VarId} (hv : v ∈ t.vars) : v ∈ varsList ts := by
  rw [varsList_eq_flatMap]
  exact List.mem_flatMap.2 ⟨t, ht, hv⟩

namespace Store

/-- no variable is reachable from its own binding -/
def Acyclic (s : Store) : Prop :=
  ∃ rank : VarId → Nat, ∀ v t, s.binding? v = some t → ∀ w ∈ t.vars, rank w < rank v

/-- all variables of a type are variables of the store -/
def Covers (s : Store) (t : Ty) : Prop :=
  ∀ v ∈ t.vars, v < s.size

instance (s : Store) (t : Ty) : Decidable (s.Covers t) :=
  inferInstanceAs (Decidable (∀ v ∈ t.vars, v < s.size))

/-- an acyclic store whose bindings mention its own variables only -/
structure WellFormed (s : Store) : Prop where
  acyclic : s.Acyclic
  covers : ∀ v t, s.binding? v = some t → s.Covers t

theorem wellFormed_empty : WellFormed {} := by
  have hnone : ∀ v, ({} : Store).binding? v = none := fun v => by simp [binding?]
  refine ⟨⟨fun _ => 0, fun v t h => ?_⟩, fun v t h => ?_⟩
  · rw [hnone] at h
    cases h
  · rw [hnone] at h
    cases h

theorem Acyclic.fresh {s : Store} (hs : s.Acyclic) : s.fresh.2.Acyclic := by
  obtain ⟨rank, hrank⟩ := hs
  exact ⟨rank, fun v t hv => hrank v t (by simpa using hv)⟩

theorem WellFormed.fresh {s : Store} (hs : s.WellFormed) : s.fresh.2.WellFormed := by
  refine ⟨hs.acyclic.fresh, fun v t hv w hw => ?_⟩
  rw [size_fresh]
  exact (hs.covers v t (by simpa using hv) w hw).trans (Nat.lt_succ_self _)

/-! ## Enough levels -/

/-- a walk that asks about the variables of the type and no others -/
def Local {α : Type} (walk : (VarId → α) → Ty → α) : Prop :=
  ∀ f g t, (∀ v ∈ t.vars, f v = g v) → walk f t = walk g t

/-- number of variables of the store that are of smaller rank -/
def countBelow (s : Store) (rank : VarId → Nat) (v : VarId) : Nat :=
  ((Finset.range s.size).filter fun w => rank w < rank v).card

theorem countBelow_lt {s : Store} {rank : VarId → Nat} {v w : VarId} (hw : w < s.size) (h : rank w < rank v) :
    s.countBelow rank w < s.countBelow rank v := by
  refine Finset.card_lt_card (Finset.ssubset_iff_of_subset ?_ |>.2 ⟨w, ?_, ?_⟩)
  · intro u hu
    rw [Finset.mem_filter] at hu ⊢
    exact ⟨hu.1, hu.2.trans h⟩
  · exact Finset.mem_filter.2 ⟨Finset.mem_range.2 hw, h⟩
  · simp

theorem countBelow_lt_size {s : Store} (rank : VarId → Nat) {v : VarId} (hv : v < s.size) :
    s.countBelow rank v < s.size := by
  have h : (Finset.range s.size).filter (fun w => rank w < rank v) ⊂ Finset.range s.size :=
    Finset.filter_ssubset.2 ⟨v, Finset.mem_range.2 hv, lt_irrefl _⟩
  simpa [countBelow] using Finset.card_lt_card h

section Levels

variable {α : Type} {walk : (VarId → α) → Ty → α} {leaf : VarId → Option α → α}

/-- One level more changes nothing if all bound variables of the type are of small enough rank. -/
theorem follow_succ {s : Store} {rank : VarId → Nat}
    (hrank : ∀ v t, s.binding? v = some t → ∀ w ∈ t.vars, rank w < rank v) (hwalk : Local walk) :
    ∀ n t, (∀ v ∈ t.vars, (s.binding? v).isSome → s.countBelow rank v < n) →
      s.follow walk leaf (n + 1) t = s.follow walk leaf n t := by
  intro n
  induction n with
  | zero =>
    intro t ht
    refine hwalk _ _ t fun v hv => ?_
    cases hb : s.binding? v with
    | none => rfl
    | some u => exact absurd (ht v hv (by simp [hb])) (Nat.not_lt_zero _)
  | succ n ih =>
    intro t ht
    refine hwalk _ _ t fun v hv => ?_
    cases hb : s.binding? v with
    | none => rfl
    | some u =>
      simp only [Option.map_some]
      congr 2
      refine ih u fun w hw hwb => ?_
      have hwv := countBelow_lt (lt_size_of_binding? (Option.get_mem hwb)) (hrank v u hb w hw)
      have hvn := ht v hv (by simp [hb])
      omega

/-- In an acyclic store there is no need for more levels than there are variables. -/
theorem follow_eq_read {s : Store} (hs : s.Acyclic) (hwalk : Local walk) {n : Nat} (hn : s.size ≤ n) (t : Ty) :
    s.follow walk leaf n t = s.read walk leaf t := by
  obtain ⟨rank, hrank⟩ := hs
  induction n, hn using Nat.le_induction with
  | base => rfl
  | succ n hn ih =>
    rw [follow_succ hrank hwalk n t, ih]
    intro v _ hb
    exact (countBelow_lt_size rank (lt_size_of_binding? (Option.get_mem hb))).trans_le hn

/-- A reading asks about a bound variable by reading its binding. -/
theorem read_eq {s : Store} (hs : s.Acyclic) (hwalk : Local walk) (t : Ty) :
    s.read walk leaf t = walk (fun v => leaf v ((s.binding? v).map (s.read walk leaf))) t :=
  (follow_eq_read hs hwalk (Nat.le_succ _) t).symm

end Levels

/-! ## The equations of the readings -/

theorem local_atRoot : Local Ty.atRoot := by
  intro f g t h
  cases t with
  | var v => exact h v (by simp [Ty.vars])
  | _ => rfl

theorem local_subst : Local Ty.subst :=
  fun _ _ _ h => Ty.subst_congr h

theorem local_subst? : Local Ty.subst? :=
  fun _ _ _ h => Ty.subst?_congr h

theorem local_anyVar : Local Ty.anyVar := by
  intro f g t h
  rw [Ty.anyVar_eq_any, Ty.anyVar_eq_any, Bool.eq_iff_iff, List.any_eq_true, List.any_eq_true]
  exact exists_congr fun v => and_congr_right fun hv => by rw [h v hv]

/-- What holds of a type whenever it holds of the bindings of its variables holds of all types. -/
theorem Acyclic.induction {s : Store} (hs : s.Acyclic) {P : Ty → Prop}
    (h : ∀ t, (∀ v ∈ t.vars, ∀ u, s.binding? v = some u → P u) → P t) (t : Ty) : P t := by
  obtain ⟨rank, hrank⟩ := hs
  have hbound : ∀ n t, (∀ v ∈ t.vars, rank v < n) → P t := by
    intro n
    induction n with
    | zero => exact fun t ht => h t fun v hv => absurd (ht v hv) (Nat.not_lt_zero _)
    | succ n ih =>
      refine fun t ht => h t fun v hv u hu => ih u fun w hw => ?_
      have := hrank v u hu w hw
      have := ht v hv
      omega
  refine hbound ((t.vars.map rank).sum + 1) t fun v hv => Nat.lt_succ_of_le ?_
  exact List.le_sum_of_mem (List.mem_map_of_mem hv)

section Equations

variable {s : Store}

theorem prune_var (hs : s.Acyclic) (v : VarId) :
    s.prune (.var v) = match s.binding? v with
      | some u => s.prune u
      | none => .var v := by
  rw [prune, read_eq hs local_atRoot]
  cases h : s.binding? v <;> simp [Ty.atRoot, h, prune]

theorem prune_scalar (c : Scalar) : s.prune (.scalar c) = .scalar c := by
  unfold prune read
  cases s.size <;> rfl

theorem prune_wrap (w : Wrapper) (t : Ty) : s.prune (.wrap w t) = .wrap w t := by
  unfold prune read
  cases s.size <;> rfl

theorem prune_compound (f : Former) (ts : List Ty) : s.prune (.compound f ts) = .compound f ts := by
  unfold prune read
  cases s.size <;> rfl

theorem resolve_eq (hs : s.Acyclic) (t : Ty) :
    s.resolve t = t.subst fun v => ((s.binding? v).map s.resolve).getD (.var v) :=
  read_eq hs local_subst t

theorem deref?_eq (hs : s.Acyclic) (t : Ty) : s.deref? t = t.subst? fun v => (s.binding? v).bind s.deref? := by
  rw [deref?, read_eq hs local_subst?]
  refine Ty.subst?_congr fun v _ => ?_
  cases s.binding? v <;> rfl

theorem deref?_var (hs : s.Acyclic) (v : VarId) : s.deref? (.var v) = (s.binding? v).bind s.deref? := by
  rw [deref?_eq hs]
  rfl

theorem occurs_var (hs : s.Acyclic) (v w : VarId) :
    s.occurs v (.var w) = match s.binding? w with
      | some u => s.occurs v u
      | none => w == v := by
  rw [occurs, read_eq hs local_anyVar]
  cases h : s.binding? w <;> simp [Ty.anyVar, h, occurs]

/-- A variable is reachable from a type if it is reachable from one of its variables. -/
theorem occurs_eq_any (hs : s.Acyclic) (v : VarId) (t : Ty) :
    s.occurs v t = t.vars.any fun w => s.occurs v (.var w) := by
  rw [occurs, read_eq hs local_anyVar, Ty.anyVar_eq_any]
  congr 1
  funext w
  rw [occurs_var hs]
  cases h : s.binding? w <;> simp [occurs]

/-! ## Outcomes -/

/-- Where pruning ends at a variable, that variable is unbound. -/
theorem binding?_of_prune (hs : s.Acyclic) {t : Ty} {v : VarId} (h : s.prune t = .var v) : s.binding? v = none := by
  induction t using hs.induction with
  | h t ih =>
    cases t with
    | var w =>
      rw [prune_var hs] at h
      cases hb : s.binding? w with
      | some u =>
        rw [hb] at h
        exact ih w (by simp [Ty.vars]) u hb h
      | none =>
        rw [hb] at h
        cases h
        exact hb
    | scalar c => rw [prune_scalar] at h; cases h
    | wrap w t => rw [prune_wrap] at h; cases h
    | compound f ts => rw [prune_compound] at h; cases h

/-- Pruning stays among the variables of the store. -/
theorem WellFormed.covers_prune (hs : s.WellFormed) {t : Ty} (h : s.Covers t) : s.Covers (s.prune t) := by
  induction t using hs.acyclic.induction with
  | h t ih =>
    cases t with
    | var w =>
      rw [prune_var hs.acyclic]
      cases hb : s.binding? w with
      | some u => exact ih w (by simp [Ty.vars]) u hb (hs.covers w u hb)
      | none => exact h
    | scalar c => rwa [prune_scalar]
    | wrap w t => rwa [prune_wrap]
    | compound f ts => rwa [prune_compound]

/-- A dereferenced type has no variables, whatever the store. -/
theorem vars_deref? {t u : Ty} (h : s.deref? t = some u) : u.vars = [] := by
  have hsubst : ∀ {f : VarId → Option Ty} {t u : Ty}, (∀ v w, f v = some w → w.vars = []) → t.subst? f = some u →
      u.vars = [] := by
    intro f t u hf h
    obtain ⟨hsome, rfl⟩ := Ty.eq_subst_of_subst? h
    rw [Ty.vars_subst, List.flatMap_eq_nil_iff]
    intro v hv
    obtain ⟨x, hx⟩ := Option.isSome_iff_exists.1 (hsome v hv)
    rw [hx, Option.getD_some]
    exact hf v x hx
  have hfollow : ∀ n t u, s.follow Ty.subst? (fun _ u? => u?.join) n t = some u → u.vars = [] := by
    intro n
    induction n with
    | zero => exact fun t u h => hsubst (fun v w hw => by cases hw) h
    | succ n ih =>
      refine fun t u h => hsubst (fun v w hw => ?_) h
      obtain ⟨b, _, hb⟩ := Option.map_eq_some_iff.1 (Option.join_eq_some_iff.1 hw)
      exact ih b w hb
  exact hfollow _ t u h

end Equations

end Store

end DualInference
