/-
Unification in a well-formed store.

Comparing two types changes the store by proper bindings only: each binds an unbound variable of the store to a type in
which it does not occur. A proper binding keeps the store well formed (`WellFormed.bind`), so all stores made on the way
are well formed, and bindings made earlier stay (`Grows`).

Comparison also goes deep enough (`reconcileWithin_eq`). The number of bindings that can be entered one inside the other
below a type is its height. Bindings made on the way may raise heights, so the levels left are compared with the heights
in all stores that can still come (`Enough`): to prune a bound variable takes one off its height in every one of them,
and in none is a height above the number of variables.
-/
import DualInference.Proofs.Store.Acyclic
import DualInference.Ty.Unify
import Mathlib.Data.Finset.Lattice.Fold
import Mathlib.Logic.Relation
import Mathlib.Order.Lattice.Nat

namespace DualInference

namespace Store

/-! ## Proper bindings -/

/-- what makes it proper to bind a variable to a type -/
structure Proper (s : Store) (v : VarId) (t : Ty) : Prop where
  lt : v < s.size
  unbound : s.binding? v = none
  covers : s.Covers t
  absent : s.occurs v t = false

/-- the second store has one proper binding more -/
def Binds (s s' : Store) : Prop :=
  ∃ v t, s.Proper v t ∧ s' = s.bind v t

/-- the second store has some proper bindings more -/
def Grows : Store → Store → Prop :=
  Relation.ReflTransGen Binds

/-- To bind a variable to a type in which it does not occur closes no cycle: variables from which `v` is reachable go
above all others. -/
theorem Acyclic.bind_absent {s : Store} (hs : s.Acyclic) {v : VarId} {t : Ty} (hunbound : s.binding? v = none)
    (habsent : s.occurs v t = false) : (s.bind v t).Acyclic := by
  by_cases hlt : v < s.size
  case neg => rwa [bind_of_size_le (Nat.le_of_not_lt hlt)]
  have hocc := occurs_eq_any hs v t
  obtain ⟨rank, hrank⟩ := hs
  have hs : s.Acyclic := ⟨rank, hrank⟩
  refine ⟨fun w => rank w + if s.occurs v (.var w) then (t.vars.map rank).sum + 1 else 0, ?_⟩
  intro u tu hu w hw
  rw [binding?_bind s hlt] at hu
  by_cases huv : u = v
  · subst huv
    rw [if_pos rfl] at hu
    cases hu
    have hwv : s.occurs u (.var w) = false := by
      rw [habsent] at hocc
      simpa using List.any_eq_false.1 hocc.symm w hw
    have huu : s.occurs u (.var u) = true := by
      rw [occurs_var hs, hunbound]
      exact beq_self_eq_true u
    have hle : rank w ≤ (t.vars.map rank).sum := List.le_sum_of_mem (List.mem_map_of_mem hw)
    simp only [hwv, huu, if_true, Bool.false_eq_true, if_false]
    omega
  · rw [if_neg huv] at hu
    have hlt := hrank u tu hu w hw
    have himp : s.occurs v (.var w) = true → s.occurs v (.var u) = true := by
      intro hvw
      rw [occurs_var hs, hu]
      exact (occurs_eq_any hs v tu).trans (List.any_eq_true.2 ⟨w, hw, hvw⟩)
    by_cases hvw : s.occurs v (.var w) = true
    · simp only [hvw, himp hvw, if_true]
      omega
    · simp only [hvw, Bool.false_eq_true, if_false]
      omega

/-- A proper binding closes no cycle. -/
theorem Acyclic.bind {s : Store} (hs : s.Acyclic) {v : VarId} {t : Ty} (h : s.Proper v t) : (s.bind v t).Acyclic :=
  hs.bind_absent h.unbound h.absent

theorem WellFormed.bind {s : Store} (hs : s.WellFormed) {v : VarId} {t : Ty} (h : s.Proper v t) :
    (s.bind v t).WellFormed := by
  refine ⟨hs.acyclic.bind h, fun w u hu x hx => ?_⟩
  rw [size_bind]
  rw [binding?_bind s h.lt] at hu
  split at hu
  · cases hu
    exact h.covers x hx
  · exact hs.covers w u hu x hx

namespace Grows

variable {s s' s'' : Store}

theorem refl (s : Store) : s.Grows s :=
  Relation.ReflTransGen.refl

theorem trans (h : s.Grows s') (h' : s'.Grows s'') : s.Grows s'' :=
  Relation.ReflTransGen.trans h h'

theorem bind {v : VarId} {t : Ty} (h : s.Proper v t) : s.Grows (s.bind v t) :=
  Relation.ReflTransGen.single ⟨v, t, h, rfl⟩

theorem size_eq (h : s.Grows s') : s'.size = s.size := by
  induction h with
  | refl => rfl
  | tail _ hb ih =>
    obtain ⟨v, t, _, rfl⟩ := hb
    rw [size_bind, ih]

theorem wellFormed (h : s.Grows s') (hs : s.WellFormed) : s'.WellFormed := by
  induction h with
  | refl => exact hs
  | tail _ hb ih =>
    obtain ⟨v, t, ht, rfl⟩ := hb
    exact ih.bind ht

theorem covers (h : s.Grows s') {t : Ty} (ht : s.Covers t) : s'.Covers t :=
  fun v hv => h.size_eq ▸ ht v hv

/-- What is bound stays bound, to the same type. -/
theorem binding? (h : s.Grows s') {v : VarId} {t : Ty} (hv : s.binding? v = some t) : s'.binding? v = some t := by
  induction h with
  | refl => exact hv
  | tail _ hb ih =>
    obtain ⟨w, u, hu, rfl⟩ := hb
    have hne : v ≠ w := by
      rintro rfl
      rw [hu.unbound] at ih
      cases ih
    rw [binding?_bind _ hu.lt, if_neg hne, ih]

end Grows

/-! ## Height -/

/-- how many bindings can be entered one inside the other below a type -/
def height (s : Store) (t : Ty) : Nat :=
  s.read (fun f t => t.vars.toFinset.sup f) (fun _ n => n.elim 0 (· + 1)) t

theorem local_sup : Local fun (f : VarId → Nat) t => t.vars.toFinset.sup f :=
  fun _ _ _ h => Finset.sup_congr rfl fun v hv => h v (List.mem_toFinset.1 hv)

theorem height_le_size (s : Store) (t : Ty) : s.height t ≤ s.size := by
  have h : ∀ n t, s.follow (fun f t => t.vars.toFinset.sup f) (fun _ n => n.elim 0 (· + 1)) n t ≤ n := by
    intro n
    induction n with
    | zero => exact fun t => Finset.sup_le fun v _ => Nat.le_refl 0
    | succ n ih =>
      refine fun t => Finset.sup_le fun v _ => ?_
      cases s.binding? v with
      | none => exact Nat.zero_le _
      | some u => exact Nat.succ_le_succ (ih u)
  exact h s.size t

section Height

variable {s : Store}

theorem height_var (hs : s.Acyclic) (v : VarId) :
    s.height (.var v) = match s.binding? v with
      | some u => s.height u + 1
      | none => 0 := by
  rw [height, read_eq hs local_sup]
  cases h : s.binding? v <;> simp [Ty.vars, h, height]

theorem height_le_of_vars (hs : s.Acyclic) {t u : Ty} (h : ∀ v ∈ t.vars, v ∈ u.vars) : s.height t ≤ s.height u := by
  rw [height, read_eq hs local_sup, height, read_eq hs local_sup]
  exact Finset.sup_mono fun v hv => List.mem_toFinset.2 (h v (List.mem_toFinset.1 hv))

/-- Pruning in an earlier store does not raise the height, and lowers it where a bound variable is pruned. -/
theorem height_prune {s₀ : Store} (hs₀ : s₀.Acyclic) (hs : s.Acyclic) (hg : s₀.Grows s) (t : Ty) :
    s.height (s₀.prune t) ≤ s.height t ∧
      ∀ v, t = .var v → (s₀.binding? v).isSome → s.height (s₀.prune t) < s.height t := by
  induction t using hs₀.induction with
  | h t ih =>
    cases t with
    | var w =>
      rw [prune_var hs₀]
      cases hb : s₀.binding? w with
      | some u =>
        have hu := (ih w (by simp [Ty.vars]) u hb).1
        have hw : s.height (.var w) = s.height u + 1 := by rw [height_var hs, hg.binding? hb]
        dsimp only
        exact ⟨by omega, fun _ _ _ => by omega⟩
      | none =>
        refine ⟨Nat.le_refl _, ?_⟩
        rintro v hv hsome
        cases hv
        rw [hb] at hsome
        cases hsome
    | scalar c => exact ⟨by rw [prune_scalar], nofun⟩
    | wrap w t => exact ⟨by rw [prune_wrap], nofun⟩
    | compound f ts => exact ⟨by rw [prune_compound], nofun⟩

end Height

/-! ## Side by side -/

/-- a condition on a store and two types that passes to corresponding parts and to later stores -/
structure Hereditary (G : Store → Ty → Ty → Prop) : Prop where
  wrap : ∀ {s p q t u}, G s (.wrap p t) (.wrap q u) → G s t u
  compound : ∀ {s p q ts us}, G s (.compound p ts) (.compound q us) → ∀ t ∈ ts, ∀ u ∈ us, G s t u
  grows : ∀ {s s' a b}, s.Grows s' → G s a b → G s' a b

/-- The parts of a compound have variables of the compound. -/
theorem Covers.part {s : Store} {f : Former} {ts : List Ty} {t : Ty} (h : s.Covers (.compound f ts)) (ht : t ∈ ts) :
    s.Covers t :=
  fun v hv => h v (Ty.mem_varsList ht hv)

/-- a variable stands on either side -/
def Meets (a b : Ty) : Prop :=
  (∃ v, a = .var v) ∨ ∃ w, b = .var w

section Alongside

variable {G : Store → Ty → Ty → Prop} {meet meet' : Store → Ty → Ty → Option Store}

mutual

/-- If two ways to go on agree, and let the store grow, wherever variables meet, then so do the comparisons. -/
theorem alongside_congr (hG : Hereditary G)
    (hmeet : ∀ s a b, G s a b → Meets a b →
      meet s a b = meet' s a b ∧ ∀ s', meet s a b = some s' → s.Grows s') :
    ∀ (a b : Ty) (s : Store), G s a b →
      alongside meet s a b = alongside meet' s a b ∧ ∀ s', alongside meet s a b = some s' → s.Grows s'
  | .var v, b, s, h => by
    simp only [alongside]
    exact hmeet s _ _ h (.inl ⟨v, rfl⟩)
  | .scalar p, .var w, s, h => by
    simp only [alongside]
    exact hmeet s _ _ h (.inr ⟨w, rfl⟩)
  | .wrap p t, .var w, s, h => by
    simp only [alongside]
    exact hmeet s _ _ h (.inr ⟨w, rfl⟩)
  | .compound p ts, .var w, s, h => by
    simp only [alongside]
    exact hmeet s _ _ h (.inr ⟨w, rfl⟩)
  | .scalar p, .scalar q, s, _ => by
    refine ⟨by simp only [alongside], fun s' h => ?_⟩
    simp only [alongside] at h
    split at h
    · cases h
      exact .refl s
    · cases h
  | .wrap p t, .wrap q u, s, h => by
    simp only [alongside]
    split
    · exact alongside_congr hG hmeet t u s (hG.wrap h)
    · exact ⟨rfl, nofun⟩
  | .compound p ts, .compound q us, s, h => by
    simp only [alongside]
    split
    · exact alongsideList_congr hG hmeet ts us s (hG.compound h)
    · exact ⟨rfl, nofun⟩
  | .scalar _, .wrap _ _, _, _ => by simp [alongside]
  | .scalar _, .compound _ _, _, _ => by simp [alongside]
  | .wrap _ _, .scalar _, _, _ => by simp [alongside]
  | .wrap _ _, .compound _ _, _, _ => by simp [alongside]
  | .compound _ _, .scalar _, _, _ => by simp [alongside]
  | .compound _ _, .wrap _ _, _, _ => by simp [alongside]

theorem alongsideList_congr (hG : Hereditary G)
    (hmeet : ∀ s a b, G s a b → Meets a b →
      meet s a b = meet' s a b ∧ ∀ s', meet s a b = some s' → s.Grows s') :
    ∀ (ts us : List Ty) (s : Store), (∀ t ∈ ts, ∀ u ∈ us, G s t u) →
      alongsideList meet s ts us = alongsideList meet' s ts us ∧
        ∀ s', alongsideList meet s ts us = some s' → s.Grows s'
  | [], us, s, _ => by
    cases us <;> exact ⟨rfl, fun s' h => by cases h; exact .refl s⟩
  | t :: ts, [], s, _ => ⟨rfl, fun s' h => by cases h; exact .refl s⟩
  | t :: ts, u :: us, s, h => by
    obtain ⟨heq, hgrows⟩ := alongside_congr hG hmeet t u s (h t (by simp) u (by simp))
    simp only [alongsideList, ← heq]
    cases hs₁ : alongside meet s t u with
    | none => exact ⟨rfl, nofun⟩
    | some s₁ =>
      have hg := hgrows s₁ hs₁
      obtain ⟨heq', hgrows'⟩ := alongsideList_congr hG hmeet ts us s₁ fun t' ht' u' hu' =>
        hG.grows hg (h t' (by simp [ht']) u' (by simp [hu']))
      exact ⟨heq', fun s' hs' => hg.trans (hgrows' s' hs')⟩

end

end Alongside

/-! ## Enough levels -/

/-- what is done where an unbound variable meets another type: nothing, or a proper binding -/
def Lawful (settle : Store → VarId → Ty → Option Store) : Prop :=
  ∀ s v t s', s.WellFormed → v < s.size → s.binding? v = none → s.Covers t → settle s v t = some s' → s.Grows s'

theorem lawful_none : Lawful fun _ _ _ => none :=
  fun _ _ _ _ _ _ _ _ h => nomatch h

theorem lawful_assign : Lawful assign := by
  intro s v t s' _ hv hnone ht h
  unfold assign at h
  split at h
  · cases h
  · rename_i hocc
    cases h
    exact .bind ⟨hv, hnone, ht, Bool.eq_false_iff.2 hocc⟩

/-- a well-formed store, two types of it, and as many levels as their heights come to in any store that can follow -/
structure Enough (n : Nat) (s : Store) (a b : Ty) : Prop where
  wellFormed : s.WellFormed
  left : s.Covers a
  right : s.Covers b
  heights : ∀ s', s.Grows s' → s'.height a + s'.height b ≤ n

theorem enough_hereditary (n : Nat) : Hereditary (Enough n) where
  wrap {s p q t u} h := by
    refine ⟨h.wellFormed, h.left, h.right, fun s' hs' => ?_⟩
    have hac := (hs'.wellFormed h.wellFormed).acyclic
    have ht : s'.height t ≤ s'.height (.wrap p t) := height_le_of_vars hac fun v hv => hv
    have hu : s'.height u ≤ s'.height (.wrap q u) := height_le_of_vars hac fun v hv => hv
    have := h.heights s' hs'
    omega
  compound {s p q ts us} h t ht u hu := by
    refine ⟨h.wellFormed, h.left.part ht, h.right.part hu, fun s' hs' => ?_⟩
    have hac := (hs'.wellFormed h.wellFormed).acyclic
    have ht' : s'.height t ≤ s'.height (.compound p ts) := height_le_of_vars hac fun v => Ty.mem_varsList ht
    have hu' : s'.height u ≤ s'.height (.compound q us) := height_le_of_vars hac fun v => Ty.mem_varsList hu
    have := h.heights s' hs'
    omega
  grows hg h := ⟨hg.wellFormed h.wellFormed, hg.covers h.left, hg.covers h.right,
    fun s' hs' => h.heights s' (hg.trans hs')⟩

/-- An unbound variable can still be bound, so a variable takes at least one level. -/
theorem height_of_var {s : Store} (hs : s.WellFormed) {v : VarId} (hv : v < s.size) :
    ∃ s', s.Grows s' ∧ 0 < s'.height (.var v) := by
  cases hb : s.binding? v with
  | some u => exact ⟨s, .refl s, by rw [height_var hs.acyclic, hb]; exact Nat.succ_pos _⟩
  | none =>
    have hp : s.Proper v .int := by
      refine ⟨hv, hb, fun w hw => by simp [Ty.vars] at hw, ?_⟩
      rw [occurs_eq_any hs.acyclic]
      rfl
    refine ⟨_, .bind hp, ?_⟩
    rw [height_var (hs.bind hp).acyclic, binding?_bind s hv, if_pos rfl]
    exact Nat.succ_pos _

theorem Enough.pos {n : Nat} {s : Store} {a b : Ty} (h : Enough n s a b) (hm : Meets a b) : 0 < n := by
  rcases hm with ⟨v, rfl⟩ | ⟨w, rfl⟩
  · obtain ⟨s', hg, hpos⟩ := height_of_var h.wellFormed (h.left v (by simp [Ty.vars]))
    have := h.heights s' hg
    omega
  · obtain ⟨s', hg, hpos⟩ := height_of_var h.wellFormed (h.right w (by simp [Ty.vars]))
    have := h.heights s' hg
    omega

/-- Where variables meet and both sides are pruned to other types, a level less is enough for those. -/
theorem Enough.prune {n : Nat} {s : Store} {a b : Ty} (h : Enough (n + 1) s a b) (hm : Meets a b)
    (ha : ∀ v, s.prune a ≠ .var v) (hb : ∀ w, s.prune b ≠ .var w) : Enough n s (s.prune a) (s.prune b) := by
  have hbound : ∀ {t : Ty}, (∀ v, s.prune t ≠ .var v) → ∀ v, t = .var v → (s.binding? v).isSome := by
    rintro t ht v rfl
    cases hv : s.binding? v with
    | some u => rfl
    | none => exact absurd (by rw [prune_var h.wellFormed.acyclic, hv]) (ht v)
  refine ⟨h.wellFormed, h.wellFormed.covers_prune h.left, h.wellFormed.covers_prune h.right, fun s' hs' => ?_⟩
  have hac := (hs'.wellFormed h.wellFormed).acyclic
  obtain ⟨hale, halt⟩ := height_prune h.wellFormed.acyclic hac hs' a
  obtain ⟨hble, hblt⟩ := height_prune h.wellFormed.acyclic hac hs' b
  have hsum := h.heights s' hs'
  rcases hm with ⟨v, hv⟩ | ⟨w, hw⟩
  · have := halt v hv (hbound ha v hv)
    omega
  · have := hblt w hw (hbound hb w hw)
    omega

/-- With enough levels, one more changes nothing, and the store grows. -/
theorem reconcileWithin_succ {settle : Store → VarId → Ty → Option Store} (hset : Lawful settle) :
    ∀ n s a b, Enough n s a b →
      reconcileWithin settle n s a b = reconcileWithin settle (n + 1) s a b ∧
        ∀ s', reconcileWithin settle n s a b = some s' → s.Grows s' := by
  intro n
  induction n with
  | zero =>
    exact fun s a b h => alongside_congr (enough_hereditary 0) (fun s a b h hm => absurd (h.pos hm) (Nat.lt_irrefl 0))
      a b s h
  | succ n ih =>
    intro s a b h
    refine alongside_congr (enough_hereditary (n + 1)) (fun s a b h hm => ?_) a b s h
    have hac := h.wellFormed.acyclic
    have hca := h.wellFormed.covers_prune h.left
    have hcb := h.wellFormed.covers_prune h.right
    have hsettle : ∀ {c d : Ty} {v t s'}, s.prune c = .var v → s.Covers (.var v) → s.Covers t →
        settle s v t = some s' → s.Grows s' :=
      fun hc hv ht => hset s _ _ _ h.wellFormed (hv _ (by simp [Ty.vars])) (binding?_of_prune hac hc) ht
    cases hpa : s.prune a with
    | var v =>
      rw [hpa] at hca
      cases hpb : s.prune b with
      | var w =>
        rw [hpb] at hcb
        dsimp only
        split
        · exact ⟨rfl, fun s' hs' => by cases hs'; exact .refl s⟩
        · exact ⟨rfl, fun s' => hsettle (d := b) hpa hca hcb⟩
      | _ =>
        rw [hpb] at hcb
        exact ⟨rfl, fun s' => hsettle (d := b) hpa hca hcb⟩
    | _ =>
      cases hpb : s.prune b with
      | var w =>
        rw [hpb] at hcb
        rw [hpa] at hca
        exact ⟨rfl, fun s' => hsettle (d := a) hpb hcb hca⟩
      | _ =>
        have h' := h.prune hm (by simp [hpa]) (by simp [hpb])
        rw [hpa, hpb] at h'
        exact ih s _ _ h'

/-- Twice the number of variables is enough. -/
theorem WellFormed.enough {s : Store} (hs : s.WellFormed) {a b : Ty} (ha : s.Covers a) (hb : s.Covers b) {n : Nat}
    (hn : 2 * s.size ≤ n) : Enough n s a b := by
  refine ⟨hs, ha, hb, fun s' hs' => ?_⟩
  have hla := height_le_size s' a
  have hlb := height_le_size s' b
  have := hs'.size_eq
  omega

/-- Comparison goes deep enough: more levels change nothing. -/
theorem reconcileWithin_eq {settle : Store → VarId → Ty → Option Store} (hset : Lawful settle) {s : Store}
    (hs : s.WellFormed) {a b : Ty} (ha : s.Covers a) (hb : s.Covers b) {n : Nat} (hn : 2 * s.size ≤ n) :
    reconcileWithin settle n s a b = s.reconcile settle a b := by
  induction n, hn using Nat.le_induction with
  | base => rfl
  | succ n hn ih => rw [← (reconcileWithin_succ hset n s a b (hs.enough ha hb hn)).1, ih]

/-- Unification makes proper bindings only. -/
theorem unify_grows {s s' : Store} (hs : s.WellFormed) {a b : Ty} (ha : s.Covers a) (hb : s.Covers b)
    (h : s.unify a b = some s') : s.Grows s' :=
  (reconcileWithin_succ lawful_assign _ s a b (hs.enough ha hb (Nat.le_refl _))).2 s' h

end Store

end DualInference
