/-
Types where every compound has as many parts as it should.

How many parts a compound should have is given by a condition `D` on formers and numbers. A type meets it everywhere, or it
does not (`Ty.Arranged`); variables in it do not count. If all bindings in a store meet it, then so does whatever is read
from an arranged type (`Store.Arranged.prune`, `Store.Arranged.deref?`), and so do the bindings that unification adds
(`Store.Arranged.unify`): a variable is bound to a part of one of the two types, or to what such a part reads as.
-/
import DualInference.Proofs.Store.Agreement

namespace DualInference

variable {D D' : Former → Nat → Prop}

/-! ## Types -/

namespace Ty

mutual

/-- every compound in the type has as many parts as `D` asks for -/
def Arranged (D : Former → Nat → Prop) : Ty → Prop
  | .scalar _ => True
  | .wrap _ t => Arranged D t
  | .compound f ts => D f ts.length ∧ ArrangedList D ts
  | .var _ => True

def ArrangedList (D : Former → Nat → Prop) : List Ty → Prop
  | [] => True
  | t :: ts => Arranged D t ∧ ArrangedList D ts

end

theorem arrangedList_iff {ts : List Ty} : ArrangedList D ts ↔ ∀ t ∈ ts, Arranged D t := by
  induction ts with
  | nil => simp [ArrangedList]
  | cons t ts ih => rw [ArrangedList, ih, List.forall_mem_cons]

theorem arranged_compound {f : Former} {ts : List Ty} :
    Arranged D (.compound f ts) ↔ D f ts.length ∧ ∀ t ∈ ts, Arranged D t := by
  rw [Arranged, arrangedList_iff]

mutual

theorem Arranged.mono (hD : ∀ f n, D f n → D' f n) : ∀ {t : Ty}, Arranged D t → Arranged D' t
  | .scalar _, _ => trivial
  | .wrap _ t, h => Arranged.mono hD (t := t) h
  | .compound f ts, h => ⟨hD f ts.length h.1, Arranged.monoList hD h.2⟩
  | .var _, _ => trivial

theorem Arranged.monoList (hD : ∀ f n, D f n → D' f n) : ∀ {ts : List Ty}, ArrangedList D ts → ArrangedList D' ts
  | [], _ => trivial
  | _ :: _, h => ⟨Arranged.mono hD h.1, Arranged.monoList hD h.2⟩

end

mutual

/-- What is put for variables does not disturb the rest. -/
theorem Arranged.subst? {f : VarId → Option Ty} (hf : ∀ v u, f v = some u → Arranged D u) :
    ∀ {t u : Ty}, Arranged D t → t.subst? f = some u → Arranged D u
  | .scalar _, u, _, hu => by
    cases hu
    trivial
  | .wrap w t, u, h, hu => by
    obtain ⟨t', ht', rfl⟩ := Option.map_eq_some_iff.1 hu
    exact Arranged.subst? hf (t := t) (u := t') h ht'
  | .compound p ts, u, h, hu => by
    obtain ⟨us, hus, rfl⟩ := Option.map_eq_some_iff.1 hu
    obtain ⟨hlen, hparts⟩ := Arranged.substList? hf h.2 hus
    exact ⟨hlen ▸ h.1, hparts⟩
  | .var v, u, _, hu => hf v u hu

theorem Arranged.substList? {f : VarId → Option Ty} (hf : ∀ v u, f v = some u → Arranged D u) :
    ∀ {ts us : List Ty}, ArrangedList D ts → Ty.substList? f ts = some us → ts.length = us.length ∧ ArrangedList D us
  | [], us, _, hus => by
    cases hus
    exact ⟨rfl, trivial⟩
  | t :: ts, us, h, hus => by
    rw [Ty.substList?] at hus
    cases ht : t.subst? f with
    | none =>
      rw [ht] at hus
      cases hus
    | some u =>
      rw [ht] at hus
      obtain ⟨us', hus', rfl⟩ := Option.map_eq_some_iff.1 hus
      obtain ⟨hlen, hparts⟩ := Arranged.substList? hf h.2 hus'
      exact ⟨by rw [List.length_cons, List.length_cons, hlen], Arranged.subst? hf h.1 ht, hparts⟩

end

end Ty

/-! ## Stores -/

namespace Store

/-- everything that a variable is bound to is arranged -/
def Arranged (D : Former → Nat → Prop) (s : Store) : Prop :=
  ∀ v t, s.binding? v = some t → t.Arranged D

namespace Arranged

variable {s : Store}

theorem mono (hs : s.Arranged D) (hD : ∀ f n, D f n → D' f n) : s.Arranged D' :=
  fun v t ht => (hs v t ht).mono hD

theorem fresh (hs : s.Arranged D) : s.fresh.2.Arranged D := by
  intro v t ht
  rw [binding?_fresh] at ht
  exact hs v t ht

theorem bind (hs : s.Arranged D) {t : Ty} (ht : t.Arranged D) (v : VarId) : (s.bind v t).Arranged D := by
  intro w u hu
  by_cases hv : v < s.size
  · rw [binding?_bind s hv] at hu
    split at hu
    · cases hu
      exact ht
    · exact hs w u hu
  · rw [bind_of_size_le (Nat.le_of_not_lt hv)] at hu
    exact hs w u hu

theorem prune (hs : s.Arranged D) {t : Ty} (ht : t.Arranged D) : (s.prune t).Arranged D := by
  have hfollow : ∀ n {t : Ty}, t.Arranged D → (s.follow Ty.atRoot (fun v u? => u?.getD (.var v)) n t).Arranged D := by
    intro n
    induction n with
    | zero =>
      intro t ht
      cases t <;> exact ht
    | succ n ih =>
      intro t ht
      cases t with
      | var v =>
        rw [follow, Ty.atRoot]
        cases hv : s.binding? v with
        | none => exact ht
        | some u => exact ih (hs v u hv)
      | _ => exact ht
  exact hfollow s.size ht

theorem deref? (hs : s.Arranged D) {t u : Ty} (ht : t.Arranged D) (hu : s.deref? t = some u) : u.Arranged D := by
  have hfollow : ∀ n {t u : Ty}, t.Arranged D → s.follow Ty.subst? (fun _ u? => u?.join) n t = some u → u.Arranged D := by
    intro n
    induction n with
    | zero => exact fun ht hu => Ty.Arranged.subst? (by nofun) ht hu
    | succ n ih =>
      intro t u ht hu
      refine Ty.Arranged.subst? (fun v u' hu' => ?_) ht hu
      obtain ⟨p, hp, hfollow⟩ := Option.map_eq_some_iff.1 (Option.join_eq_some_iff.1 hu')
      exact ih (hs v p hp) hfollow
  exact hfollow s.size ht hu

end Arranged

/-! ## Unification -/

/-- Every pair of a run is of parts of the types before, or of what those read as. -/
theorem Arranged.agree {s s' : Store} {ps : List (Ty × Ty)} (h : Agree s ps s') (hs : s.Arranged D)
    (hps : ∀ p ∈ ps, p.1.Arranged D ∧ p.2.Arranged D) : s'.Arranged D := by
  induction h with
  | done => exact hs
  | scalar _ ih => exact ih hs (List.forall_mem_cons.1 hps).2
  | wrap _ ih =>
    obtain ⟨hfirst, hrest⟩ := List.forall_mem_cons.1 hps
    exact ih hs (List.forall_mem_cons.2 ⟨hfirst, hrest⟩)
  | compound _ _ ih =>
    obtain ⟨⟨ht, hu⟩, hrest⟩ := List.forall_mem_cons.1 hps
    refine ih hs (List.forall_mem_append.2 ⟨fun p hp => ?_, hrest⟩)
    obtain ⟨hpt, hpu⟩ := List.of_mem_zip hp
    exact ⟨(Ty.arranged_compound.1 ht).2 _ hpt, (Ty.arranged_compound.1 hu).2 _ hpu⟩
  | pruned _ ih =>
    obtain ⟨⟨ha, hb⟩, hrest⟩ := List.forall_mem_cons.1 hps
    exact ih hs (List.forall_mem_cons.2 ⟨⟨hs.prune ha, hs.prune hb⟩, hrest⟩)
  | same _ _ _ _ ih => exact ih hs (List.forall_mem_cons.1 hps).2
  | bind v t hab _ _ ih =>
    obtain ⟨⟨ha, hb⟩, hrest⟩ := List.forall_mem_cons.1 hps
    have ht : t.Arranged D := by
      rcases hab with ⟨_, rfl⟩ | ⟨_, rfl⟩
      · exact hs.prune hb
      · exact hs.prune ha
    exact ih (hs.bind ht v) hrest

theorem Arranged.unify {s s' : Store} (hs : s.Arranged D) {a b : Ty} (ha : a.Arranged D) (hb : b.Arranged D)
    (h : s.unify a b = some s') : s'.Arranged D :=
  Arranged.agree (unify_agree h) hs (List.forall_mem_singleton.2 ⟨ha, hb⟩)

end Store

end DualInference
