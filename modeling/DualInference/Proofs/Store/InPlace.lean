/-
Unification in place comes out as unification does, and leaves no trace where it fails.

At every moment of an attempt the trail holds exactly the variables bound since its start, and taking their bindings
away gives back the store it started from (`Attempt.Since`). Each assignment keeps that up: what is bound was unbound,
since pruning ends at unbound variables only, which is where the store has to be acyclic. Going through two types is a
number of assignments, whether it succeeds or fails half-way (`alongside_tracks`), so the unwinding at a failure finds
all bindings made on the way and none made before (`unifyInPlace_failed`).
-/
import DualInference.Proofs.Store.Agreement
import DualInference.Ty.InPlace

namespace DualInference

namespace Store

variable {s s' : Store}

/-! ## Unbinding -/

/-- A binding that is made and taken away was never there. -/
theorem unbind_bind {v : VarId} (hunbound : s.binding? v = none) (t : Ty) : (s.bind v t).unbind v = s := by
  obtain ⟨cells⟩ := s
  simp only [unbind, bind, mk.injEq]
  refine Array.ext_getElem? fun i => ?_
  by_cases hi : i = v
  · subst hi
    by_cases hlt : i < cells.size
    · have hnone : cells[i] = none := by
        simpa [binding?, Array.getElem?_eq_getElem hlt] using hunbound
      simp [hlt, hnone]
    · simp [hlt]
  · simp [Array.getElem?_setIfInBounds_ne (Ne.symm hi)]

/-! ## Attempts -/

namespace Attempt

/-- an attempt that started from the store: what is bound since then is on the trail, and nothing else is -/
structure Since (s : Store) (x : Attempt) : Prop where
  acyclic : x.store.Acyclic
  undo : x.undo = s
  kept : s.Retains x.store
  size : x.store.size = s.size
  trail : ∀ v < s.size, v ∈ x.trail ↔ s.binding? v = none ∧ (x.store.binding? v).isSome

theorem Since.start (hs : s.Acyclic) : Since s { store := s } where
  acyclic := hs
  undo := rfl
  kept := .refl s
  size := rfl
  trail v _ := by
    cases h : s.binding? v <;> simp

/-- what the store is after an attempt, if it succeeded -/
def outcome : Bool × Attempt → Option Store
  | (true, x) => some x.store
  | (false, _) => none

/-- An assignment in place is an assignment, and the variable is on the trail. -/
theorem Since.assign {x : Attempt} (h : x.Since s) {v : VarId} (hunbound : x.store.binding? v = none) (t : Ty) :
    x.store.assign v t = outcome (x.assign v t) ∧ (x.assign v t).2.Since s := by
  unfold Attempt.assign Store.assign
  split
  · exact ⟨rfl, h⟩
  · rename_i hocc
    have hkeep := Retains.bind hunbound t
    refine ⟨rfl, h.acyclic.bind_absent hunbound (Bool.eq_false_iff.2 hocc), ?_, h.kept.trans hkeep, ?_, fun w hw => ?_⟩
    · rw [← h.undo, Attempt.undo, List.foldl_cons, unbind_bind hunbound]
      rfl
    · rw [size_bind, h.size]
    · by_cases hwv : w = v
      · subst hwv
        have hlt : w < x.store.size := h.size ▸ hw
        have hnone : s.binding? w = none := by
          cases hb : s.binding? w with
          | none => rfl
          | some u =>
            rw [h.kept w u hb] at hunbound
            cases hunbound
        simp [binding?_bind x.store hlt, hnone]
      · have hsame : (x.store.bind v t).binding? w = x.store.binding? w := by
          by_cases hlt : v < x.store.size
          · rw [binding?_bind x.store hlt, if_neg hwv]
          · rw [bind_of_size_le (Nat.le_of_not_lt hlt)]
        rw [List.mem_cons, or_iff_right hwv, h.trail w hw, hsame]

/-- two ways to go on, one of them in place, come to the same, and the trail is kept in order -/
def Tracks (s : Store) (meet : Store → Ty → Ty → Option Store) (meet' : Ty → Ty → Attempt → Bool × Attempt) : Prop :=
  ∀ {a b x}, x.Since s → meet x.store a b = outcome (meet' a b x) ∧ (meet' a b x).2.Since s

section

variable {meet : Store → Ty → Ty → Option Store} {meet' : Ty → Ty → Attempt → Bool × Attempt}

mutual

/-- If the trail is kept in order wherever variables meet, then it is on the whole way. -/
theorem alongside_tracks (hmeet : Tracks s meet meet') : ∀ {a b : Ty} {x : Attempt}, x.Since s →
    Store.alongside meet x.store a b = outcome (alongside meet' a b x) ∧ (alongside meet' a b x).2.Since s
  | .var v, b, x, h => by
    simp only [Store.alongside, alongside]
    exact hmeet h
  | .scalar p, .var w, x, h => by
    simp only [Store.alongside, alongside]
    exact hmeet h
  | .wrap p t, .var w, x, h => by
    simp only [Store.alongside, alongside]
    exact hmeet h
  | .compound p ts, .var w, x, h => by
    simp only [Store.alongside, alongside]
    exact hmeet h
  | .scalar p, .scalar q, x, h => by
    simp only [Store.alongside, alongside]
    by_cases hp : p = q <;> simp [hp, outcome, h]
  | .wrap p t, .wrap q u, x, h => by
    simp only [Store.alongside, alongside]
    split
    · exact alongside_tracks hmeet (a := t) (b := u) h
    · exact ⟨rfl, h⟩
  | .compound p ts, .compound q us, x, h => by
    simp only [Store.alongside, alongside]
    split
    · exact alongsideList_tracks hmeet h
    · exact ⟨rfl, h⟩
  | .scalar _, .wrap _ _, _, h => ⟨by simp [Store.alongside, alongside, outcome], by simpa [alongside] using h⟩
  | .scalar _, .compound _ _, _, h => ⟨by simp [Store.alongside, alongside, outcome], by simpa [alongside] using h⟩
  | .wrap _ _, .scalar _, _, h => ⟨by simp [Store.alongside, alongside, outcome], by simpa [alongside] using h⟩
  | .wrap _ _, .compound _ _, _, h => ⟨by simp [Store.alongside, alongside, outcome], by simpa [alongside] using h⟩
  | .compound _ _, .scalar _, _, h => ⟨by simp [Store.alongside, alongside, outcome], by simpa [alongside] using h⟩
  | .compound _ _, .wrap _ _, _, h => ⟨by simp [Store.alongside, alongside, outcome], by simpa [alongside] using h⟩

theorem alongsideList_tracks (hmeet : Tracks s meet meet') : ∀ {ts us : List Ty} {x : Attempt}, x.Since s →
    Store.alongsideList meet x.store ts us = outcome (alongsideList meet' ts us x) ∧
      (alongsideList meet' ts us x).2.Since s
  | [], us, x, h => by
    cases us <;> exact ⟨rfl, h⟩
  | _ :: _, [], x, h => ⟨rfl, h⟩
  | t :: ts, u :: us, x, h => by
    obtain ⟨heq, hsince⟩ := alongside_tracks hmeet (a := t) (b := u) h
    rw [Store.alongsideList, alongsideList, heq]
    -- the first pair may fail after some bindings, and those are on the trail
    cases hfirst : alongside meet' t u x with
    | mk done x₁ =>
      rw [hfirst] at hsince
      cases done with
      | true => exact alongsideList_tracks hmeet hsince
      | false => exact ⟨rfl, hsince⟩

end

end

/-- At every depth the attempt in place comes to what unification comes to. -/
theorem within_tracks : ∀ n, Tracks s (reconcileWithin Store.assign n) (within n) := by
  intro n
  induction n with
  | zero => exact alongside_tracks fun h => ⟨rfl, h⟩
  | succ n ih =>
    refine alongside_tracks fun {a b x} h => ?_
    cases ha : x.store.prune a with
    | var v =>
      have hassign := h.assign (binding?_of_prune h.acyclic ha)
      cases hb : x.store.prune b with
      | var w =>
        dsimp only
        split
        · exact ⟨rfl, h⟩
        · exact hassign (.var w)
      | _ => exact hassign _
    | _ =>
      cases hb : x.store.prune b with
      | var w => exact h.assign (binding?_of_prune h.acyclic hb) _
      | _ => exact ih h

end Attempt

/-! ## Outcomes -/

/-- Unification in place comes to what unification comes to, and to the store as it was where there is no unifier. -/
theorem unifyInPlace_eq (hs : s.Acyclic) (a b : Ty) :
    s.unifyInPlace a b = (s.unify a b).elim (false, s) fun s' => (true, s') := by
  obtain ⟨heq, hsince⟩ := Attempt.within_tracks (2 * s.size) (a := a) (b := b) (Attempt.Since.start hs)
  have hunify : s.unify a b = Attempt.outcome (Attempt.within (2 * s.size) a b { store := s }) := heq
  rw [hunify, unifyInPlace]
  cases hr : Attempt.within (2 * s.size) a b { store := s } with
  | mk done x =>
    rw [hr] at hsince
    cases done with
    | true => rfl
    | false => exact congrArg (Prod.mk false) hsince.undo

/-- **A failed unification leaves no trace.** In an acyclic store, whatever the two types share with each other and with
earlier bindings: if they do not unify, every variable is bound as before, or unbound as before. -/
theorem unifyInPlace_failed (hs : s.Acyclic) {a b : Ty} (h : (s.unifyInPlace a b).1 = false) :
    s.unify a b = none ∧ ∀ v, (s.unifyInPlace a b).2.binding? v = s.binding? v := by
  rw [unifyInPlace_eq hs] at h ⊢
  cases hu : s.unify a b with
  | none => exact ⟨rfl, fun _ => rfl⟩
  | some s' =>
    rw [hu] at h
    cases h

/-- three variables, the last bound to arrays of the first -/
def sharingStore : Store :=
  (fresh {}).2.fresh.2.fresh.2.bind 2 (.array (.var 0))

theorem sharingStore_acyclic : sharingStore.Acyclic :=
  wellFormed_empty.fresh.fresh.fresh.acyclic.bind_absent (by decide) (by decide)

/-- A variable of each side is bound before the third variable turns out to be bound to something else. -/
theorem sharingStore_failed :
    (sharingStore.unifyInPlace (.tuple [.var 0, .int, .var 2]) (.tuple [.char, .var 1, .array .bool])).1 = false ∧
    ∀ v, (sharingStore.unifyInPlace (.tuple [.var 0, .int, .var 2]) (.tuple [.char, .var 1, .array .bool])).2.binding? v =
      sharingStore.binding? v :=
  ⟨by decide, (unifyInPlace_failed sharingStore_acyclic (by decide)).2⟩

end Store

end DualInference
