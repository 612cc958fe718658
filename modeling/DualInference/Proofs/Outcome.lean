/-
Results that may be errors.

Programs, definitions and frames are gone through in order, and the first error ends it. So what comes to a result went
well in all its parts (`except_bind_eq_ok`), and what each part keeps holds in the end (`foldlM_keeps`).
-/

namespace DualInference

variable {ε α β : Type}

theorem except_bind_eq_ok {x : Except ε α} {f : α → Except ε β} {b : β} (h : x >>= f = .ok b) :
    ∃ a, x = .ok a ∧ f a = .ok b := by
  cases x with
  | ok a => exact ⟨a, rfl, h⟩
  | error e => cases h

/-- What every step of a run keeps holds at its end. -/
theorem foldlM_keeps {P : β → Prop} {step : β → α → Except ε β} {l : List α} {b b' : β}
    (hstep : ∀ a ∈ l, ∀ b b', P b → step b a = .ok b' → P b') (hb : P b) (h : l.foldlM step b = .ok b') : P b' := by
  induction l generalizing b with
  | nil =>
    cases h
    exact hb
  | cons a l ih =>
    rw [List.foldlM_cons] at h
    obtain ⟨b₁, hb₁, h⟩ := except_bind_eq_ok h
    exact ih (fun a' ha' => hstep a' (List.mem_cons_of_mem a ha')) (hstep a List.mem_cons_self b b₁ hb hb₁) h

end DualInference
