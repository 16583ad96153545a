import Mathlib.Data.List.Basic

/-!
# Consecutive calls of `sprintf`

Each call writes its text behind that of the last, and a terminator behind that. Only the
last terminator stays, so all stores lie inside a buffer exactly when the whole text and one
terminator fit.
-/

namespace LinuxInternals.Text

/-- The offsets stored to when the texts are written from the offset `n` on. -/
def stores : Nat → List (List UInt8) → List Nat
  | _, [] => []
  | n, text :: texts => List.range' n (text.length + 1) ++ stores (n + text.length) texts

theorem le_of_mem_stores {n i : Nat} {texts : List (List UInt8)} (h : i ∈ stores n texts) :
    i ≤ n + texts.flatten.length := by
  induction texts generalizing n with
  | nil => cases h
  | cons text texts ih =>
    rw [List.flatten_cons, List.length_append]
    rcases List.mem_append.mp h with h | h
    · have hlt := (List.mem_range'_1.mp h).2
      omega
    · have hle := ih h
      omega

theorem end_mem_stores (n : Nat) {texts : List (List UInt8)} (h : texts ≠ []) :
    n + texts.flatten.length ∈ stores n texts := by
  induction texts generalizing n with
  | nil => exact absurd rfl h
  | cons text texts ih =>
    rw [stores, List.flatten_cons, List.length_append]
    cases texts with
    | nil => exact List.mem_append_left _ (List.mem_range'_1.mpr (by simp))
    | cons text' texts =>
      rw [← Nat.add_assoc]
      exact List.mem_append_right _ (ih _ (List.cons_ne_nil _ _))

theorem stores_lt_iff {n size : Nat} {texts : List (List UInt8)} (h : texts ≠ []) :
    (∀ i ∈ stores n texts, i < size) ↔ n + texts.flatten.length < size := by
  constructor
  · intro hall
    exact hall _ (end_mem_stores n h)
  · intro hlt i hi
    exact Nat.lt_of_le_of_lt (le_of_mem_stores hi) hlt

end LinuxInternals.Text
