import Mathlib.Algebra.BigOperators.Group.Finset.Piecewise
import Mathlib.Data.Fintype.BigOperators

/-!
# Counting processes

A population gives every process its local state. A step of the system changes
the state of one process, and `headcount_update` says what that does to the
number of processes in a given class.
-/

namespace LinuxInternals

variable {ι π : Type*} [Fintype ι]

/-- The number of processes whose local state is in the class `P`. -/
def headcount (P : π → Bool) (f : ι → π) : Nat :=
  (Finset.univ.filter fun i => P (f i) = true).card

theorem headcount_eq_sum (P : π → Bool) (f : ι → π) :
    headcount P f = ∑ i, (P (f i)).toNat := by
  rw [headcount, Finset.card_filter]
  apply Finset.sum_congr rfl
  intro i _
  cases P (f i) <;> rfl

theorem headcount_update [DecidableEq ι] (P : π → Bool) (f : ι → π) (i : ι) (x : π) :
    headcount P (Function.update f i x) + (P (f i)).toNat = headcount P f + (P x).toNat := by
  have hrest : ∑ j ∈ Finset.univ \ {i}, (P (Function.update f i x j)).toNat =
      ∑ j ∈ Finset.univ \ {i}, (P (f j)).toNat := by
    apply Finset.sum_congr rfl
    intro j hj
    have hne : j ≠ i := by simpa using hj
    rw [Function.update_of_ne hne]
  have hsplit : ∀ g : ι → Nat, ∑ j, g j = ∑ j ∈ Finset.univ \ {i}, g j + g i := by
    intro g
    rw [← Finset.sum_sdiff (Finset.subset_univ {i}), Finset.sum_singleton]
  rw [headcount_eq_sum, headcount_eq_sum, hsplit, hsplit fun j => (P (f j)).toNat, hrest,
    Function.update_self]
  omega

theorem headcount_or {P Q : π → Bool} (h : ∀ x, P x = true → Q x = false) (f : ι → π) :
    headcount (fun x => P x || Q x) f = headcount P f + headcount Q f := by
  rw [headcount_eq_sum, headcount_eq_sum, headcount_eq_sum, ← Finset.sum_add_distrib]
  apply Finset.sum_congr rfl
  intro i _
  cases hP : P (f i) with
  | true => simp [h _ hP]
  | false => simp

theorem headcount_sum {κ : Type*} [Fintype κ] (P : π → Bool) (f : κ → π) (g : ι → π) :
    headcount P (Sum.elim f g) = headcount P f + headcount P g := by
  rw [headcount_eq_sum, headcount_eq_sum, headcount_eq_sum, Fintype.sum_sum_type]
  rfl

theorem headcount_const (P : π → Bool) (x : π) (h : P x = false) :
    headcount P (fun _ : ι => x) = 0 := by
  simp [headcount, h]

theorem headcount_pos {P : π → Bool} {f : ι → π} (i : ι) (h : P (f i) = true) :
    0 < headcount P f :=
  Finset.card_pos.mpr ⟨i, by simpa using h⟩

theorem toNat_le_headcount (P : π → Bool) (f : ι → π) (i : ι) :
    (P (f i)).toNat ≤ headcount P f := by
  cases h : P (f i) with
  | false => exact Nat.zero_le _
  | true => exact headcount_pos i h

theorem headcount_eq_zero_iff {P : π → Bool} {f : ι → π} :
    headcount P f = 0 ↔ ∀ i, P (f i) = false := by
  simp [headcount, Finset.filter_eq_empty_iff]

theorem exists_of_headcount_pos {P : π → Bool} {f : ι → π} (h : 0 < headcount P f) :
    ∃ i, P (f i) = true := by
  obtain ⟨i, hi⟩ := Finset.card_pos.mp h
  exact ⟨i, by simpa using hi⟩

theorem headcount_le_one {P : π → Bool} {f : ι → π}
    (h : ∀ i j, P (f i) = true → P (f j) = true → i = j) : headcount P f ≤ 1 := by
  refine Finset.card_le_one.mpr fun i hi j hj => h i j ?_ ?_
  · simpa using hi
  · simpa using hj

theorem eq_of_headcount_le_one {P : π → Bool} {f : ι → π} (h : headcount P f ≤ 1) {i j : ι}
    (hi : P (f i) = true) (hj : P (f j) = true) : i = j :=
  Finset.card_le_one.mp h i (by simpa using hi) j (by simpa using hj)

end LinuxInternals
