import Mathlib.Logic.Function.Basic

/-!
# Spinlocks

A lock is free or held by a process, and each process knows from its place in the program
which locks it holds. As long as locks change hands by taking a free lock and dropping a lock
that one holds, the two views agree.
-/

namespace LinuxInternals.SpinLock

variable {ι L : Type*} [DecidableEq ι] [DecidableEq L]

/-- What a step of process `i` does to the locks, and to those that it knows it holds. -/
inductive Moves (i : ι) (holder : L → Option ι) (mine : L → Bool) :
    (L → Option ι) → (L → Bool) → Prop where
  | keep : Moves i holder mine holder mine
  | take (l : L) : holder l = none →
      Moves i holder mine (Function.update holder l (some i)) (Function.update mine l true)
  | drop (l : L) : mine l = true →
      Moves i holder mine (Function.update holder l none) (Function.update mine l false)

/-- Nobody believes to hold a lock that is not his. -/
def Sound (holder : L → Option ι) (held : ι → L → Bool) : Prop :=
  ∀ i l, held i l = true → holder l = some i

/-- A lock is held by the process that knows of it. -/
def Agree (holder : L → Option ι) (held : ι → L → Bool) : Prop :=
  ∀ i l, held i l = true ↔ holder l = some i

/-- Whoever holds the lock knows of it. -/
def Owned (holder : L → Option ι) (held : ι → L → Bool) (l : L) : Prop :=
  ∀ i, holder l = some i → held i l = true

variable {holder holder' : L → Option ι} {held : ι → L → Bool} {mine : L → Bool} {i : ι}

omit [DecidableEq ι] [DecidableEq L] in
theorem agree_iff : Agree holder held ↔ Sound holder held ∧ ∀ l, Owned holder held l :=
  ⟨fun h => ⟨fun i l => (h i l).mp, fun l i => (h i l).mpr⟩,
    fun h i l => ⟨h.1 i l, h.2 l i⟩⟩

theorem Sound.step (h : Sound holder held) (hmoves : Moves i holder (held i) holder' mine) :
    Sound holder' (Function.update held i mine) := by
  intro j l hl
  rcases eq_or_ne j i with rfl | hji
  · rw [Function.update_self] at hl
    cases hmoves with
    | keep => exact h j l hl
    | take m hm =>
      rcases eq_or_ne l m with rfl | hlm
      · exact Function.update_self ..
      · rw [Function.update_of_ne hlm] at hl ⊢
        exact h j l hl
    | drop m hm =>
      rcases eq_or_ne l m with rfl | hlm
      · rw [Function.update_self] at hl
        cases hl
      · rw [Function.update_of_ne hlm] at hl ⊢
        exact h j l hl
  · rw [Function.update_of_ne hji] at hl
    have hj := h j l hl
    cases hmoves with
    | keep => exact hj
    | take m hm =>
      have hlm : l ≠ m := by
        rintro rfl
        rw [hm] at hj
        cases hj
      rwa [Function.update_of_ne hlm]
    | drop m hm =>
      have hlm : l ≠ m := by
        rintro rfl
        rw [h i l hm] at hj
        exact hji (Option.some.inj hj).symm
      rwa [Function.update_of_ne hlm]

omit [DecidableEq ι] in
/-- A process may take a free lock and forget about it. -/
theorem Sound.leak (h : Sound holder held) {l : L} (hl : holder l = none) (i : ι) :
    Sound (Function.update holder l (some i)) held := by
  intro j m hm
  have hj := h j m hm
  have hml : m ≠ l := by
    rintro rfl
    rw [hl] at hj
    cases hj
  rwa [Function.update_of_ne hml]

theorem Owned.step {l : L} (h : Owned holder held l)
    (hmoves : Moves i holder (held i) holder' mine) :
    Owned holder' (Function.update held i mine) l := by
  intro j hl
  cases hmoves with
  | keep =>
    rw [Function.update_eq_self]
    exact h j hl
  | take m hm =>
    rcases eq_or_ne l m with rfl | hlm
    · rw [Function.update_self] at hl
      obtain rfl := Option.some.inj hl
      rw [Function.update_self, Function.update_self]
    · rw [Function.update_of_ne hlm] at hl
      have hj := h j hl
      rcases eq_or_ne j i with rfl | hji
      · rwa [Function.update_self, Function.update_of_ne hlm]
      · rwa [Function.update_of_ne hji]
  | drop m hm =>
    rcases eq_or_ne l m with rfl | hlm
    · rw [Function.update_self] at hl
      cases hl
    · rw [Function.update_of_ne hlm] at hl
      have hj := h j hl
      rcases eq_or_ne j i with rfl | hji
      · rwa [Function.update_self, Function.update_of_ne hlm]
      · rwa [Function.update_of_ne hji]

theorem Agree.step (h : Agree holder held) (hmoves : Moves i holder (held i) holder' mine) :
    Agree holder' (Function.update held i mine) := by
  obtain ⟨hsound, howned⟩ := agree_iff.mp h
  exact agree_iff.mpr ⟨hsound.step hmoves, fun l => (howned l).step hmoves⟩

/-- A lock that its holder knows nothing of is never free again. -/
theorem Sound.stays {l : L} (h : Sound holder held) {k : ι} (hl : holder l = some k)
    (hk : held k l = false) (hmoves : Moves i holder (held i) holder' mine) :
    holder' l = some k ∧ Function.update held i mine k l = false := by
  cases hmoves with
  | keep =>
    rw [Function.update_eq_self]
    exact ⟨hl, hk⟩
  | take m hm =>
    have hlm : l ≠ m := by
      rintro rfl
      rw [hm] at hl
      cases hl
    rw [Function.update_of_ne hlm]
    refine ⟨hl, ?_⟩
    rcases eq_or_ne k i with rfl | hki
    · rwa [Function.update_self, Function.update_of_ne hlm]
    · rwa [Function.update_of_ne hki]
  | drop m hm =>
    have hlm : l ≠ m := by
      rintro rfl
      have hi := h i l hm
      rw [hl] at hi
      obtain rfl := Option.some.inj hi
      rw [hk] at hm
      cases hm
    rw [Function.update_of_ne hlm]
    refine ⟨hl, ?_⟩
    rcases eq_or_ne k i with rfl | hki
    · rwa [Function.update_self, Function.update_of_ne hlm]
    · rwa [Function.update_of_ne hki]

omit [DecidableEq ι] [DecidableEq L] in
/-- Who takes a lock is alone in holding it. -/
theorem Sound.not_held (h : Sound holder held) {l : L} (hl : holder l = none) (j : ι) :
    held j l = false := by
  apply Bool.eq_false_iff.mpr
  intro hj
  rw [h j l hj] at hl
  cases hl

end LinuxInternals.SpinLock
