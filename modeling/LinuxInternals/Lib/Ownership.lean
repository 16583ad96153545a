import Mathlib.Data.Set.Insert
import Mathlib.Logic.Function.Basic

/-!
# Who owns what

An object is fresh, in the hands of one process at some phase, shared, or freed. A process has
at most one object in its hands, and it can tell from its place in the program which. The two
views stay in step when a process takes up an object that nobody owns, takes its own object
to another phase, or gives it away.
-/

namespace LinuxInternals.Ownership

inductive Status (ι Γ : Type*) where
  | fresh
  | owned (i : ι) (g : Γ)
  | shared
  | freed
deriving DecidableEq, Repr

variable {ι κ Γ : Type*} [DecidableEq ι] [DecidableEq κ]

/-- `st` and `own` agree on who owns what. -/
def Table (st : κ → Status ι Γ) (own : ι → Option (κ × Γ)) : Prop :=
  ∀ i a g, st a = .owned i g ↔ own i = some (a, g)

variable {st : κ → Status ι Γ} {own : ι → Option (κ × Γ)} {i : ι} {a : κ} {g g' : Γ}

omit [DecidableEq ι] [DecidableEq κ] in
theorem Table.owner_unique (h : Table st own) {j : ι} (hi : own i = some (a, g))
    (hj : own j = some (a, g')) : i = j := by
  have heq := ((h i a g).mpr hi).symm.trans ((h j a g').mpr hj)
  cases heq
  rfl

/-- One object changes its status, and its owner, if any, is `i` before and after. -/
theorem Table.update (h : Table st own) {x : Status ι Γ} {o : Option (κ × Γ)}
    (hbefore : ∀ b f, own i = some (b, f) → b = a) (hafter : ∀ b f, o = some (b, f) → b = a)
    (howner : ∀ j f, st a = .owned j f → j = i) (hx : ∀ j f, x = .owned j f → j = i)
    (ho : ∀ f, x = .owned i f ↔ o = some (a, f)) :
    Table (Function.update st a x) (Function.update own i o) := by
  intro j b f
  rcases eq_or_ne j i with rfl | hji
  · rw [Function.update_self]
    rcases eq_or_ne b a with rfl | hba
    · rw [Function.update_self]
      exact ho f
    · rw [Function.update_of_ne hba]
      refine iff_of_false (fun hb => hba ?_) (fun hb => hba (hafter b f hb))
      exact hbefore b f ((h j b f).mp hb)
  · rw [Function.update_of_ne hji]
    rcases eq_or_ne b a with rfl | hba
    · rw [Function.update_self]
      refine iff_of_false (fun hb => hji (hx j f hb)) (fun hb => hji ?_)
      exact howner j f ((h j b f).mpr hb)
    · rw [Function.update_of_ne hba]
      exact h j b f

theorem Table.acquire (h : Table st own) (hown : own i = none)
    (hst : ∀ j f, st a ≠ .owned j f) (g : Γ) :
    Table (Function.update st a (.owned i g)) (Function.update own i (some (a, g))) := by
  refine h.update ?_ ?_ ?_ ?_ ?_
  · intro b f hb
    rw [hown] at hb
    cases hb
  · rintro b f ⟨⟩
    rfl
  · exact fun j f hj => absurd hj (hst j f)
  · rintro j f ⟨⟩
    rfl
  · intro f
    simp

theorem Table.advance (h : Table st own) (hown : own i = some (a, g)) (g' : Γ) :
    Table (Function.update st a (.owned i g')) (Function.update own i (some (a, g'))) := by
  refine h.update ?_ ?_ ?_ ?_ ?_
  · intro b f hb
    rw [hown] at hb
    cases hb
    rfl
  · rintro b f ⟨⟩
    rfl
  · exact fun j f hj => (h.owner_unique hown ((h j a f).mp hj)).symm
  · rintro j f ⟨⟩
    rfl
  · intro f
    simp

theorem Table.release (h : Table st own) (hown : own i = some (a, g)) {x : Status ι Γ}
    (hx : ∀ j f, x ≠ .owned j f) :
    Table (Function.update st a x) (Function.update own i none) := by
  refine h.update ?_ ?_ ?_ ?_ ?_
  · intro b f hb
    rw [hown] at hb
    cases hb
    rfl
  · rintro b f ⟨⟩
  · exact fun j f hj => (h.owner_unique hown ((h j a f).mp hj)).symm
  · exact fun j f hj => absurd hj (hx j f)
  · exact fun f => iff_of_false (hx i f) (by simp)

omit [DecidableEq κ] in
theorem Table.keep (h : Table st own) {o : Option (κ × Γ)} (ho : o = own i) :
    Table st (Function.update own i o) := by
  rwa [ho, Function.update_eq_self]

/-- The objects that are in the hands of some process. -/
def hands (st : κ → Status ι Γ) : Set κ := {a | ∃ i g, st a = .owned i g}

omit [DecidableEq ι] in
theorem hands_owned (st : κ → Status ι Γ) (a : κ) (i : ι) (g : Γ) :
    hands (Function.update st a (.owned i g)) = insert a (hands st) := by
  ext b
  rcases eq_or_ne b a with rfl | hba
  · exact iff_of_true ⟨i, g, Function.update_self ..⟩ (Set.mem_insert b _)
  · simp [hands, hba]

omit [DecidableEq ι] in
theorem hands_of_not_owned (st : κ → Status ι Γ) (a : κ) {x : Status ι Γ}
    (hx : ∀ i g, x ≠ .owned i g) : hands (Function.update st a x) = hands st \ {a} := by
  ext b
  rcases eq_or_ne b a with rfl | hba
  · simp [hands, hx]
  · simp [hands, hba]

omit [DecidableEq ι] [DecidableEq κ] in
theorem Table.mem_hands (h : Table st own) (ha : own i = some (a, g)) : a ∈ hands st :=
  ⟨i, g, (h i a g).mpr ha⟩

end LinuxInternals.Ownership
