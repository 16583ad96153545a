import LinuxInternals.Lib.Machine
import Mathlib.Data.Nat.Basic

/-!
# Lifetimes of allocated objects

An object is allocated, used, taken out of the structure that it is in, and freed. Its uses
advance a rank, and no use is allowed from the rank on that one like it reaches. So what
must happen once happens once, and nothing happens to an object after it was freed.
-/

namespace LinuxInternals.Lifetime

inductive Use where
  | alloc
  | touch
  | remove
  | unlink
  | free
deriving DecidableEq, Repr

/-- `removing` is between the start of the object's removal and its unlinking. -/
inductive Stage where
  | fresh
  | live
  | removing
  | unlinked
  | freed
deriving DecidableEq, Repr

namespace Stage

def rank : Stage → ℕ
  | fresh => 0
  | live => 1
  | removing => 2
  | unlinked => 3
  | freed => 4

def Alive (st : Stage) : Prop := 1 ≤ st.rank ∧ st.rank < 4

theorem alive_live : live.Alive := ⟨le_rfl, by decide⟩

def next : Stage → Use → Option Stage
  | fresh, .alloc => some live
  | live, .touch => some live
  | removing, .touch => some removing
  | unlinked, .touch => some unlinked
  | live, .remove => some removing
  | live, .unlink | removing, .unlink => some unlinked
  | live, .free | removing, .free | unlinked, .free => some freed
  | _, _ => none

end Stage

/-- A use is allowed below this rank. -/
def Use.bound : Use → ℕ
  | alloc => 1
  | remove => 2
  | unlink => 3
  | touch | free => 4

/-- A use leaves the object at this rank or above. -/
def Use.reach : Use → ℕ
  | alloc | touch => 1
  | remove => 2
  | unlink => 3
  | free => 4

theorem rank_of_next {st st' : Stage} {u : Use} (h : st.next u = some st') :
    st.rank < u.bound ∧ u.reach ≤ st'.rank ∧ st.rank ≤ st'.rank := by
  cases st <;> cases u <;> cases h <;> decide

theorem next_touch {st : Stage} (h : st.Alive) : st.next .touch = some st := by
  cases st with
  | fresh => exact absurd h.1 (by decide)
  | live | removing | unlinked => rfl
  | freed => exact absurd h.2 (by decide)

variable {κ : Type*} [DecidableEq κ]

/-- The objects `κ`, each with its own life. -/
def pool (h₀ : κ → Stage) : Machine (κ → Stage) (κ × Use) (κ × Use) where
  init := h₀
  step h e := ((h e.1).next e.2).map fun st => (Function.update h e.1 st, [e])

variable {h₀ h h' : κ → Stage} {es : List (κ × Use)}

theorem pool_step {o : κ} {u : Use} {g : Stage} (hg : (h o).next u = some g) :
    (pool h₀).step h (o, u) = some (Function.update h o g, [(o, u)]) := by
  simp [pool, hg]

theorem exec_cons {o : κ} {u : Use} {g : Stage} (hg : (h o).next u = some g)
    (hes : (pool h₀).exec (Function.update h o g) es = some (h', es)) :
    (pool h₀).exec h ((o, u) :: es) = some (h', (o, u) :: es) := by
  rw [Machine.exec_cons (pool_step hg), hes]
  rfl

theorem exec_append {h'' : κ → Stage} {fs : List (κ × Use)}
    (hes : (pool h₀).exec h es = some (h', es)) (hfs : (pool h₀).exec h' fs = some (h'', fs)) :
    (pool h₀).exec h (es ++ fs) = some (h'', es ++ fs) :=
  Machine.exec_append_eq_some.mpr ⟨h', es, fs, hes, hfs, rfl⟩

theorem exec_touches {os : List κ} (hos : ∀ o ∈ os, (h o).Alive) :
    (pool h₀).exec h (os.map fun o => (o, .touch)) =
      some (h, os.map fun o => (o, .touch)) := by
  induction os with
  | nil => rfl
  | cons o os ih =>
    obtain ⟨ho, hos⟩ := List.forall_mem_cons.mp hos
    apply exec_cons (next_touch ho)
    rw [Function.update_eq_self]
    exact ih hos

theorem rank_le_of_exec {as tr : List (κ × Use)} (hexec : (pool h₀).exec h as = some (h', tr))
    (o : κ) : (h o).rank ≤ (h' o).rank := by
  induction as generalizing h tr with
  | nil =>
    cases hexec
    exact le_rfl
  | cons a as ih =>
    obtain ⟨h₁, es, t, ha, ht, rfl⟩ := Machine.exec_cons_eq_some.mp hexec
    obtain ⟨st, hst, heq⟩ := Option.map_eq_some_iff.mp ha
    cases heq
    refine le_trans ?_ (ih ht)
    rcases eq_or_ne o a.1 with rfl | hne
    · rw [Function.update_self]
      exact (rank_of_next hst).2.2
    · rw [Function.update_of_ne hne]

theorem lt_bound_of_mem {as tr : List (κ × Use)} (hexec : (pool h₀).exec h as = some (h', tr))
    {e : κ × Use} (he : e ∈ tr) : (h e.1).rank < e.2.bound := by
  induction as generalizing h tr with
  | nil =>
    cases hexec
    cases he
  | cons a as ih =>
    obtain ⟨h₁, es, t, ha, ht, rfl⟩ := Machine.exec_cons_eq_some.mp hexec
    obtain ⟨st, hst, heq⟩ := Option.map_eq_some_iff.mp ha
    cases heq
    rcases List.mem_append.mp he with he | he
    · rw [List.mem_singleton.mp he]
      exact (rank_of_next hst).1
    · refine lt_of_le_of_lt ?_ (ih ht he)
      exact rank_le_of_exec (Machine.exec_single ha) e.1

/-- A use is followed by those only that are allowed at the rank that it reaches. -/
theorem pairwise_of_exec {as tr : List (κ × Use)}
    (hexec : (pool h₀).exec h as = some (h', tr)) :
    tr.Pairwise fun e f => e.1 = f.1 → e.2.reach < f.2.bound := by
  induction as generalizing h tr with
  | nil =>
    cases hexec
    exact List.Pairwise.nil
  | cons a as ih =>
    obtain ⟨h₁, es, t, ha, ht, rfl⟩ := Machine.exec_cons_eq_some.mp hexec
    obtain ⟨st, hst, heq⟩ := Option.map_eq_some_iff.mp ha
    cases heq
    refine List.pairwise_cons.mpr ⟨fun f hf hobj => ?_, ih ht⟩
    have hbound := lt_bound_of_mem ht hf
    rw [← hobj, Function.update_self] at hbound
    exact lt_of_le_of_lt (rank_of_next hst).2.1 hbound

/-- A use that brings an object into the class `P`, which it never leaves, is counted by it. -/
theorem count_of_exec {P : Stage → Prop} [DecidablePred P] {w : Use}
    (hP : ∀ st u st', Stage.next st u = some st' → (P st' ↔ P st ∨ u = w) ∧ ¬(P st ∧ u = w))
    {as tr : List (κ × Use)} (hexec : (pool h₀).exec h as = some (h', tr)) (o : κ) :
    tr.count (o, w) + (if P (h o) then 1 else 0) = if P (h' o) then 1 else 0 := by
  induction as generalizing h tr with
  | nil =>
    cases hexec
    exact Nat.zero_add _
  | cons a as ih =>
    obtain ⟨h₁, es, t, ha, ht, rfl⟩ := Machine.exec_cons_eq_some.mp hexec
    obtain ⟨st, hst, heq⟩ := Option.map_eq_some_iff.mp ha
    cases heq
    obtain ⟨hnext, hnot⟩ := hP _ _ _ hst
    have hrest := ih ht
    rw [List.count_append]
    rcases eq_or_ne o a.1 with rfl | hne
    · rw [Function.update_self] at hrest
      by_cases hw : a.2 = w
      · have hone : [a].count (a.1, w) = 1 := by rw [← hw, List.count_singleton_self]
        rw [if_pos (hnext.mpr (.inr hw))] at hrest
        rw [if_neg fun hPh => hnot ⟨hPh, hw⟩, hone]
        omega
      · have hzero : [a].count (a.1, w) = 0 :=
          List.count_eq_zero_of_not_mem fun hmem => hw (by rw [← List.mem_singleton.mp hmem])
        have hsame : P st ↔ P (h a.1) := hnext.trans (or_iff_left hw)
        rw [if_congr hsame rfl rfl] at hrest
        omega
    · have hzero : [a].count (o, w) = 0 :=
        List.count_eq_zero_of_not_mem fun hmem => hne (by rw [← List.mem_singleton.mp hmem])
      rw [Function.update_of_ne hne] at hrest
      omega

theorem count_free {as tr : List (κ × Use)} (hexec : (pool h₀).exec h as = some (h', tr)) (o : κ) :
    tr.count (o, .free) + (if h o = .freed then 1 else 0) = if h' o = .freed then 1 else 0 := by
  refine count_of_exec (P := fun st => st = .freed) ?_ hexec o
  intro st u st' hnext
  cases st <;> cases u <;> cases hnext <;> decide

theorem count_alloc {as tr : List (κ × Use)} (hexec : (pool h₀).exec h as = some (h', tr))
    (o : κ) :
    tr.count (o, .alloc) + (if h o ≠ .fresh then 1 else 0) = if h' o ≠ .fresh then 1 else 0 := by
  refine count_of_exec (P := fun st => st ≠ .fresh) ?_ hexec o
  intro st u st' hnext
  cases st <;> cases u <;> cases hnext <;> decide

theorem freed_iff {as tr : List (κ × Use)} (hexec : (pool h₀).exec h as = some (h', tr)) {o : κ} :
    h' o = .freed ↔ h o = .freed ∨ (o, .free) ∈ tr := by
  have hcount := count_free hexec o
  rw [← List.count_pos_iff]
  split at hcount <;> split at hcount <;> simp_all

theorem ne_fresh_iff {as tr : List (κ × Use)} (hexec : (pool h₀).exec h as = some (h', tr))
    {o : κ} : h' o ≠ .fresh ↔ h o ≠ .fresh ∨ (o, .alloc) ∈ tr := by
  have hcount := count_alloc hexec o
  rw [← List.count_pos_iff]
  split at hcount <;> split at hcount <;> simp_all

/-- Allocation, removal, unlinking and freeing happen once to an object. -/
theorem count_le_one {tr : List (κ × Use)}
    (htr : tr.Pairwise fun e f => e.1 = f.1 → e.2.reach < f.2.bound) {u : Use}
    (hu : u ≠ .touch) (o : κ) : tr.count (o, u) ≤ 1 := by
  by_contra hcount
  have htwice : List.Sublist [(o, u), (o, u)] tr :=
    List.replicate_sublist_iff.mpr (not_le.mp hcount)
  have hlt := List.rel_of_pairwise_cons (htr.sublist htwice) (List.mem_singleton_self _) rfl
  cases u with
  | touch => exact hu rfl
  | alloc | remove | unlink | free => exact lt_irrefl _ hlt

omit [DecidableEq κ] in
/-- Nothing happens to an object after it was freed. -/
theorem ne_of_freed {tr : List (κ × Use)}
    (htr : tr.Pairwise fun e f => e.1 = f.1 → e.2.reach < f.2.bound) {o : κ}
    {pre post : List (κ × Use)} (heq : tr = pre ++ (o, .free) :: post) :
    ∀ e ∈ post, e.1 ≠ o := by
  subst heq
  intro e he hobj
  have hcons := (List.pairwise_append.mp htr).2.1
  have hlt := List.rel_of_pairwise_cons hcons he hobj.symm
  have hbound : e.2.bound ≤ 4 := by cases e.2 <;> decide
  exact absurd (lt_of_lt_of_le hlt hbound) (lt_irrefl _)

end LinuxInternals.Lifetime
