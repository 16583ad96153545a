import LinuxInternals.Lib.Scanning
import LinuxInternals.Modlist.Linear

/-!
# The first module `modlist`

`Pr1/modlist.c` and its sorting variant `Pr1/Opcional1/modlist.c` get a buffer of 1024 bytes
for each write, and store the terminator behind the text only when they have parsed it.
-/

namespace LinuxInternals.Modlist1

open Text
open Modlist (Ret modlistAdd modlistRemove modlistCleanup)

/-- `compare`, on the data of the two nodes. -/
def compare (lhs rhs : Int32) : Int := if lhs < rhs then -1 else if rhs < lhs then 1 else 0

/-- `list_sort` is a stable merge sort. -/
def modlistSort (mylist : List Int32) : List Int32 :=
  mylist.mergeSort fun a b => compare a b ≤ 0

/-- The commands in the order in which the code tests for them; `others` are those behind
`cleanup`. -/
def obey (others : List UInt8 → List Int32 → List Int32) (modlistbuffer : List UInt8)
    (mylist : List Int32) : List Int32 :=
  match scanInt modlistbuffer "add %i" with
  | some num => modlistAdd num mylist
  | none =>
    match scanInt modlistbuffer "remove %i" with
    | some num => modlistRemove num mylist
    | none =>
      if modlistbuffer = bytes "cleanup\n" then modlistCleanup mylist
      else others modlistbuffer mylist

/-- `mem` is what the memory from `modlistbuffer` on held before the write: the 1024 bytes asked
for, and whatever is behind them in the pages of `vmalloc`. -/
def write (others : List UInt8 → List Int32 → List Int32) (mem : List UInt8) (off : Nat)
    (buf : List UInt8) (copied : Bool) (mylist : List Int32) : List Int32 × Ret × Nat :=
  if 0 < off then (mylist, .done 0, off)
  else if 1023 < buf.length then (mylist, .error .enospc, off)
  else if !copied then (mylist, .error .efault, off)
  else
    let modlistbuffer := cstring (buf ++ mem.drop buf.length)
    (obey others modlistbuffer mylist, .done buf.length, off + buf.length)

def noOthers (_ : List UInt8) (mylist : List Int32) : List Int32 := mylist

def sortCommand (modlistbuffer : List UInt8) (mylist : List Int32) : List Int32 :=
  if modlistbuffer = bytes "sort\n" then modlistSort mylist else mylist

/-- Of `Pr1/modlist.c`. -/
def modlistWrite := write noOthers

/-- Of `Pr1/Opcional1/modlist.c`. -/
def Opcional1.modlistWrite := write sortCommand

theorem compare_le_iff {a b : Int32} : compare a b ≤ 0 ↔ a ≤ b := by
  unfold compare
  split
  · exact iff_of_true (by decide) (Int32.le_of_lt ‹_›)
  · split
    · exact iff_of_false (by decide) (Int32.not_le.mpr ‹_›)
    · exact iff_of_true (by decide) (Int32.not_lt.mp ‹_›)

theorem modlistSort_eq_self_iff {l : List Int32} :
    modlistSort l = l ↔ l.Pairwise (· ≤ ·) := by
  have hle : (fun a b : Int32 => decide (compare a b ≤ 0)) = fun a b => decide (a ≤ b) := by
    funext a b
    rw [decide_eq_decide, compare_le_iff]
  rw [modlistSort, hle]
  constructor
  · intro h
    rw [← h]
    refine (List.pairwise_mergeSort ?_ ?_ l).imp (by simp)
    · intro a b c hab hbc
      exact decide_eq_true (Int32.le_trans (of_decide_eq_true hab) (of_decide_eq_true hbc))
    · intro a b
      simpa using Int32.le_total a b
  · intro h
    exact List.mergeSort_of_pairwise (h.imp decide_eq_true)

theorem mem_modlistRemove {x num : Int32} {l : List Int32} :
    x ∈ modlistRemove num l ↔ x ∈ l ∧ x ≠ num := by
  rw [Modlist.modlistRemove_eq, List.mem_filter]
  simp

end LinuxInternals.Modlist1
