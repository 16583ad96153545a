import LinuxInternals.Modlist.Basic

/-!
# The guard of `modlist_read`

The loop of `modlist_read` looks at the room left in `modlistbuffer` before it prints a
number, whatever the width of the number. It stops in time when the lines before come to
239 bytes exactly; a list that jumps over that size is printed past the end of the buffer.
-/

namespace LinuxInternals.Modlist

open Text

/-- The offsets of `modlistbuffer` that the loop stores to, from `bufLength` on; each line comes
with a terminator. -/
def readStores : List Int32 → Nat → List Nat
  | [], _ => []
  | data :: mylist, bufLength =>
    if 239 ≤ bufLength then []
    else
      List.range' bufLength ((line data).length + 1) ++
        readStores mylist (bufLength + (line data).length)

theorem length_rendering_cons (x : Int32) (l : List Int32) :
    (rendering (x :: l)).length = (line x).length + (rendering l).length := by
  rw [rendering, List.flatMap_cons, List.length_append, rendering]

theorem readLoop_eq_take (l : List Int32) (buf : List UInt8) :
    ∃ k, readLoop l buf = buf ++ rendering (l.take k) := by
  induction l generalizing buf with
  | nil => exact ⟨0, (List.append_nil buf).symm⟩
  | cons x l ih =>
    rw [readLoop]
    split
    · exact ⟨0, (List.append_nil buf).symm⟩
    · obtain ⟨k, hk⟩ := ih (buf ++ line x)
      refine ⟨k + 1, ?_⟩
      rw [hk, List.append_assoc, List.take_succ_cons, rendering, rendering, List.flatMap_cons]

theorem readStores_inside_iff {n : Nat} (hn : n < 239) (l : List Int32) :
    (∀ i ∈ readStores l n, i < 240) ↔
      n + (rendering l).length ≤ 239 ∨ ∃ k, n + (rendering (l.take k)).length = 239 := by
  induction l generalizing n with
  | nil => exact iff_of_true (List.forall_mem_nil _) (.inl hn.le)
  | cons x l ih =>
    -- a prefix of 239 bytes has the first line in it
    have hshift : (∃ k, n + (rendering ((x :: l).take k)).length = 239) ↔
        ∃ k, n + (line x).length + (rendering (l.take k)).length = 239 := by
      constructor
      · rintro ⟨k, hk⟩
        cases k with
        | zero => exact absurd hk hn.ne
        | succ k =>
          rw [List.take_succ_cons, length_rendering_cons, ← Nat.add_assoc] at hk
          exact ⟨k, hk⟩
      · rintro ⟨k, hk⟩
        refine ⟨k + 1, ?_⟩
        rw [List.take_succ_cons, length_rendering_cons, ← Nat.add_assoc]
        exact hk
    rw [hshift, length_rendering_cons, ← Nat.add_assoc, readStores, if_neg (not_le.mpr hn)]
    rcases lt_trichotomy (n + (line x).length) 239 with hlt | hexact | hgt
    · rw [← ih hlt]
      constructor
      · exact fun hall i hi => hall i (List.mem_append_right _ hi)
      · intro hall i hi
        rcases List.mem_append.mp hi with hi | hi
        · have hrange := (List.mem_range'_1.mp hi).2
          omega
        · exact hall i hi
    · refine iff_of_true ?_ (.inr ⟨0, hexact⟩)
      intro i hi
      rcases List.mem_append.mp hi with hi | hi
      · have hrange := (List.mem_range'_1.mp hi).2
        omega
      · have hstop : readStores l (n + (line x).length) = [] := by
          cases l with
          | nil => rfl
          | cons y l => exact if_pos hexact.ge
        rw [hstop] at hi
        cases hi
    · refine iff_of_false ?_ ?_
      · intro hall
        have hlast := hall (n + (line x).length)
          (List.mem_append_left _ (List.mem_range'_1.mpr (by omega)))
        omega
      · rintro (hle | ⟨k, hk⟩) <;> omega

/-- The text is always made of whole lines. It stays inside the buffer exactly when all of it
fits, or a part of it ends where the guard sees the buffer full. -/
theorem modlist_read_inside_iff (mylist : List Int32) :
    ((∀ i ∈ readStores mylist 0, i < 240) ∧
        ∃ k, lines (readLoop mylist []) = (mylist.take k).map line) ↔
      (rendering mylist).length ≤ 239 ∨ ∃ k, (rendering (mylist.take k)).length = 239 := by
  have hiff := readStores_inside_iff (n := 0) (by decide) mylist
  simp only [Nat.zero_add] at hiff
  rw [hiff]
  apply and_iff_left
  obtain ⟨k, hk⟩ := readLoop_eq_take mylist []
  exact ⟨k, by rw [hk, List.nil_append, rendering, lines_flatMap_line]⟩

/-- What `meterDatos.sh` adds: the first 83 numbers take 240 bytes, and the terminator is stored
behind the buffer. -/
theorem meterDatos_not_inside :
    240 ∈ readStores ((List.range 100).map fun i => Int32.ofNat (i + 1)) 0 := by
  decide +kernel

end LinuxInternals.Modlist
