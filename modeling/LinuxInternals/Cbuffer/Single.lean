import LinuxInternals.Cbuffer.Runs

/-!
# Single-item operations of the circular buffer

The copies of `cbuffer.c` that store pointers or integers differ from the byte buffer in
the element type and in what `head_cbuffer_t` returns. On a buffer in the documented range
insertion appends, at the price of the oldest item when the buffer is full, and removal
takes the oldest item away.
-/

namespace LinuxInternals.Cbuffer

open CData RingBuf

variable {α : Type*} {c : Cbuffer α}

theorem documented_of_create {cbuffer : Bool} {vector : Option (Nat → α)} {maxSize : Nat}
    (hpos : 1 ≤ maxSize) (h : createCbufferT cbuffer vector maxSize = some c) :
    c.Documented ∧ c.maxSize = maxSize ∧ c.contents = [] := by
  obtain ⟨hhead, hsize, hmax⟩ := createCbufferT_eq_some h
  refine ⟨⟨by omega, by omega⟩, hmax, ?_⟩
  rw [← List.length_eq_zero_iff, length_contents, hsize]

theorem documented_clear (h : c.Documented) : c.clearCbufferT.Documented :=
  ⟨(Nat.zero_le _).trans_lt h.head_lt, Nat.zero_le _⟩

theorem update_eq_ringStore (data : Nat → α) {start cap : Nat} (h : start < cap) (x : α) :
    Function.update data start x = ringStore data start 1 cap (fun _ => x) := by
  rw [← memcpy_eq_ringStore (show start + 1 ≤ cap by omega)]
  funext j
  rw [memcpy]
  by_cases hj : j = start
  · rw [hj, Function.update_self, if_pos (by omega)]
  · rw [Function.update_of_ne hj, if_neg (by omega)]

theorem contents_insert_of_full (h : c.Documented) (hbound : c.maxSize ≤ 2147483648)
    (hfull : c.size = c.maxSize) (x : α) :
    (c.insertCbufferT x).1.contents = c.contents.tail ++ [x] := by
  obtain ⟨hhead, -⟩ := h
  have hne : c.size ≠ 0 := by omega
  have hring : ring (ringStore c.data c.head 1 c.maxSize fun _ => x) ((c.head + 1) % c.maxSize)
      (c.size + 1 - 1) c.maxSize =
        (ring c.data c.head c.size c.maxSize ++ read (fun _ => x) 1).drop 1 :=
    ring_ringStore c.data (fun _ => x) hfull.le (by omega) (by omega) (by omega)
      (by rw [hfull, Nat.add_mod_right, Nat.mod_eq_of_lt hhead]) (Nat.mod_mod _ _)
  rw [insertCbufferT, if_pos hfull, if_pos hne, uadd_eq (by omega), contents,
    update_eq_ringStore c.data hhead x]
  apply hring.trans
  have hpos : c.contents ≠ [] := by
    rw [ne_eq, ← List.length_eq_zero_iff, length_contents]
    exact hne
  rw [← contents, List.drop_one, List.tail_append_of_ne_nil hpos]
  rfl

theorem contents_insert_of_lt (h : c.Documented) (hbound : c.maxSize ≤ 2147483648)
    (hlt : c.size < c.maxSize) (x : α) :
    (c.insertCbufferT x).1.contents = c.contents ++ [x] := by
  obtain ⟨hhead, -⟩ := h
  have hpos : (c.head + c.size) % c.maxSize < c.maxSize := Nat.mod_lt _ (by omega)
  have hring : ring (ringStore c.data ((c.head + c.size) % c.maxSize) 1 c.maxSize fun _ => x)
      c.head (c.size + 1 - 0) c.maxSize =
        (ring c.data c.head c.size c.maxSize ++ read (fun _ => x) 1).drop 0 :=
    ring_ringStore c.data (fun _ => x) hlt.le (by omega) (by omega) (by omega) rfl rfl
  rw [insertCbufferT, if_neg hlt.ne, if_pos (by omega), uadd_eq (by omega), uadd_eq (by omega),
    contents]
  simp only
  rw [update_eq_ringStore c.data hpos x]
  exact hring

theorem size_insert_of_lt (h : c.Documented) (hbound : c.maxSize ≤ 2147483648)
    (hlt : c.size < c.maxSize) (x : α) : (c.insertCbufferT x).1.size = c.size + 1 := by
  rw [← length_contents, contents_insert_of_lt h hbound hlt, List.length_append,
    length_contents, List.length_singleton]

theorem size_insert_of_full (hfull : c.size = c.maxSize) (x : α) :
    (c.insertCbufferT x).1.size = c.size := by
  rw [insertCbufferT, if_pos hfull]

theorem data_head (h : c.Documented) {x : α} {xs : List α} (hcons : c.contents = x :: xs) :
    c.data c.head = x := by
  have hlen := congrArg List.length hcons
  rw [length_contents, List.length_cons] at hlen
  have hlt : 0 < c.contents.length := by
    rw [length_contents]
    omega
  have hget : c.contents[0] = c.data ((c.head + 0) % c.maxSize) := getElem_ring ..
  rw [Nat.add_zero, Nat.mod_eq_of_lt h.head_lt] at hget
  rw [← hget]
  simp only [hcons, List.getElem_cons_zero]

theorem contents_remove (h : c.Documented) (hbound : c.maxSize ≤ 2147483648) :
    c.removeCbufferT.1.contents = c.contents.tail := by
  obtain ⟨hhead, hsize⟩ := h
  rw [removeCbufferT]
  split
  · have hdrop : (ring c.data c.head c.size c.maxSize).drop 1 =
        ring c.data ((c.head + 1) % c.maxSize) (c.size - 1) c.maxSize :=
      drop_ring c.data (Nat.mod_mod _ _)
    rw [contents, contents, uadd_eq (by omega), usub_eq (by omega) (by omega), ← List.drop_one,
      hdrop]
  · have hnil : c.contents = [] := by
      rw [← List.length_eq_zero_iff, length_contents]
      exact not_not.mp ‹_›
    rw [hnil]
    rfl

theorem size_remove (h : c.Documented) (hbound : c.maxSize ≤ 2147483648) :
    c.removeCbufferT.1.size = c.size - 1 := by
  rw [← length_contents, contents_remove h hbound, List.length_tail, length_contents]

end LinuxInternals.Cbuffer
