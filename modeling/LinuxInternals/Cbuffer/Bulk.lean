import LinuxInternals.Cbuffer.Basic

/-!
# Bulk operations of the circular buffer

What `insert_items_cbuffer_t` and `remove_items_cbuffer_t` come to on a buffer whose
`head` may equal `max_size`: a bulk removal that ends at the end of the array leaves
it there. On such buffers they refine the bounded queue of the contents.
-/

namespace LinuxInternals.Cbuffer

open CData RingBuf

variable {α : Type*}

structure Wf (c : Cbuffer α) : Prop where
  pos : 0 < c.maxSize
  bound : c.maxSize ≤ 1073741824
  head_le : c.head ≤ c.maxSize
  size_le : c.size ≤ c.maxSize

/-- The number of items when the code takes the request. -/
def count (n : Int32) : Nat := n.toInt.toNat

/-- `insert_items_cbuffer_t` takes the request. -/
def Fits (c : Cbuffer α) (n : Int32) : Prop := 0 ≤ n.toInt ∧ n.toInt ≤ c.maxSize

/-- `remove_items_cbuffer_t` takes the request. -/
def Holds (c : Cbuffer α) (n : Int32) : Prop := 0 ≤ n.toInt ∧ n.toInt ≤ c.size

theorem Holds.fits {c : Cbuffer α} (h : c.Wf) {n : Int32} (hn : c.Holds n) : c.Fits n :=
  ⟨hn.1, hn.2.trans (by exact_mod_cast h.size_le)⟩

theorem lt_u32_toInt_iff {m : Nat} (hm : m ≤ 1073741824) (n : Int32) :
    m < u32 n.toInt ↔ ¬(0 ≤ n.toInt ∧ n.toInt ≤ m) := by
  have hlow := n.le_toInt
  have hhigh := n.toInt_lt
  unfold u32
  omega

theorem sizeCbufferT_eq {c : Cbuffer α} (h : c.Wf) : c.sizeCbufferT = c.size := by
  have hsize := h.size_le
  have hbound := h.bound
  rw [sizeCbufferT, i32_of_range (by omega) (by omega)]

theorem nrGapsCbufferT_eq {c : Cbuffer α} (h : c.Wf) :
    c.nrGapsCbufferT = (c.maxSize - c.size : Nat) := by
  have hsize := h.size_le
  have hbound := h.bound
  rw [nrGapsCbufferT, usub_eq hsize (by omega), i32_of_range (by omega) (by omega)]

theorem insertItems_of_not_fits {c : Cbuffer α} (h : c.Wf) (items : Nat → α) {n : Int32}
    (hn : ¬c.Fits n) : c.insertItemsCbufferT items n = (c, []) := by
  have hbig : c.maxSize < u32 n.toInt := (lt_u32_toInt_iff h.bound n).mpr hn
  simp [insertItemsCbufferT, hbig]

theorem removeItems_of_not_holds {c : Cbuffer α} (h : c.Wf) (items : Nat → α) {n : Int32}
    (hn : ¬c.Holds n) : c.removeItemsCbufferT items n = (c, items, []) := by
  have hbig : c.size < u32 n.toInt :=
    (lt_u32_toInt_iff (h.size_le.trans h.bound) n).mpr hn
  simp [removeItemsCbufferT, hbig]

/-- The state after an insertion: `excess` old elements have given up their slots. -/
def inserted (c : Cbuffer α) (items : Nat → α) (k : Nat) : Cbuffer α :=
  { c with
    data := ringStore c.data ((c.head + c.size) % c.maxSize) k c.maxSize items
    size := min (c.size + k) c.maxSize
    head := if c.size + k ≤ c.maxSize then c.head
      else (c.head + (c.size + k - c.maxSize)) % c.maxSize }

theorem insertItems_of_fits {c : Cbuffer α} (h : c.Wf) (items : Nat → α) {n : Int32}
    (hn : c.Fits n) :
    ∃ touched, c.insertItemsCbufferT items n = (c.inserted items (count n), touched) ∧
      ∀ i ∈ touched, i < c.maxSize := by
  have hsmall : ¬c.maxSize < u32 n.toInt := by
    rw [lt_u32_toInt_iff h.bound]
    exact not_not.mpr hn
  obtain ⟨hpos, hbound, hhead, hsize⟩ := h
  obtain ⟨k, hk⟩ := Int.eq_ofNat_of_zero_le hn.1
  have hkm : k ≤ c.maxSize := by exact_mod_cast hk ▸ hn.2
  have hcount : count n = k := by rw [count, hk, Int.toNat_natCast]
  obtain ⟨start, hstart⟩ : ∃ start, (c.head + c.size) % c.maxSize = start := ⟨_, rfl⟩
  have hslt : start < c.maxSize := hstart ▸ Nat.mod_lt _ hpos
  have hwhead : i32 (uadd c.head c.size % c.maxSize : Nat) = start := by
    rw [uadd_eq (by omega), hstart, i32_of_range (by omega) (by omega)]
  have hend : u32 (i32 (start + k)) = start + k := by
    rw [i32_of_range (by omega) (by omega), u32_of_nonneg (by omega) (by omega)]
    omega
  have hcopied : i32 (usub c.maxSize (u32 start)) = (c.maxSize - start : Nat) := by
    rw [u32_natCast (by omega), usub_eq (by omega) (by omega),
      i32_of_range (by omega) (by omega)]
  have hsize' : uadd c.size (u32 k) = c.size + k := by
    rw [u32_natCast (by omega), uadd_eq (by omega)]
  have hgaps : i32 (usub c.maxSize c.size) = (c.maxSize - c.size : Nat) := by
    rw [usub_eq hsize (by omega), i32_of_range (by omega) (by omega)]
  have hexcess (hfull : c.maxSize < c.size + k) :
      uadd c.head (u32 (i32 (k - (c.maxSize - c.size : Nat)))) =
        c.head + (c.size + k - c.maxSize) := by
    rw [i32_of_range (by omega) (by omega), u32_of_nonneg (by omega) (by omega),
      uadd_eq (by omega)]
    omega
  -- whichever way the block lies, head and size move in the same way
  have hmove (data : Nat → α) (touched : List Nat) :
      (if (k : Int) ≤ (c.maxSize - c.size : Nat) then
        ({ c with data, size := c.size + k }, touched)
      else
        ({ c with
            data
            size := c.maxSize
            head := uadd c.head (u32 (i32 (k - (c.maxSize - c.size : Nat)))) % c.maxSize },
          touched)) =
      ({ c with
          data
          size := min (c.size + k) c.maxSize
          head := if c.size + k ≤ c.maxSize then c.head
            else (c.head + (c.size + k - c.maxSize)) % c.maxSize }, touched) := by
    by_cases hfull : c.maxSize < c.size + k
    · rw [if_neg (by omega), if_neg (by omega), hexcess hfull, Nat.min_eq_right (by omega)]
    · rw [if_pos (by omega), if_pos (by omega), Nat.min_eq_left (by omega)]
  have hu64 {m : Nat} (hm : m ≤ c.maxSize) : u64 m = m := u64_natCast (by omega)
  rw [insertItemsCbufferT, if_neg hsmall, inserted, hcount, hstart]
  by_cases hwrap : c.maxSize < start + k
  · have hleft : i32 (k - (c.maxSize - start : Nat)) = (k - (c.maxSize - start) : Nat) := by
      rw [i32_of_range (by omega) (by omega)]
      omega
    have hmore : ((k - (c.maxSize - start) : Nat) : Int) ≠ 0 := by omega
    simp only [hk, hwhead, hend, hwrap, if_true, hcopied, hleft, hsize', hgaps, hmore, ne_eq,
      not_false_eq_true, hmove, hu64 (Nat.sub_le _ _), hu64 hslt.le,
      hu64 ((Nat.sub_le _ _).trans hkm), u64_zero]
    refine ⟨List.range' start (c.maxSize - start) ++ List.range' 0 (k - (c.maxSize - start)),
      by rw [memcpy_memcpy_eq_ringStore hslt hwrap hkm], ?_⟩
    intro i hi
    rcases List.mem_append.mp hi with hi | hi <;> rw [List.mem_range'_1] at hi <;> omega
  · have hstore : (if (k : Int) ≠ 0 then memcpy c.data start items 0 k else c.data) =
        ringStore c.data start k c.maxSize items := by
      rw [← memcpy_eq_ringStore (by omega)]
      split
      · rfl
      · rw [show k = 0 by omega, memcpy_zero]
    simp only [hk, hwhead, hend, hwrap, if_false, hsize', hgaps, hmove, hu64 hslt.le, hu64 hkm,
      u64_zero, hstore]
    refine ⟨_, rfl, ?_⟩
    intro i hi
    rw [List.nil_append] at hi
    split at hi
    · rw [List.mem_range'_1] at hi
      omega
    · simp at hi

/-- The first `n` slots of the buffer go to `items`; `head` stays where the last copy
ended, which may be the end of the array. -/
theorem removeItems_of_holds {c : Cbuffer α} (h : c.Wf) (items : Nat → α) {n : Int32}
    (hn : c.Holds n) :
    ∃ head items' touched, c.removeItemsCbufferT items n =
        ({ c with head, size := c.size - count n }, items', touched) ∧
      head ≤ c.maxSize ∧ head % c.maxSize = (c.head + count n) % c.maxSize ∧
      (c.head < c.maxSize → (head = c.maxSize ↔ 0 < count n ∧ c.head + count n = c.maxSize)) ∧
      read items' (count n) = ring c.data c.head (count n) c.maxSize ∧
      (∀ i, count n ≤ i → items' i = items i) ∧ ∀ i ∈ touched, i < c.maxSize := by
  have hsmall : ¬c.size < u32 n.toInt := by
    rw [lt_u32_toInt_iff (h.size_le.trans h.bound)]
    exact not_not.mpr hn
  obtain ⟨hpos, hbound, hhead, hsize⟩ := h
  obtain ⟨k, hk⟩ := Int.eq_ofNat_of_zero_le hn.1
  have hks : k ≤ c.size := by exact_mod_cast hk ▸ hn.2
  have hcount : count n = k := by rw [count, hk, Int.toNat_natCast]
  have hu32 {m : Nat} (hm : m ≤ c.maxSize) : u32 m = m := u32_natCast (by omega)
  have hu64 {m : Nat} (hm : m ≤ c.maxSize) : u64 m = m := u64_natCast (by omega)
  have hend : uadd c.head (u32 k) = c.head + k := by
    rw [hu32 (by omega), uadd_eq (by omega)]
  have hsize' : usub c.size (u32 k) = c.size - k := by
    rw [hu32 (by omega), usub_eq hks (by omega)]
  rw [removeItemsCbufferT, if_neg hsmall, hcount]
  by_cases hwrap : c.maxSize < c.head + k
  · have hcopied : i32 (usub c.maxSize c.head) = (c.maxSize - c.head : Nat) := by
      rw [usub_eq hhead (by omega), i32_of_range (by omega) (by omega)]
    have hleft : i32 (k - (c.maxSize - c.head : Nat)) = (k - (c.maxSize - c.head) : Nat) := by
      rw [i32_of_range (by omega) (by omega)]
      omega
    have hmore : ((k - (c.maxSize - c.head) : Nat) : Int) ≠ 0 := by omega
    have hhead' : uadd 0 (k - (c.maxSize - c.head)) = k - (c.maxSize - c.head) := by
      rw [uadd_eq (by omega), Nat.zero_add]
    simp only [hk, hend, hwrap, if_true, hcopied, hleft, hmore, ne_eq, not_false_eq_true, hsize',
      hu64 (Nat.sub_le _ _), hu64 ((Nat.sub_le _ _).trans (hks.trans hsize)),
      hu32 ((Nat.sub_le _ _).trans (hks.trans hsize)), hhead']
    refine ⟨_, _, _, rfl, by omega, ?_, by omega,
      read_memcpy_memcpy_ring hhead hwrap (hks.trans hsize), ?_, ?_⟩
    · have hturn : c.head + k = k - (c.maxSize - c.head) + c.maxSize := by omega
      rw [hturn, Nat.add_mod_right]
    · intro i hi
      rw [memcpy, memcpy, if_neg (by omega), if_neg (by omega)]
    · intro i hi
      rcases List.mem_append.mp hi with hi | hi <;> rw [List.mem_range'_1] at hi <;> omega
  · have hstore : (if (k : Int) ≠ 0 then memcpy items 0 c.data c.head k else items) =
        memcpy items 0 c.data c.head k := by
      split
      · rfl
      · rw [show k = 0 by omega, memcpy_zero]
    have hhead' : (if (k : Int) ≠ 0 then c.head + k else c.head) = c.head + k := by
      split <;> omega
    simp only [hk, hend, hwrap, if_false, hsize', hu64 (hks.trans hsize), u64_zero, hstore,
      hhead']
    refine ⟨_, _, _, rfl, by omega, rfl, by omega, read_memcpy_ring (by omega), ?_, ?_⟩
    · intro i hi
      rw [memcpy, if_neg (by omega)]
    · intro i hi
      rw [List.nil_append] at hi
      split at hi
      · rw [List.mem_range'_1] at hi
        omega
      · simp at hi

def toQueue (c : Cbuffer α) (h : c.Wf) : BoundedQueue α c.maxSize :=
  ⟨c.contents, by rw [length_contents]; exact h.size_le⟩

theorem wf_inserted {c : Cbuffer α} (h : c.Wf) (items : Nat → α) (k : Nat) :
    (c.inserted items k).Wf where
  pos := h.pos
  bound := h.bound
  head_le := by
    have hmod := Nat.mod_lt (c.head + (c.size + k - c.maxSize)) h.pos
    have hhead := h.head_le
    simp only [inserted]
    split <;> omega
  size_le := Nat.min_le_right _ _

theorem contents_inserted {c : Cbuffer α} (h : c.Wf) (items : Nat → α) {k : Nat}
    (hk : k ≤ c.maxSize) :
    (c.inserted items k).contents = (c.contents ++ read items k).rtake c.maxSize := by
  have hsize := h.size_le
  have hlen : (c.contents ++ read items k).length = c.size + k := by simp
  obtain ⟨excess, hexcess⟩ : ∃ excess, c.size + k - c.maxSize = excess := ⟨_, rfl⟩
  have hhead : (c.inserted items k).head % c.maxSize = (c.head + excess) % c.maxSize := by
    simp only [inserted, hexcess]
    split
    · rw [← hexcess, Nat.sub_eq_zero_of_le (by omega), Nat.add_zero]
    · rw [Nat.mod_mod]
  have hring := ring_ringStore c.data items hsize h.pos hk (by omega) rfl hhead
  rw [List.rtake, hlen, hexcess, contents]
  change ring _ _ (min (c.size + k) c.maxSize) c.maxSize = _
  rw [show min (c.size + k) c.maxSize = c.size + k - excess by omega]
  exact hring

theorem contents_dropped {c : Cbuffer α} {head k : Nat}
    (hhead : head % c.maxSize = (c.head + k) % c.maxSize) :
    ({ c with head, size := c.size - k } : Cbuffer α).contents = c.contents.drop k :=
  (drop_ring c.data hhead).symm

theorem wf_clear {c : Cbuffer α} (h : c.Wf) : c.clearCbufferT.Wf where
  pos := h.pos
  bound := h.bound
  head_le := Nat.zero_le _
  size_le := Nat.zero_le _

end LinuxInternals.Cbuffer
