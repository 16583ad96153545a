import LinuxInternals.Cbuffer.Runs

/-!
# Block insertion and repeated insertion

`insert_items_cbuffer_t` splits its block at the end of the array and moves `head` once.
`insert_cbuffer_t` called on the items in turn goes over from appending to overwriting
midway. Both leave the buffer in the same concrete state.
-/

namespace LinuxInternals.Cbuffer

open CData RingBuf

variable {α : Type*} {c : Cbuffer α}

theorem inserted_zero (h : c.Documented) (items : Nat → α) : c.inserted items 0 = c := by
  obtain ⟨data, head, size, maxSize⟩ := c
  have hsize : size ≤ maxSize := h.size_le
  simp only [inserted, ringStore_zero, Nat.add_zero, Nat.min_eq_left hsize, if_pos hsize]

/-- Where the head of a full buffer lies is where the next item of the block goes. -/
theorem head_inserted_of_full (h : c.Documented) (items : Nat → α) {k : Nat}
    (hfull : c.maxSize ≤ c.size + k) :
    (c.inserted items k).head = (c.head + (c.size + k - c.maxSize)) % c.maxSize ∧
      (c.inserted items k).head = ((c.head + c.size) % c.maxSize + k) % c.maxSize := by
  have hhead := h.head_lt
  have hturn : c.head + c.size + k = c.head + (c.size + k - c.maxSize) + c.maxSize := by omega
  rw [Nat.mod_add_mod, hturn, Nat.add_mod_right]
  simp only [inserted]
  split
  · rw [show c.size + k - c.maxSize = 0 by omega, Nat.add_zero, Nat.mod_eq_of_lt hhead]
    exact ⟨rfl, rfl⟩
  · exact ⟨rfl, rfl⟩

theorem insert_of_full (h : c.Documented) (hbound : c.maxSize ≤ 1073741824)
    (hfull : c.size = c.maxSize) (newItem : α) :
    (c.insertCbufferT newItem).1 =
      { c with
        data := Function.update c.data c.head newItem
        head := (c.head + 1) % c.maxSize } := by
  have hhead := h.head_lt
  rw [insertCbufferT, if_pos hfull, if_pos (by omega), uadd_eq (by omega)]

theorem insert_of_lt (h : c.Documented) (hbound : c.maxSize ≤ 1073741824)
    (hlt : c.size < c.maxSize) (newItem : α) :
    (c.insertCbufferT newItem).1 =
      { c with
        data := Function.update c.data ((c.head + c.size) % c.maxSize) newItem
        size := c.size + 1 } := by
  have hhead := h.head_lt
  rw [insertCbufferT, if_neg hlt.ne, if_pos (by omega), uadd_eq (by omega), uadd_eq (by omega)]

/-- One more item of the block is one more call of `insert_cbuffer_t`. -/
theorem insert_inserted (h : c.Documented) (hbound : c.maxSize ≤ 1073741824)
    (items : Nat → α) {k : Nat} (hk : k < c.maxSize) :
    ((c.inserted items k).insertCbufferT (items k)).1 = c.inserted items (k + 1) := by
  have hdoc := documented_inserted h items k
  have hstart : (c.head + c.size) % c.maxSize < c.maxSize := Nat.mod_lt _ (by omega)
  have hstore := ringStore_succ c.data items hstart hk
  by_cases hfull : c.maxSize ≤ c.size + k
  · obtain ⟨hcount, hslot⟩ := head_inserted_of_full h items hfull
    rw [insert_of_full hdoc hbound (Nat.min_eq_right hfull), hslot]
    simp only [inserted, Cbuffer.mk.injEq, hstore, true_and, and_true]
    constructor
    · rw [← hslot, hcount, if_neg (by omega), Nat.mod_add_mod]
      congr 1
      omega
    · omega
  · have hroom : (c.inserted items k).size = c.size + k := Nat.min_eq_left (by omega)
    have hsame : (c.inserted items k).head = c.head := if_pos (by omega)
    rw [insert_of_lt hdoc hbound (by rw [hroom]; exact not_le.mp hfull), hroom, hsame]
    simp only [inserted, Cbuffer.mk.injEq, hstore, Nat.mod_add_mod, and_true, true_and,
      Nat.add_assoc]
    rw [if_pos (by omega), Nat.min_eq_left (by omega)]
    exact ⟨rfl, rfl⟩

theorem foldl_insert_read (h : c.Documented) (hbound : c.maxSize ≤ 1073741824)
    (items : Nat → α) {k : Nat} (hk : k ≤ c.maxSize) :
    (read items k).foldl (fun c newItem => (c.insertCbufferT newItem).1) c =
      c.inserted items k := by
  induction k with
  | zero => exact (inserted_zero h items).symm
  | succ k ih =>
    rw [read_succ, List.foldl_append, ih (by omega)]
    exact insert_inserted h hbound items hk

/-- Head, size and every element of `data` come out the same. -/
theorem insertItems_eq_foldl_insert (h : c.Documented) (hbound : c.maxSize ≤ 1073741824)
    (items : Nat → α) (nrItems : Int32) (h₀ : 0 ≤ nrItems.toInt)
    (hmax : nrItems.toInt ≤ c.maxSize) :
    (c.insertItemsCbufferT items nrItems).1 =
      (read items nrItems.toInt.toNat).foldl
        (fun c newItem => (c.insertCbufferT newItem).1) c := by
  obtain ⟨touched, heq, -⟩ := insertItems_of_fits (h.wf hbound) items ⟨h₀, hmax⟩
  have hk : nrItems.toInt.toNat ≤ c.maxSize := by omega
  rw [heq, foldl_insert_read h hbound items hk]
  rfl

/-- A buffer of four bytes that holds two, the first of them in its last slot. -/
def wrapped : Cbuffer UInt8 := { data := fun _ => 0, head := 3, size := 2, maxSize := 4 }

theorem insertItems_eq_foldl_insert_wrapped :
    (wrapped.insertItemsCbufferT (fun i => UInt8.ofNat (i + 7)) 3).1 =
      (read (fun i => UInt8.ofNat (i + 7)) (Int32.toInt 3).toNat).foldl
        (fun c newItem => (c.insertCbufferT newItem).1) wrapped :=
  insertItems_eq_foldl_insert (c := wrapped) ⟨by decide, by decide⟩ (by decide) _ 3 (by decide)
    (by decide)

end LinuxInternals.Cbuffer
