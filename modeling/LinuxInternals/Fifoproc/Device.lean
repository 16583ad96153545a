import LinuxInternals.Cbuffer.Bulk

/-!
# The buffer behind `/proc/modfifo`

`ParteB` keeps the bytes of the FIFO in a `cbuffer_t`, `Opcional1` in a `kfifo` of the
kernel. Everything else in the two modules is the same code, so it is modelled once
over a `Device` with the operations that the code calls.
-/

namespace LinuxInternals.Fifoproc

open CData

/-- The buffer operations of the module, each with the conversions of its call. `size`
and `gaps` are the values that `size_t len` is compared with. -/
structure Device (β : Type) where
  maxItems : Nat
  maxKbuf : Nat
  create : β
  size : β → Nat
  gaps : β → Nat
  isEmpty : β → Bool
  insert : β → (Nat → UInt8) → Nat → β
  remove : β → (Nat → UInt8) → Nat → β × (Nat → UInt8)
  clear : β → β

/-- A byte queue of capacity `cap`, as far as the module may use it. -/
structure Device.Lawful {β : Type} (D : Device β) where
  valid : β → Prop
  contents : β → List UInt8
  cap : Nat
  create_valid : valid D.create
  create_contents : contents D.create = []
  fits : ∀ b, valid b → (contents b).length ≤ cap
  size_eq : ∀ b, valid b → D.size b = (contents b).length
  gaps_eq : ∀ b, valid b → D.gaps b = cap - (contents b).length
  isEmpty_iff : ∀ b, valid b → (D.isEmpty b = true ↔ contents b = [])
  insert_valid : ∀ b items n, valid b → n ≤ D.maxItems → valid (D.insert b items n)
  insert_contents : ∀ b items n, valid b → n ≤ D.maxItems → (contents b).length + n ≤ cap →
    contents (D.insert b items n) = contents b ++ read items n
  remove_valid : ∀ b items n, valid b → n ≤ D.maxItems → valid (D.remove b items n).1
  remove_le : ∀ b items n, valid b → n ≤ D.maxItems →
    (contents (D.remove b items n).1).length ≤ (contents b).length
  remove_contents : ∀ b items n, valid b → n ≤ D.maxItems → n ≤ (contents b).length →
    contents (D.remove b items n).1 = (contents b).drop n
  remove_items : ∀ b items n, valid b → n ≤ D.maxItems → n ≤ (contents b).length →
    read (D.remove b items n).2 n = (contents b).take n
  clear_valid : ∀ b, valid b → valid (D.clear b)
  clear_contents : ∀ b, valid b → contents (D.clear b) = []

/-- The test of the wait loop of write leaves room for the whole write. -/
theorem Device.Lawful.room {β : Type} {D : Device β} (hD : D.Lawful) {b : β} (hb : hD.valid b)
    {len : Nat} (h : ¬D.gaps b < len) : (hD.contents b).length + len ≤ hD.cap := by
  have hgaps := hD.gaps_eq b hb
  have hfits := hD.fits b hb
  omega

/-- `kfifo_alloc` with the requested size, and the operations on the FIFO it gives.
`kfifo_out` also says how many bytes it has moved. -/
structure Kfifo (β : Type) where
  kfifoAlloc : Nat → β
  kfifoLen : β → Nat
  kfifoAvail : β → Nat
  kfifoIsEmpty : β → Bool
  kfifoIn : β → (Nat → UInt8) → Nat → β × Nat
  kfifoOut : β → (Nat → UInt8) → Nat → β × (Nat → UInt8) × Nat
  kfifoReset : β → β

/-- A byte FIFO that moves at most what fits, or what is there. -/
structure Kfifo.Lawful {β : Type} (K : Kfifo β) where
  bytes : β → List UInt8
  capacity : β → Nat
  alloc_bytes : ∀ n, bytes (K.kfifoAlloc n) = []
  alloc_capacity : capacity (K.kfifoAlloc 64) = 64
  fits : ∀ b, (bytes b).length ≤ capacity b
  len_eq : ∀ b, K.kfifoLen b = (bytes b).length
  avail_eq : ∀ b, K.kfifoAvail b = capacity b - (bytes b).length
  isEmpty_iff : ∀ b, K.kfifoIsEmpty b = true ↔ bytes b = []
  in_bytes : ∀ b from_ n, bytes (K.kfifoIn b from_ n).1 =
    bytes b ++ read from_ (min n (capacity b - (bytes b).length))
  in_capacity : ∀ b from_ n, capacity (K.kfifoIn b from_ n).1 = capacity b
  in_copied : ∀ b from_ n, (K.kfifoIn b from_ n).2 = min n (capacity b - (bytes b).length)
  out_bytes : ∀ b to_ n, bytes (K.kfifoOut b to_ n).1 = (bytes b).drop n
  out_capacity : ∀ b to_ n, capacity (K.kfifoOut b to_ n).1 = capacity b
  out_items : ∀ b to_ n, (K.kfifoOut b to_ n).2.1 =
    fun i => ((bytes b).take n).getD i (to_ i)
  out_copied : ∀ b to_ n, (K.kfifoOut b to_ n).2.2 = min n (bytes b).length
  reset_bytes : ∀ b, bytes (K.kfifoReset b) = []
  reset_capacity : ∀ b, capacity (K.kfifoReset b) = capacity b

/-- `Pr3/ParteB`; `vector` is what `vmalloc` left in the array. -/
def parteB (vector : Nat → UInt8) : Device (Cbuffer UInt8) where
  maxItems := 50
  maxKbuf := 100
  create := (Cbuffer.createCbufferT true (some vector) 50).get rfl
  size c := u64 c.sizeCbufferT
  gaps c := u64 c.nrGapsCbufferT
  isEmpty c := c.isEmptyCbufferT
  insert c items n := (c.insertItemsCbufferT items (Int32.ofNat n)).1
  remove c items n :=
    let r := c.removeItemsCbufferT items (Int32.ofNat n)
    (r.1, r.2.1)
  clear c := c.clearCbufferT

/-- `Pr3/Opcional1`. The numbers of bytes that `kfifo_in` and `kfifo_out` report are
stored in `escrito` and `leido` and never looked at. -/
def opcional1 {β : Type} (K : Kfifo β) : Device β where
  maxItems := 64
  maxKbuf := 128
  create := K.kfifoAlloc 64
  size := K.kfifoLen
  gaps := K.kfifoAvail
  isEmpty := K.kfifoIsEmpty
  insert b items n := (K.kfifoIn b items n).1
  remove b items n :=
    let r := K.kfifoOut b items n
    (r.1, r.2.1)
  clear := K.kfifoReset

/-- A FIFO of lists that behaves as the kernel's does for a size that is a power of two. -/
structure ListFifo where
  size : Nat
  bytes : List UInt8
  fits : bytes.length ≤ size

def listKfifo : Kfifo ListFifo where
  kfifoAlloc n := ⟨n, [], Nat.zero_le n⟩
  kfifoLen b := b.bytes.length
  kfifoAvail b := b.size - b.bytes.length
  kfifoIsEmpty b := b.bytes.isEmpty
  kfifoIn b from_ n :=
    let copied := min n (b.size - b.bytes.length)
    (⟨b.size, b.bytes ++ read from_ copied, by
      have hfits := b.fits
      rw [List.length_append, length_read]
      omega⟩, copied)
  kfifoOut b to_ n :=
    (⟨b.size, b.bytes.drop n, (b.bytes.length_drop ▸ Nat.sub_le _ _).trans b.fits⟩,
      fun i => (b.bytes.take n).getD i (to_ i), min n b.bytes.length)
  kfifoReset b := ⟨b.size, [], Nat.zero_le _⟩

def listKfifoLawful : listKfifo.Lawful where
  bytes := ListFifo.bytes
  capacity := ListFifo.size
  alloc_bytes _ := rfl
  alloc_capacity := rfl
  fits := ListFifo.fits
  len_eq _ := rfl
  avail_eq _ := rfl
  isEmpty_iff _ := List.isEmpty_iff
  in_bytes _ _ _ := rfl
  in_capacity _ _ _ := rfl
  in_copied _ _ _ := rfl
  out_bytes _ _ _ := rfl
  out_capacity _ _ _ := rfl
  out_items _ _ _ := rfl
  out_copied _ _ _ := rfl
  reset_bytes _ := rfl
  reset_capacity _ := rfl

theorem read_getD {l : List UInt8} {n : Nat} (to_ : Nat → UInt8) (h : n ≤ l.length) :
    read (fun i => (l.take n).getD i (to_ i)) n = l.take n := by
  apply List.ext_getElem
  · rw [length_read, List.length_take]
    omega
  · intro i hi hi'
    rw [getElem_read]
    exact List.getD_eq_getElem _ _ hi'

def opcional1Lawful {β : Type} {K : Kfifo β} (hK : K.Lawful) : (opcional1 K).Lawful where
  valid b := hK.capacity b = 64
  contents := hK.bytes
  cap := 64
  create_valid := hK.alloc_capacity
  create_contents := hK.alloc_bytes 64
  fits b hb := hb ▸ hK.fits b
  size_eq b _ := hK.len_eq b
  gaps_eq b hb := hb ▸ hK.avail_eq b
  isEmpty_iff b _ := hK.isEmpty_iff b
  insert_valid b items n hb _ := (hK.in_capacity b items n).trans hb
  insert_contents b items n hb _ hfits := by
    rw [opcional1, hK.in_bytes, hb, Nat.min_eq_left (by omega)]
  remove_valid b items n hb _ := (hK.out_capacity b items n).trans hb
  remove_le b items n _ _ := by
    simp only [opcional1, hK.out_bytes, List.length_drop]
    exact Nat.sub_le _ _
  remove_contents b items n _ _ _ := hK.out_bytes b items n
  remove_items b items n _ _ hn := by
    simp only [opcional1, hK.out_items]
    exact read_getD items hn
  clear_valid b hb := (hK.reset_capacity b).trans hb
  clear_contents b _ := hK.reset_bytes b

theorem toInt_ofNat {n : Nat} (h : n ≤ 50) : (Int32.ofNat n).toInt = n :=
  Int32.toInt_ofNat_of_lt (by omega)

theorem count_ofNat {n : Nat} (h : n ≤ 50) : Cbuffer.count (Int32.ofNat n) = n := by
  rw [Cbuffer.count, toInt_ofNat h, Int.toNat_natCast]

theorem parteB_fits {c : Cbuffer UInt8} (hsize : c.maxSize = 50) {n : Nat} (hn : n ≤ 50) :
    c.Fits (Int32.ofNat n) := by
  rw [Cbuffer.Fits, toInt_ofNat hn, hsize]
  omega

theorem parteB_insert (vector : Nat → UInt8) {c : Cbuffer UInt8} (hc : c.Wf)
    (hsize : c.maxSize = 50) (items : Nat → UInt8) {n : Nat} (hn : n ≤ 50) :
    (parteB vector).insert c items n = c.inserted items n := by
  obtain ⟨touched, hinsert, -⟩ := Cbuffer.insertItems_of_fits hc items (parteB_fits hsize hn)
  simp only [parteB, hinsert, count_ofNat hn]

theorem parteB_remove_refused {vector : Nat → UInt8} {c : Cbuffer UInt8} (hc : c.Wf)
    (items : Nat → UInt8) {n : Nat} (hn : n ≤ 50) (hshort : c.size < n) :
    (parteB vector).remove c items n = (c, items) := by
  have hnot : ¬c.Holds (Int32.ofNat n) := by
    rw [Cbuffer.Holds, toInt_ofNat hn]
    omega
  simp only [parteB, Cbuffer.removeItems_of_not_holds hc items hnot]

theorem parteB_remove {vector : Nat → UInt8} {c : Cbuffer UInt8} (hc : c.Wf)
    (items : Nat → UInt8) {n : Nat} (hn : n ≤ 50) (hle : n ≤ c.size) :
    ∃ head items', (parteB vector).remove c items n =
        ({ c with head, size := c.size - n }, items') ∧
      head ≤ c.maxSize ∧ head % c.maxSize = (c.head + n) % c.maxSize ∧
      read items' n = c.contents.take n := by
  have hholds : c.Holds (Int32.ofNat n) := by
    rw [Cbuffer.Holds, toInt_ofNat hn]
    omega
  obtain ⟨head, items', touched, hremove, hhead, hmod, -, hread, -⟩ :=
    Cbuffer.removeItems_of_holds hc items hholds
  rw [count_ofNat hn] at hremove hmod hread
  refine ⟨head, items', ?_, hhead, hmod, ?_⟩
  · simp only [parteB, hremove]
  · rw [hread, Cbuffer.contents, RingBuf.take_ring _ _ _ _ _ hle]

def parteBLawful (vector : Nat → UInt8) : (parteB vector).Lawful where
  valid c := c.Wf ∧ c.maxSize = 50
  contents := Cbuffer.contents
  cap := 50
  create_valid :=
    ⟨⟨(by decide : 0 < 50), (by decide : 50 ≤ 1073741824), Nat.zero_le _, Nat.zero_le _⟩, rfl⟩
  create_contents := rfl
  fits c hc := by
    rw [Cbuffer.length_contents, ← hc.2]
    exact hc.1.size_le
  size_eq c hc := by
    have hsize := hc.1.size_le
    simp only [parteB, Cbuffer.sizeCbufferT_eq hc.1, Cbuffer.length_contents]
    exact u64_natCast (by omega)
  gaps_eq c hc := by
    simp only [parteB, Cbuffer.nrGapsCbufferT_eq hc.1, Cbuffer.length_contents, hc.2]
    exact u64_natCast (by omega)
  isEmpty_iff c _ := by
    rw [← List.length_eq_zero_iff, Cbuffer.length_contents]
    exact beq_iff_eq
  insert_valid c items n hc hn := by
    rw [parteB_insert vector hc.1 hc.2 items hn]
    exact ⟨Cbuffer.wf_inserted hc.1 items n, hc.2⟩
  insert_contents c items n hc hn hfits := by
    have hpush := BoundedQueue.push_of_fits (c.toQueue hc.1) (read items n) (by
      rw [length_read]
      exact hfits.trans_eq hc.2.symm)
    rw [parteB_insert vector hc.1 hc.2 items hn, Cbuffer.contents_inserted hc.1 items (hc.2 ▸ hn)]
    exact hpush
  remove_valid c items n hc hn := by
    rcases Nat.lt_or_ge c.size n with hshort | hle
    · rw [parteB_remove_refused hc.1 items hn hshort]
      exact hc
    · obtain ⟨head, items', hremove, hhead, -⟩ := parteB_remove hc.1 items hn hle
      rw [hremove]
      exact ⟨⟨hc.1.pos, hc.1.bound, hhead, (Nat.sub_le _ _).trans hc.1.size_le⟩, hc.2⟩
  remove_le c items n hc hn := by
    rw [Cbuffer.length_contents, Cbuffer.length_contents]
    rcases Nat.lt_or_ge c.size n with hshort | hle
    · rw [parteB_remove_refused hc.1 items hn hshort]
    · obtain ⟨head, items', hremove, -⟩ := parteB_remove hc.1 items hn hle
      rw [hremove]
      exact Nat.sub_le _ _
  remove_contents c items n hc hn hle := by
    rw [Cbuffer.length_contents] at hle
    obtain ⟨head, items', hremove, -, hmod, -⟩ := parteB_remove hc.1 items hn hle
    rw [hremove]
    exact Cbuffer.contents_dropped hmod
  remove_items c items n hc hn hle := by
    rw [Cbuffer.length_contents] at hle
    obtain ⟨head, items', hremove, -, -, hread⟩ := parteB_remove hc.1 items hn hle
    rw [hremove]
    exact hread
  clear_valid c hc := ⟨Cbuffer.wf_clear hc.1, hc.2⟩
  clear_contents _ _ := rfl

theorem parteB_insert_of_room (vector : Nat → UInt8) {c : Cbuffer UInt8} (hc : c.Wf)
    (hsize : c.maxSize = 50) (items : Nat → UInt8) {n : Nat} (hroom : c.size + n ≤ 50) :
    ((parteB vector).insert c items n).head = c.head ∧
      ((parteB vector).insert c items n).size = c.size + n ∧
      ((parteB vector).insert c items n).contents = c.contents ++ read items n := by
  have hn : n ≤ 50 := by omega
  have hcontents := (parteBLawful vector).insert_contents c items n ⟨hc, hsize⟩ hn
    ((congrArg (· + n) (Cbuffer.length_contents c)).trans_le hroom)
  refine ⟨?_, ?_, hcontents⟩
  · rw [parteB_insert vector hc hsize items hn, Cbuffer.inserted]
    exact if_pos (by omega)
  · rw [parteB_insert vector hc hsize items hn, Cbuffer.inserted]
    exact Nat.min_eq_left (by omega)

end LinuxInternals.Fifoproc
