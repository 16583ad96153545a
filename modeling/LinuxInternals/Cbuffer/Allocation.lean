import LinuxInternals.Cbuffer.Runs

/-!
# The allocation of the buffer of integers

The copy of `cbuffer.c` in `Pr4/Modtimer` stores `int`s and copies blocks by `sizeof(int)`,
while `create_cbuffer_t` still asks `vmalloc` for `max_size` bytes. Until the allocation is
used up no slot is taken twice: the buffer ends where the last inserted item lies.
-/

namespace LinuxInternals.Cbuffer

open CData

def sizeofInt : Nat := 4

/-- The bytes that `create_cbuffer_t` allocates for `data`. -/
def dataBytes (maxSize : Nat) : Nat := maxSize

/-- The element at `i` lies wholly within the allocation. -/
def Inside (maxSize i : Nat) : Prop := (i + 1) * sizeofInt ≤ dataBytes maxSize

theorem inside_iff {maxSize i : Nat} : Inside maxSize i ↔ 4 * (i + 1) ≤ maxSize := by
  rw [Inside, sizeofInt, dataBytes, Nat.mul_comm]

inductive IntOp where
  | insert (newItem : Int32)
  | insertItems (items : Nat → Int32) (nrItems : Int32)
  | remove
  | head

def IntOp.op : IntOp → Op Int32
  | .insert newItem => .insert newItem
  | .insertItems items nrItems => .insertItems items nrItems
  | .remove => .remove
  | .head => .head

/-- The number of items that the operation inserts. -/
def IntOp.inserted (maxSize : Nat) : IntOp → Nat
  | .insert _ => 1
  | .insertItems _ nrItems => if maxSize < u32 nrItems.toInt then 0 else u32 nrItems.toInt
  | .remove | .head => 0

/-- `insert_items_cbuffer_t` takes the request, and `nr_gaps` does not fit an `int`. -/
def GapsOverflow (c : Cbuffer Int32) : Op Int32 → Prop
  | .insertItems _ nrItems => u32 nrItems.toInt ≤ c.maxSize ∧ 2147483648 ≤ c.maxSize - c.size
  | _ => False

/-- After `n` insertions all slots in use lie below `n`. -/
structure Packed (maxSize n : Nat) (c : Cbuffer Int32) (touched : List Nat) : Prop where
  maxSize_eq : c.maxSize = maxSize
  tail_eq : c.head + c.size = n
  touched_lt : ∀ i ∈ touched, i < n

section Step

variable {maxSize n : Nat} {c : Cbuffer Int32} {t : List Nat}

theorem Packed.inside (h : Packed maxSize n c t) (hn : 4 * n ≤ maxSize) :
    ∀ i ∈ t, Inside maxSize i := by
  intro i hi
  have hlt := h.touched_lt i hi
  rw [inside_iff]
  omega

theorem Packed.append (h : Packed maxSize n c t) {c' : Cbuffer Int32} {k : Nat} {es : List Nat}
    (hmax : c'.maxSize = c.maxSize) (htail : c'.head + c'.size = n + k)
    (hes : ∀ i ∈ es, i < n + k) : Packed maxSize (n + k) c' (t ++ es) where
  maxSize_eq := hmax.trans h.maxSize_eq
  tail_eq := htail
  touched_lt i hi := by
    rcases List.mem_append.mp hi with hi | hi
    · exact Nat.lt_add_right k (h.touched_lt i hi)
    · exact hes i hi

theorem insert_of_packed (h : Packed maxSize n c t) (hpos : 1 ≤ maxSize)
    (hmax : maxSize < 4294967296) (hn : 4 * n ≤ maxSize) (newItem : Int32) :
    c.insertCbufferT newItem =
      ({ c with data := Function.update c.data n newItem, size := c.size + 1 }, [n]) := by
  obtain ⟨rfl, rfl, -⟩ := h
  rw [insertCbufferT, if_neg (by omega), if_pos (by omega), uadd_eq (by omega),
    Nat.mod_eq_of_lt (by omega), uadd_eq (by omega)]

/-- While there is room in the allocation a block goes behind the last item in one piece. -/
theorem insertItems_of_room (h : Packed maxSize n c t) (hpos : 1 ≤ maxSize)
    (hmax : maxSize < 4294967296) (items : Nat → Int32) {nrItems : Int32}
    (htaken : u32 nrItems.toInt ≤ maxSize) (hroom : 4 * (n + u32 nrItems.toInt) ≤ maxSize)
    (hgaps : maxSize - c.size < 2147483648) :
    ∃ data, c.insertItemsCbufferT items nrItems =
      ({ c with data, size := c.size + u32 nrItems.toInt },
        if nrItems.toInt ≠ 0 then List.range' n (u32 nrItems.toInt) else []) := by
  obtain ⟨rfl, rfl, -⟩ := h
  have hlow := nrItems.le_toInt
  have hhigh := nrItems.toInt_lt
  obtain ⟨k, hk⟩ : ∃ k : Nat, nrItems.toInt = k := by
    apply Int.eq_ofNat_of_zero_le
    by_contra hneg
    unfold u32 at hroom
    omega
  have hu32 : u32 (k : Int) = k := u32_natCast (by omega)
  rw [hk, hu32] at hroom htaken ⊢
  have hwhead : i32 (uadd c.head c.size % c.maxSize : Nat) = (c.head + c.size : Nat) := by
    rw [uadd_eq (by omega), Nat.mod_eq_of_lt (by omega), i32_of_range (by omega) (by omega)]
  have hend : u32 (i32 ((c.head + c.size : Nat) + k)) = c.head + c.size + k := by
    rw [i32_of_range (by omega) (by omega), u32_of_nonneg (by omega) (by omega)]
    omega
  have hnrGaps : i32 (usub c.maxSize c.size) = (c.maxSize - c.size : Nat) := by
    rw [usub_eq (by omega) (by omega), i32_of_range (by omega) (by omega)]
  simp only [insertItemsCbufferT, hk, hu32, hwhead, hend, hnrGaps, if_neg (not_lt.mpr htaken),
    if_neg (show ¬c.maxSize < c.head + c.size + k by omega), if_pos (show (k : Int) ≤
    (c.maxSize - c.size : Nat) by omega), uadd_eq (show c.size + k < 4294967296 by omega),
    List.nil_append,
    u64_natCast (show c.head + c.size < 18446744073709551616 by omega),
    u64_natCast (show k < 18446744073709551616 by omega)]
  exact ⟨_, rfl⟩

/-- A block that does not fit the allocation leaves it, split at the end of the array or not. -/
theorem exists_outside_of_insertItems (h : Packed maxSize n c t) (hpos : 1 ≤ maxSize)
    (hmax : maxSize < 4294967296) (hn : 4 * n ≤ maxSize) (items : Nat → Int32) {nrItems : Int32}
    (htaken : u32 nrItems.toInt ≤ maxSize) (hfull : maxSize < 4 * (n + u32 nrItems.toInt)) :
    ∃ i ∈ (c.insertItemsCbufferT items nrItems).2, ¬Inside maxSize i := by
  obtain ⟨rfl, rfl, -⟩ := h
  have hlow := nrItems.le_toInt
  have hhigh := nrItems.toInt_lt
  have hwhead : i32 (uadd c.head c.size % c.maxSize : Nat) = (c.head + c.size : Nat) := by
    rw [uadd_eq (by omega), Nat.mod_eq_of_lt (by omega), i32_of_range (by omega) (by omega)]
  have hwhead64 : u64 (c.head + c.size : Nat) = c.head + c.size := u64_natCast (by omega)
  have hsnd : (c.insertItemsCbufferT items nrItems).2 =
      if c.maxSize < u32 (i32 ((c.head + c.size : Nat) + nrItems.toInt)) then
        List.range' (c.head + c.size) (u64 (i32 (usub c.maxSize (c.head + c.size)))) ++
          (if i32 (nrItems.toInt - i32 (usub c.maxSize (c.head + c.size))) ≠ 0 then
            List.range' 0 (u64 (i32 (nrItems.toInt - i32 (usub c.maxSize (c.head + c.size)))))
          else [])
      else if nrItems.toInt ≠ 0 then List.range' (c.head + c.size) (u64 nrItems.toInt)
      else [] := by
    by_cases hwraps : c.maxSize < u32 (i32 ((c.head + c.size : Nat) + nrItems.toInt))
    · simp only [insertItemsCbufferT, if_neg (not_lt.mpr htaken), hwhead, hwhead64, hwraps, if_true,
        u32_natCast (show c.head + c.size < 4294967296 by omega), apply_ite Prod.snd, ite_self,
        u64_zero]
    · simp only [insertItemsCbufferT, if_neg (not_lt.mpr htaken), hwhead, hwhead64, hwraps,
        if_false, apply_ite Prod.snd, ite_self, List.nil_append]
  rw [hsnd]
  split
  · have hcopied : c.maxSize - (c.head + c.size) ≤
        u64 (i32 (usub c.maxSize (c.head + c.size))) := by
      rw [usub_eq (by omega) (by omega)]
      exact le_u64_i32 (by omega)
    refine ⟨c.maxSize - 1, List.mem_append_left _ (List.mem_range'_1.mpr (by omega)), ?_⟩
    rw [inside_iff]
    omega
  · -- for a negative count `sizeof(int)` times it wraps: 3 in 4 of these elements are not
    -- copied, and still more than any array holds are
    have hcopied : u32 nrItems.toInt ≤ u64 nrItems.toInt := by
      unfold u32 u64
      omega
    have hne : nrItems.toInt ≠ 0 := by
      intro hzero
      rw [hzero, u32_of_nonneg le_rfl (by decide)] at hfull
      exact absurd hfull (not_lt.mpr hn)
    rw [if_pos hne]
    refine ⟨c.head + c.size + u32 nrItems.toInt - 1, List.mem_range'_1.mpr (by omega), ?_⟩
    rw [inside_iff]
    omega

theorem packed_step (h : Packed maxSize n c t) (hpos : 1 ≤ maxSize) (hmax : maxSize < 4294967296)
    (o : IntOp) (hgaps : ¬c.GapsOverflow o.op) (hroom : 4 * (n + o.inserted maxSize) ≤ maxSize) :
    Packed maxSize (n + o.inserted maxSize) (c.step o.op).1 (t ++ (c.step o.op).2) := by
  have htail := h.tail_eq
  have hcap := h.maxSize_eq
  cases o with
  | insert newItem =>
    rw [IntOp.inserted] at hroom
    simp only [IntOp.op, step, insert_of_packed h hpos hmax (by omega)]
    refine h.append rfl ?_ (List.forall_mem_singleton.mpr (Nat.lt_succ_self n))
    rw [← Nat.add_assoc, htail]
    rfl
  | insertItems items nrItems =>
    rw [IntOp.inserted] at hroom ⊢
    by_cases htaken : maxSize < u32 nrItems.toInt
    · rw [if_pos htaken]
      have hrefused : c.insertItemsCbufferT items nrItems = (c, []) := by
        rw [insertItemsCbufferT, hcap, if_pos htaken]
      simp only [IntOp.op, step, hrefused]
      exact h.append rfl htail (List.forall_mem_nil _)
    · rw [if_neg htaken] at hroom ⊢
      have hgap : maxSize - c.size < 2147483648 := by
        by_contra hover
        exact hgaps ⟨hcap ▸ not_lt.mp htaken, hcap ▸ not_lt.mp hover⟩
      obtain ⟨data, heq⟩ :=
        insertItems_of_room h hpos hmax items (not_lt.mp htaken) hroom hgap
      simp only [IntOp.op, step, heq]
      refine h.append rfl ?_ ?_
      · rw [← htail, Nat.add_assoc]
      · intro i hi
        split at hi
        · exact (List.mem_range'_1.mp hi).2
        · cases hi
  | remove =>
    simp only [IntOp.op, IntOp.inserted, step, removeCbufferT]
    split
    · refine h.append rfl ?_ (List.forall_mem_singleton.mpr (by omega))
      rw [uadd_eq (by omega), Nat.mod_eq_of_lt (by omega), usub_eq (by omega) (by omega)]
      change c.head + 1 + (c.size - 1) = n
      omega
    · exact h.append rfl htail (List.forall_mem_nil _)
  | head =>
    simp only [IntOp.op, IntOp.inserted, step, headCbufferT]
    refine h.append rfl htail ?_
    split
    · exact List.forall_mem_singleton.mpr (by omega)
    · exact List.forall_mem_nil _

theorem outside_step (h : Packed maxSize n c t) (hpos : 1 ≤ maxSize) (hmax : maxSize < 4294967296)
    (hn : 4 * n ≤ maxSize) (o : IntOp) (hfull : maxSize < 4 * (n + o.inserted maxSize)) :
    ∃ i ∈ (c.step o.op).2, ¬Inside maxSize i := by
  cases o with
  | insert newItem =>
    simp only [IntOp.op, step, insert_of_packed h hpos hmax hn]
    refine ⟨n, List.mem_singleton_self n, ?_⟩
    rw [inside_iff]
    exact not_le.mpr hfull
  | insertItems items nrItems =>
    rw [IntOp.inserted] at hfull
    split at hfull
    · exact absurd hfull (not_lt.mpr hn)
    · exact exists_outside_of_insertItems h hpos hmax hn items (not_lt.mp ‹_›) hfull
  | remove | head => exact absurd hfull (not_lt.mpr hn)

end Step

def insertedItems (maxSize : Nat) (ops : List IntOp) : Nat :=
  (ops.map (IntOp.inserted maxSize)).sum

theorem packed_or_outside {maxSize : Nat} {c₀ : Cbuffer Int32} (hpos : 1 ≤ maxSize)
    (hmax : maxSize < 4294967296) (h₀ : Packed maxSize 0 c₀ []) {ops : List IntOp}
    {c : Cbuffer Int32} {touched : List Nat}
    (hrun : (machine c₀).Run (ops.map IntOp.op) c touched)
    (hgaps : (machine c₀).Along (fun c op => ¬c.GapsOverflow op) c₀ (ops.map IntOp.op)) :
    (4 * insertedItems maxSize ops ≤ maxSize ∧
        Packed maxSize (insertedItems maxSize ops) c touched) ∨
      (maxSize < 4 * insertedItems maxSize ops ∧ ∃ i ∈ touched, ¬Inside maxSize i) := by
  induction ops using List.reverseRecOn generalizing c touched with
  | nil =>
    obtain ⟨rfl, rfl⟩ := Machine.run_nil.unique hrun
    exact .inl ⟨Nat.zero_le _, h₀⟩
  | append_singleton ops o ih =>
    rw [List.map_append, List.map_singleton] at hrun hgaps
    obtain ⟨b, t, es, hb, ho, rfl⟩ := Machine.run_snoc_iff.mp hrun
    obtain ⟨hgaps, hlast⟩ := (Machine.along_snoc hb o.op).mp hgaps
    have hsum : insertedItems maxSize (ops ++ [o]) =
        insertedItems maxSize ops + o.inserted maxSize := by
      simp [insertedItems]
    rw [machine_step] at ho
    rw [hsum]
    rcases ih hb hgaps with ⟨hroom, hpacked⟩ | ⟨hfull, i, hi, hout⟩
    · by_cases hroom' : 4 * (insertedItems maxSize ops + o.inserted maxSize) ≤ maxSize
      · have hstep := packed_step hpacked hpos hmax o hlast hroom'
        rw [ho] at hstep
        exact .inl ⟨hroom', hstep⟩
      · obtain ⟨i, hi, hout⟩ := outside_step hpacked hpos hmax hroom o (not_le.mp hroom')
        rw [ho] at hi
        exact .inr ⟨not_le.mp hroom', i, List.mem_append_right t hi, hout⟩
    · exact .inr ⟨by omega, i, List.mem_append_left es hi, hout⟩

/-- From a new buffer, as long as the gaps fit an `int`, all accesses stay inside the
allocation exactly when the inserted items do. -/
theorem inside_iff_four_inserted_le {cbuffer : Bool} {vector : Option (Nat → Int32)}
    {maxSize : Nat} {c₀ : Cbuffer Int32} (hpos : 1 ≤ maxSize) (hmax : maxSize < 4294967296)
    (hcreate : createCbufferT cbuffer vector maxSize = some c₀) {ops : List IntOp}
    {c : Cbuffer Int32} {touched : List Nat}
    (hrun : (machine c₀).Run (ops.map IntOp.op) c touched)
    (hgaps : (machine c₀).Along (fun c op => ¬c.GapsOverflow op) c₀ (ops.map IntOp.op)) :
    (∀ i ∈ touched, Inside maxSize i) ↔ 4 * insertedItems maxSize ops ≤ maxSize := by
  obtain ⟨hhead, hsize, hcap⟩ := createCbufferT_eq_some hcreate
  have h₀ : Packed maxSize 0 c₀ [] := ⟨hcap, by rw [hhead, hsize], List.forall_mem_nil _⟩
  rcases packed_or_outside hpos hmax h₀ hrun hgaps with ⟨hroom, hpacked⟩ | ⟨hfull, i, hi, hout⟩
  · exact iff_of_true (hpacked.inside hroom) hroom
  · exact iff_of_false (fun hall => hout (hall i hi)) (not_le.mpr hfull)

/-- The buffer that `init_modtimer` creates. -/
def modtimerBuffer : Cbuffer Int32 := { data := fun _ => 0, head := 0, size := 0, maxSize := 10 }

theorem inside_iff_four_inserted_le_two :
    ∃ c touched, (machine modtimerBuffer).Run ([IntOp.insert 7, .insert 8].map IntOp.op) c touched ∧
      ((∀ i ∈ touched, Inside 10 i) ↔
        4 * insertedItems 10 [.insert 7, .insert 8] ≤ 10) := by
  obtain ⟨c, touched, hrun⟩ :=
    run_exists modtimerBuffer ([IntOp.insert 7, .insert 8].map IntOp.op)
  exact ⟨c, touched, hrun, inside_iff_four_inserted_le (by decide) (by decide)
    (rfl : createCbufferT true (some fun _ => (0 : Int32)) 10 = some modtimerBuffer) hrun
    ⟨id, id, trivial⟩⟩

/-- Ten bytes hold two integers; the third insertion leaves the allocation. -/
theorem third_insert_outside :
    createCbufferT true (some fun _ => (0 : Int32)) 10 = some modtimerBuffer ∧
      ∃ c touched, (machine modtimerBuffer).Run
        ([IntOp.insert 7, .insert 8, .insert 9].map IntOp.op) c touched ∧
        ¬∀ i ∈ touched, Inside 10 i := by
  have heval : ((machine modtimerBuffer).exec modtimerBuffer
      ([IntOp.insert 7, .insert 8, .insert 9].map IntOp.op)).map Prod.snd = some [0, 1, 2] := by
    decide +kernel
  obtain ⟨c, touched, hrun, htouched⟩ := Machine.exists_run_of_eval heval
  refine ⟨rfl, c, touched, hrun, fun hall => ?_⟩
  have hlast := hall 2 (by rw [show touched = _ from htouched]; decide)
  rw [inside_iff] at hlast
  exact absurd hlast (by decide)

end LinuxInternals.Cbuffer
