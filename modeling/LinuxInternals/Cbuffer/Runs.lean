import LinuxInternals.Cbuffer.Bulk
import LinuxInternals.Lib.Machine

/-!
# Runs of a circular buffer

A buffer under any sequence of its operations is a machine whose events are the
indices of the elements it touches. Bulk runs refine a bounded queue. Mixed runs
keep the documented range of `head` up to the first bulk removal that ends exactly
at the end of the array.
-/

namespace LinuxInternals.Cbuffer

open CData RingBuf

variable {α : Type*}

inductive Op (α : Type*) where
  | insert (newItem : α)
  | insertItems (items : Nat → α) (nrItems : Int32)
  | remove
  | removeItems (items : Nat → α) (nrItems : Int32)
  | head
  | clear

/-- For `head_cbuffer_t` the touched element is the one pointed to. -/
def step (c : Cbuffer α) : Op α → Cbuffer α × List Nat
  | .insert newItem => c.insertCbufferT newItem
  | .insertItems items nrItems => c.insertItemsCbufferT items nrItems
  | .remove => let r := c.removeCbufferT; (r.1, r.2.2)
  | .removeItems items nrItems => let r := c.removeItemsCbufferT items nrItems; (r.1, r.2.2)
  | .head => (c, c.headCbufferT.toList)
  | .clear => (c.clearCbufferT, [])

def machine (c₀ : Cbuffer α) : Machine (Cbuffer α) (Op α) Nat where
  init := c₀
  step c op := some (c.step op)

theorem machine_step {c₀ c c' : Cbuffer α} {op : Op α} {touched : List Nat} :
    (machine c₀).step c op = some (c', touched) ↔ c.step op = (c', touched) := by
  simp [machine]

inductive BulkOp (α : Type*) where
  | insertItems (items : Nat → α) (nrItems : Int32)
  | removeItems (items : Nat → α) (nrItems : Int32)
  | clear

def BulkOp.op : BulkOp α → Op α
  | .insertItems items nrItems => .insertItems items nrItems
  | .removeItems items nrItems => .removeItems items nrItems
  | .clear => .clear

theorem run_exists (c₀ : Cbuffer α) (ops : List (Op α)) :
    ∃ c touched, (machine c₀).Run ops c touched :=
  Machine.exists_run_of_total (fun _ _ => ⟨_, _, rfl⟩) ops

theorem createCbufferT_eq_some {cbuffer : Bool} {vector : Option (Nat → α)} {maxSize : Nat}
    {c : Cbuffer α} (h : createCbufferT cbuffer vector maxSize = some c) :
    c.head = 0 ∧ c.size = 0 ∧ c.maxSize = maxSize := by
  unfold createCbufferT at h
  split at h
  · split at h
    · cases h
    · cases h
      exact ⟨rfl, rfl, rfl⟩
  · cases h

theorem wf_of_create {cbuffer : Bool} {vector : Option (Nat → α)} {maxSize : Nat}
    {c : Cbuffer α} (hpos : 1 ≤ maxSize) (hbound : maxSize ≤ 1073741824)
    (h : createCbufferT cbuffer vector maxSize = some c) : c.Wf := by
  obtain ⟨hhead, hsize, hmax⟩ := createCbufferT_eq_some h
  constructor <;> omega

theorem bulkStep_wf {c : Cbuffer α} (h : c.Wf) (op : BulkOp α) :
    (c.step op.op).1.Wf ∧ (c.step op.op).1.maxSize = c.maxSize ∧
      ∀ i ∈ (c.step op.op).2, i < c.maxSize := by
  cases op with
  | insertItems items n =>
    by_cases hn : c.Fits n
    · obtain ⟨touched, heq, htouched⟩ := insertItems_of_fits h items hn
      simp only [BulkOp.op, step, heq]
      exact ⟨wf_inserted h items _, rfl, htouched⟩
    · simp only [BulkOp.op, step, insertItems_of_not_fits h items hn]
      exact ⟨h, trivial, by simp⟩
  | removeItems items n =>
    by_cases hn : c.Holds n
    · obtain ⟨head, items', touched, heq, hhead, _, _, _, _, htouched⟩ :=
        removeItems_of_holds h items hn
      simp only [BulkOp.op, step, heq]
      exact ⟨⟨h.pos, h.bound, hhead, (Nat.sub_le _ _).trans h.size_le⟩, trivial, htouched⟩
    · simp only [BulkOp.op, step, removeItems_of_not_holds h items hn]
      exact ⟨h, trivial, by simp⟩
  | clear => exact ⟨wf_clear h, rfl, by simp [BulkOp.op, step]⟩

theorem bulkRun_wf {c₀ c : Cbuffer α} {ops : List (BulkOp α)} {touched : List Nat}
    (h₀ : c₀.Wf) (h : (machine c₀).Run (ops.map BulkOp.op) c touched) :
    c.Wf ∧ c.maxSize = c₀.maxSize ∧ ∀ i ∈ touched, i < c₀.maxSize := by
  induction ops using List.reverseRecOn generalizing c touched with
  | nil =>
    obtain ⟨rfl, rfl⟩ := Machine.run_nil.unique h
    exact ⟨h₀, rfl, by simp⟩
  | append_singleton ops op ih =>
    rw [List.map_append, List.map_cons, List.map_nil] at h
    obtain ⟨b, t, es, hb, hop, rfl⟩ := Machine.run_snoc_iff.mp h
    obtain ⟨hwf, hmax, ht⟩ := ih hb
    obtain ⟨hwf', hmax', hes⟩ := bulkStep_wf hwf op
    rw [machine_step] at hop
    rw [hop] at hwf' hmax' hes
    refine ⟨hwf', hmax'.trans hmax, fun i hi => ?_⟩
    rcases List.mem_append.mp hi with hi | hi
    · exact ht i hi
    · exact hmax ▸ hes i hi

/-- From a fresh buffer, any sequence of bulk operations behaves as a bounded queue of
the contents. -/
theorem bulk_run_refines_queue {cbuffer : Bool} {vector : Option (Nat → α)} {maxSize : Nat}
    {c₀ : Cbuffer α} (hpos : 1 ≤ maxSize) (hbound : maxSize ≤ 1073741824)
    (hcreate : createCbufferT cbuffer vector maxSize = some c₀) (ops : List (BulkOp α)) :
    ∃ c touched, (machine c₀).Run (ops.map BulkOp.op) c touched ∧
      c.maxSize = maxSize ∧ c.head ≤ maxSize ∧ c.size ≤ maxSize ∧
      (∀ i ∈ touched, i < maxSize) ∧
      c.sizeCbufferT = c.contents.length ∧
      c.nrGapsCbufferT = (maxSize : Int) - c.contents.length ∧
      (∀ items (n : Int32), 0 ≤ n.toInt → n.toInt ≤ maxSize →
        (c.insertItemsCbufferT items n).1.contents = (c.contents ++ read items (count n)).rtake
          (min (c.contents.length + count n) maxSize)) ∧
      (∀ items (n : Int32), ¬(0 ≤ n.toInt ∧ n.toInt ≤ maxSize) →
        (c.insertItemsCbufferT items n).1 = c) ∧
      (∀ items (n : Int32), 0 ≤ n.toInt → n.toInt ≤ c.contents.length →
        read (c.removeItemsCbufferT items n).2.1 (count n) = c.contents.take (count n) ∧
        (∀ i, count n ≤ i → (c.removeItemsCbufferT items n).2.1 i = items i) ∧
        (c.removeItemsCbufferT items n).1.contents = c.contents.drop (count n)) ∧
      (∀ items (n : Int32), ¬(0 ≤ n.toInt ∧ n.toInt ≤ c.contents.length) →
        (c.removeItemsCbufferT items n).1 = c ∧ (c.removeItemsCbufferT items n).2.1 = items) ∧
      c.clearCbufferT.contents = [] := by
  have h₀ := wf_of_create hpos hbound hcreate
  have hmax₀ := (createCbufferT_eq_some hcreate).2.2
  obtain ⟨c, touched, hrun⟩ := run_exists c₀ (ops.map BulkOp.op)
  obtain ⟨h, hmax, htouched⟩ := bulkRun_wf h₀ hrun
  rw [hmax₀] at hmax htouched
  simp only [length_contents]
  refine ⟨c, touched, hrun, hmax, hmax ▸ h.head_le, hmax ▸ h.size_le, htouched,
    sizeCbufferT_eq h, ?_, ?_, ?_, ?_, ?_, rfl⟩
  · have hsize := h.size_le
    rw [nrGapsCbufferT_eq h]
    omega
  · intro items n h0 hn
    obtain ⟨_, heq, _⟩ := insertItems_of_fits h items (n := n) ⟨h0, hmax ▸ hn⟩
    have hk : count n ≤ c.maxSize := by rw [count]; omega
    have hlen : c.size + count n = (c.contents ++ read items (count n)).length := by simp
    rw [heq, contents_inserted h items hk, hlen, BoundedQueue.rtake_min, hmax]
  · intro items n hn
    rw [insertItems_of_not_fits h items (by rwa [Fits, hmax])]
  · intro items n h0 hn
    obtain ⟨head, items', _, heq, _, hhead, _, hread, hrest, _⟩ :=
      removeItems_of_holds h items (n := n) ⟨h0, hn⟩
    have hk : count n ≤ c.size := by rw [count]; omega
    rw [heq]
    exact ⟨hread.trans (take_ring c.data c.head c.size c.maxSize (count n) hk).symm, hrest,
      contents_dropped hhead⟩
  · intro items n hn
    rw [removeItems_of_not_holds h items hn]
    exact ⟨rfl, rfl⟩

def zeroed (maxSize : Nat) : Cbuffer UInt8 := { data := fun _ => 0, head := 0, size := 0, maxSize }

theorem bulk_run_refines_queue_three :
    ∃ c touched, (machine (zeroed 3)).Run
        ([.insertItems (fun i => UInt8.ofNat (i + 7)) 2, .removeItems (fun _ => 0) 1].map
          BulkOp.op) c touched ∧ c.maxSize = 3 ∧ c.head ≤ 3 := by
  obtain ⟨c, touched, hrun, hmax, hhead, _⟩ := bulk_run_refines_queue
    (by decide) (by decide) (rfl : createCbufferT true (some fun _ => (0 : UInt8)) 3 = some _)
    [.insertItems (fun i => UInt8.ofNat (i + 7)) 2, .removeItems (fun _ => 0) 1]
  exact ⟨c, touched, hrun, hmax, hhead⟩

/-- The range that `cbuffer.h` documents. -/
structure Documented (c : Cbuffer α) : Prop where
  head_lt : c.head < c.maxSize
  size_le : c.size ≤ c.maxSize

/-- A bulk removal that ends exactly at the end of the array. -/
def EndsAtEdge (c : Cbuffer α) : Op α → Prop
  | .removeItems _ n => 0 < n.toInt ∧ n.toInt ≤ c.size ∧ c.head + count n = c.maxSize
  | _ => False

instance (c : Cbuffer α) : (op : Op α) → Decidable (c.EndsAtEdge op)
  | .removeItems _ _ => inferInstanceAs (Decidable (_ ∧ _))
  | .insert _ | .insertItems _ _ | .remove | .head | .clear => isFalse id

theorem Documented.wf {c : Cbuffer α} (h : c.Documented) (hbound : c.maxSize ≤ 1073741824) :
    c.Wf where
  pos := (Nat.zero_le _).trans_lt h.head_lt
  bound := hbound
  head_le := h.head_lt.le
  size_le := h.size_le

theorem insertCbufferT_documented {c : Cbuffer α} (h : c.Documented)
    (hbound : c.maxSize ≤ 2147483648) (newItem : α) :
    (c.insertCbufferT newItem).1.maxSize = c.maxSize ∧
      (c.insertCbufferT newItem).1.Documented ∧
      ∀ i ∈ (c.insertCbufferT newItem).2, i < c.maxSize := by
  obtain ⟨hhead, hsize⟩ := h
  have hpos : 0 < c.maxSize := by omega
  rw [insertCbufferT]
  split
  · have hmod := Nat.mod_lt (uadd c.head 1) hpos
    refine ⟨rfl, ⟨?_, hsize⟩, by simpa using hhead⟩
    simp only
    split <;> omega
  · have hmod := Nat.mod_lt (uadd c.head c.size) hpos
    refine ⟨rfl, ⟨hhead, ?_⟩, ?_⟩
    · simp only [uadd_eq (show c.size + 1 < 4294967296 by omega)]
      omega
    · rw [if_pos hpos.ne']
      simpa using hmod

theorem removeCbufferT_documented {c : Cbuffer α} (h : c.Documented)
    (hbound : c.maxSize ≤ 2147483648) :
    c.removeCbufferT.1.maxSize = c.maxSize ∧ c.removeCbufferT.1.Documented ∧
      ∀ i ∈ c.removeCbufferT.2.2, i < c.maxSize := by
  obtain ⟨hhead, hsize⟩ := h
  have hmod := Nat.mod_lt (uadd c.head 1) (show 0 < c.maxSize by omega)
  rw [removeCbufferT]
  split
  · refine ⟨rfl, ⟨hmod, ?_⟩, by simpa using hhead⟩
    simp only [usub_eq (show 1 ≤ c.size by omega) (by omega)]
    omega
  · exact ⟨rfl, ⟨hhead, hsize⟩, by simp⟩

theorem documented_inserted {c : Cbuffer α} (h : c.Documented) (items : Nat → α) (k : Nat) :
    (c.inserted items k).Documented where
  head_lt := by
    have hhead := h.head_lt
    have hmod := Nat.mod_lt (c.head + (c.size + k - c.maxSize)) (show 0 < c.maxSize by omega)
    simp only [inserted]
    split
    · exact hhead
    · exact hmod
  size_le := Nat.min_le_right _ _

theorem insertItems_documented {c : Cbuffer α} (h : c.Documented)
    (hbound : c.maxSize ≤ 1073741824) (items : Nat → α) (n : Int32) :
    (c.insertItemsCbufferT items n).1.maxSize = c.maxSize ∧
      (c.insertItemsCbufferT items n).1.Documented ∧
      ∀ i ∈ (c.insertItemsCbufferT items n).2, i < c.maxSize := by
  have hwf := h.wf hbound
  by_cases hn : c.Fits n
  · obtain ⟨touched, heq, htouched⟩ := insertItems_of_fits hwf items hn
    rw [heq]
    exact ⟨rfl, documented_inserted h items _, htouched⟩
  · rw [insertItems_of_not_fits hwf items hn]
    exact ⟨rfl, h, by simp⟩

theorem removeItems_documented_iff {c : Cbuffer α} (h : c.Documented)
    (hbound : c.maxSize ≤ 1073741824) (items : Nat → α) (n : Int32) :
    (c.removeItemsCbufferT items n).1.maxSize = c.maxSize ∧
      (((c.removeItemsCbufferT items n).1.Documented ∧
        ∀ i ∈ (c.removeItemsCbufferT items n).2.2, i < c.maxSize) ↔
      ¬c.EndsAtEdge (.removeItems items n)) := by
  have hwf := h.wf hbound
  by_cases hn : c.Holds n
  · obtain ⟨head, items', touched, heq, hle, _, hedge, _, _, htouched⟩ :=
      removeItems_of_holds hwf items hn
    have hcount : (count n : Int) = n.toInt := Int.toNat_of_nonneg hn.1
    have hmax := hedge h.head_lt
    rw [heq]
    refine ⟨rfl, ?_⟩
    constructor
    · rintro ⟨⟨hlt, _⟩, _⟩ ⟨hn0, _, hend⟩
      exact hlt.ne (hmax.mpr ⟨by omega, hend⟩)
    · intro hno
      refine ⟨⟨lt_of_le_of_ne hle fun heq => ?_, (Nat.sub_le _ _).trans h.size_le⟩, htouched⟩
      obtain ⟨hn0, hend⟩ := hmax.mp heq
      exact hno ⟨by omega, hn.2, hend⟩
  · rw [removeItems_of_not_holds hwf items hn]
    refine ⟨rfl, iff_of_true ⟨h, by simp⟩ ?_⟩
    rintro ⟨hn0, hle, _⟩
    exact hn ⟨hn0.le, hle⟩

/-- Up to such a removal every operation keeps the documented range and the array
bounds; the removal itself leaves `head` outside. -/
theorem step_documented_iff {c : Cbuffer α} (h : c.Documented)
    (hbound : c.maxSize ≤ 1073741824) (op : Op α) :
    (c.step op).1.maxSize = c.maxSize ∧
      (((c.step op).1.Documented ∧ ∀ i ∈ (c.step op).2, i < c.maxSize) ↔
        ¬c.EndsAtEdge op) := by
  cases op with
  | insert newItem =>
    obtain ⟨hmax, hkeep⟩ := insertCbufferT_documented h (by omega) newItem
    exact ⟨hmax, iff_of_true hkeep id⟩
  | insertItems items n =>
    obtain ⟨hmax, hkeep⟩ := insertItems_documented h hbound items n
    exact ⟨hmax, iff_of_true hkeep id⟩
  | remove =>
    obtain ⟨hmax, hkeep⟩ := removeCbufferT_documented h (by omega)
    exact ⟨hmax, iff_of_true hkeep id⟩
  | removeItems items n => exact removeItems_documented_iff h hbound items n
  | head =>
    refine ⟨rfl, iff_of_true ⟨h, fun i hi => ?_⟩ id⟩
    simp only [step, headCbufferT, Option.mem_toList] at hi
    split at hi
    · cases hi
      exact h.head_lt
    · cases hi
  | clear =>
    have hpos := (Nat.zero_le _).trans_lt h.head_lt
    exact ⟨rfl, iff_of_true ⟨⟨hpos, Nat.zero_le _⟩, by simp [step]⟩ id⟩

/-- `head` and `size` in the documented range, and every access inside the array. -/
def Intact (maxSize : Nat) (c : Cbuffer α) (touched : List Nat) : Prop :=
  c.maxSize = maxSize ∧ c.Documented ∧ ∀ i ∈ touched, i < maxSize

/-- From a fresh buffer, a run stays intact in every state it reaches exactly when no
bulk removal of it ends at the end of the array. -/
theorem intact_iff_no_removal_ends_at_edge {cbuffer : Bool} {vector : Option (Nat → α)}
    {maxSize : Nat} {c₀ : Cbuffer α} (hpos : 1 ≤ maxSize) (hbound : maxSize ≤ 1073741824)
    (hcreate : createCbufferT cbuffer vector maxSize = some c₀) (ops : List (Op α)) :
    (machine c₀).Always (Intact maxSize) ops ↔
      (machine c₀).Along (fun c op => ¬c.EndsAtEdge op) c₀ ops := by
  obtain ⟨hhead, hsize, hmax⟩ := createCbufferT_eq_some hcreate
  obtain ⟨c, touched, hrun⟩ := run_exists c₀ ops
  have hdoc₀ : c₀.Documented := ⟨by omega, by omega⟩
  apply hrun.always_iff_along ⟨hmax, hdoc₀, by simp⟩
  rintro c t op c' es - ⟨hcmax, hdoc, ht⟩ hstep
  rw [machine_step] at hstep
  obtain ⟨hmax', hiff⟩ := step_documented_iff hdoc (hcmax ▸ hbound) op
  rw [hstep] at hmax' hiff
  rw [← hiff]
  constructor
  · rintro ⟨_, hdoc', htes⟩
    exact ⟨hdoc', fun i hi => hcmax ▸ htes i (List.mem_append_right t hi)⟩
  · rintro ⟨hdoc', hes⟩
    refine ⟨hmax'.trans hcmax, hdoc', fun i hi => ?_⟩
    rcases List.mem_append.mp hi with hi | hi
    · exact ht i hi
    · exact hcmax ▸ hes i hi

/-- Two bytes in, two out, two in and one more: the last one lands behind the array. -/
theorem removal_at_edge_not_intact :
    ¬(machine (zeroed 2)).Always (Intact 2) [.insertItems (fun _ => 1) 2,
      .removeItems (fun _ => 0) 2, .insertItems (fun _ => 2) 2, .insert 3] := by
  intro hall
  obtain ⟨c, touched, hrun⟩ := run_exists (zeroed 2) [.insertItems (fun _ => 1) 2,
    .removeItems (fun _ => 0) 2, .insertItems (fun _ => 2) 2, .insert 3]
  have heval : ((machine (zeroed 2)).exec (zeroed 2) [.insertItems (fun _ => 1) 2,
      .removeItems (fun _ => 0) 2, .insertItems (fun _ => 2) 2, .insert 3]).map Prod.snd =
      some [0, 1, 0, 1, 0, 1, 2] := by
    decide +kernel
  have htouched : touched = [0, 1, 0, 1, 0, 1, 2] := by
    rw [show (machine (zeroed 2)).exec (zeroed 2) _ = some (c, touched) from hrun] at heval
    exact Option.some.inj heval
  have hlast := (hall _ (List.prefix_refl _) c touched hrun).2.2 2
  simp [htouched] at hlast

theorem intact_iff_no_removal_ends_at_edge_two :
    (machine (zeroed 3)).Always (Intact 3) [.insertItems (fun _ => 1) 3,
      .removeItems (fun _ => 0) 2, .insertItems (fun _ => 2) 2, .remove] :=
  (intact_iff_no_removal_ends_at_edge (by decide) (by decide)
    (rfl : createCbufferT true (some fun _ => (0 : UInt8)) 3 = some _) _).mpr (by decide +kernel)

end LinuxInternals.Cbuffer
