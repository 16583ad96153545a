import LinuxInternals.Prodcons.Calls
import LinuxInternals.Lib.Machine

/-!
# The buffer of pointers as a queue

Any sequence of calls for single items treats the buffer as a bounded queue, in which an item
that finds no room pushes the oldest one out. `size_cbuffer_t` returns an `int`: it does not
tell how many items there are when they are 2^31.
-/

namespace LinuxInternals

variable {α : Type*} {cap : Nat}

namespace BoundedQueue

def pop (q : BoundedQueue α cap) : BoundedQueue α cap :=
  ⟨q.items.tail, List.length_tail ▸ (Nat.sub_le _ _).trans q.fits⟩

end BoundedQueue

namespace Prodcons

open CData

inductive Op (α : Type*) where
  | insert (newItem : α)
  | remove
  | head
  | size
  | isFull
  | isEmpty

/-- What a call returns. The pointer `none` is `NULL`. -/
inductive Result (α : Type*) where
  | void
  | pointer (x : Option α)
  | int (n : Int)
  | test (b : Bool)
deriving DecidableEq

def call (c : Cbuffer α) : Op α → Cbuffer α × Result α
  | .insert newItem => ((c.insertCbufferT newItem).1, .void)
  | .remove => (c.removeCbufferT.1, .void)
  | .head => (c, .pointer (headCbufferT c))
  | .size => (c, .int c.sizeCbufferT)
  | .isFull => (c, .test c.isFullCbufferT)
  | .isEmpty => (c, .test c.isEmptyCbufferT)

def buffer (c₀ : Cbuffer α) : Machine (Cbuffer α) (Op α) (Result α) where
  init := c₀
  step c op := some ((call c op).1, [(call c op).2])

/-- What the calls are for. -/
def serve (q : BoundedQueue α cap) : Op α → BoundedQueue α cap × Result α
  | .insert x => (q.push [x], .void)
  | .remove => (q.pop, .void)
  | .head => (q, .pointer q.items.head?)
  | .size => (q, .int q.items.length)
  | .isFull => (q, .test (decide (q.items.length = cap)))
  | .isEmpty => (q, .test q.items.isEmpty)

def queue (α : Type*) (cap : Nat) : Machine (BoundedQueue α cap) (Op α) (Result α) where
  init := .empty
  step q op := some ((serve q op).1, [(serve q op).2])

/-- The number of items that is asked for does not fit an `int`. -/
def TooMany (q : BoundedQueue α cap) : Op α → Prop
  | .size => q.items.length = 2147483648
  | _ => False

variable {c : Cbuffer α} {q : BoundedQueue α cap}

theorem contents_insert (h : c.Documented) (hcap : c.maxSize = cap) (hbound : cap ≤ 2147483648)
    (hq : q.items = c.contents) (x : α) :
    (c.insertCbufferT x).1.contents = (q.push [x]).items := by
  have hsize : q.items.length = c.size := by rw [hq, Cbuffer.length_contents]
  have hle := h.size_le
  by_cases hfull : c.size = c.maxSize
  · have hexcess : (q.items ++ [x]).length - cap = 1 := by
      rw [List.length_append, List.length_singleton]
      omega
    have hne : q.items ≠ [] := by
      have hlt := h.head_lt
      rintro hnil
      rw [hnil, List.length_nil] at hsize
      omega
    rw [Cbuffer.contents_insert_of_full h (by omega) hfull, BoundedQueue.push]
    simp only
    rw [List.rtake, hexcess, List.drop_one, List.tail_append_of_ne_nil hne, hq]
  · rw [Cbuffer.contents_insert_of_lt h (by omega) (by omega), BoundedQueue.push_of_fits, hq]
    rw [List.length_singleton]
    omega

theorem int_size_iff (hbound : c.size ≤ 2147483648) :
    c.sizeCbufferT = c.size ↔ c.size ≠ 2147483648 := by
  rw [Cbuffer.sizeCbufferT]
  by_cases h : c.size = 2147483648
  · rw [h]
    refine iff_of_false ?_ (not_not.mpr rfl)
    rw [i32]
    decide
  · exact iff_of_true (i32_of_range (by omega) (by omega)) h

/-- A call keeps the buffer in step with the queue, and returns the same but for a size that
is too big. -/
theorem call_serve (h : c.Documented) (hcap : c.maxSize = cap) (hbound : cap ≤ 2147483648)
    (hq : q.items = c.contents) (op : Op α) :
    ((call c op).1.Documented ∧ (call c op).1.maxSize = cap ∧
      (serve q op).1.items = (call c op).1.contents) ∧
    ((call c op).2 = (serve q op).2 ↔ ¬TooMany q op) := by
  have hsize : q.items.length = c.size := by rw [hq, Cbuffer.length_contents]
  have hle := h.size_le
  cases op with
  | insert x =>
    obtain ⟨hmax, hdoc, -⟩ := Cbuffer.insertCbufferT_documented h (by omega) x
    exact ⟨⟨hdoc, hmax.trans hcap, (contents_insert h hcap hbound hq x).symm⟩,
      iff_of_true rfl id⟩
  | remove =>
    obtain ⟨hmax, hdoc, -⟩ := Cbuffer.removeCbufferT_documented h (by omega)
    refine ⟨⟨hdoc, hmax.trans hcap, ?_⟩, iff_of_true rfl id⟩
    exact (congrArg List.tail hq).trans (Cbuffer.contents_remove h (by omega)).symm
  | head =>
    refine ⟨⟨h, hcap, hq⟩, iff_of_true ?_ id⟩
    exact congrArg Result.pointer ((headCbufferT_eq h).trans (congrArg List.head? hq.symm))
  | size =>
    refine ⟨⟨h, hcap, hq⟩, ?_⟩
    simp only [call, serve, TooMany, Result.int.injEq, hsize]
    exact int_size_iff (by omega)
  | isFull =>
    refine ⟨⟨h, hcap, hq⟩, iff_of_true ?_ id⟩
    simp only [call, serve, Cbuffer.isFullCbufferT, hsize, hcap, beq_eq_decide]
  | isEmpty =>
    refine ⟨⟨h, hcap, hq⟩, iff_of_true ?_ id⟩
    simp only [call, serve, Cbuffer.isEmptyCbufferT, beq_eq_decide, ← hsize]
    cases q.items <;> rfl

/-- What the buffer holds after a run, and what it has returned. -/
theorem buffer_run {c₀ : Cbuffer α} (h₀ : c₀.Documented) (hcap : c₀.maxSize = cap)
    (hbound : cap ≤ 2147483648) (hnil : c₀.contents = []) {ops : List (Op α)}
    {results : List (Result α)} (hrun : (buffer c₀).Run ops c results) :
    c.Documented ∧ c.maxSize = cap ∧
      ∃ q rs, (queue α cap).Run ops q rs ∧ q.items = c.contents ∧
        rs.length = results.length ∧
        (results = rs ↔ (queue α cap).Along (fun q op => ¬TooMany q op) .empty ops) := by
  induction ops using List.reverseRecOn generalizing c results with
  | nil =>
    obtain ⟨rfl, rfl⟩ := Machine.run_nil.unique hrun
    exact ⟨h₀, hcap, .empty, [], Machine.run_nil, hnil.symm, rfl, iff_of_true rfl trivial⟩
  | append_singleton ops op ih =>
    obtain ⟨b, rs, r, hb, hop, rfl⟩ := Machine.run_snoc_iff.mp hrun
    obtain ⟨hdoc, hmax, q, rs', hq, hitems, hlen, hiff⟩ := ih hb
    obtain ⟨hkeep, hresult⟩ := call_serve hdoc hmax hbound hitems op
    have hcall : call b op = (c, (call b op).2) ∧ r = [(call b op).2] := by
      cases hop
      exact ⟨rfl, rfl⟩
    obtain ⟨heq, rfl⟩ := hcall
    rw [heq] at hkeep
    obtain ⟨hdoc', hmax', hitems'⟩ := hkeep
    refine ⟨hdoc', hmax', (serve q op).1, rs' ++ [(serve q op).2],
      Machine.run_snoc_iff.mpr ⟨q, rs', _, hq, rfl, rfl⟩, hitems', by simp [hlen], ?_⟩
    have hsnoc := Machine.along_snoc (C := fun q op => ¬TooMany q op) hq op
    refine Iff.trans ?_ (hsnoc.trans (and_congr hiff.symm hresult.symm)).symm
    constructor
    · intro h
      obtain ⟨hrs, hr⟩ := List.append_inj h hlen.symm
      exact ⟨hrs, List.singleton_inj.mp hr⟩
    · rintro ⟨rfl, hr⟩
      rw [hr]

/-- A buffer stays in its documented range and gives the answers of the queue exactly as long
as nobody asks for a size of 2^31. -/
theorem buffer_refines_queue_iff {cbuffer : Bool} {vector : Option (Nat → α)} {maxSize : Nat}
    {c₀ : Cbuffer α} (hpos : 1 ≤ maxSize) (hmax : maxSize ≤ 2147483648)
    (hcreate : Cbuffer.createCbufferT cbuffer vector maxSize = some c₀) {ops : List (Op α)}
    {results : List (Result α)} (hrun : (buffer c₀).Run ops c results) :
    (c.head < maxSize ∧ c.size ≤ maxSize ∧
      ∃ q, (queue α maxSize).Run ops q results ∧ q.items = c.contents) ↔
    (queue α maxSize).Along (fun q op => ¬TooMany q op) .empty ops := by
  obtain ⟨hdoc₀, hmax₀, hnil⟩ := Cbuffer.documented_of_create hpos hcreate
  obtain ⟨hdoc, hcap, q, rs, hq, hitems, -, hiff⟩ := buffer_run hdoc₀ hmax₀ hmax hnil hrun
  have hhead := hcap ▸ hdoc.head_lt
  have hsize := hcap ▸ hdoc.size_le
  rw [← hiff]
  constructor
  · rintro ⟨-, -, q', hq', -⟩
    exact (hq.unique hq').2
  · rintro rfl
    exact ⟨hhead, hsize, q, hq, hitems⟩

/-- Three items in a buffer for two. -/
theorem buffer_refines_queue_iff_three :
    ∃ c, (buffer (⟨fun _ => 0, 0, 0, 2⟩ : Cbuffer Nat)).Run
        [.insert 7, .insert 8, .insert 9, .head, .size] c
        [.void, .void, .void, .pointer (some 8), .int 2] ∧
      ∃ q, (queue Nat 2).Run [.insert 7, .insert 8, .insert 9, .head, .size] q
        [.void, .void, .void, .pointer (some 8), .int 2] ∧ q.items = c.contents := by
  have heval : ((buffer (⟨fun _ => 0, 0, 0, 2⟩ : Cbuffer Nat)).exec ⟨fun _ => 0, 0, 0, 2⟩
      [.insert 7, .insert 8, .insert 9, .head, .size]).map Prod.snd =
        some [.void, .void, .void, .pointer (some 8), .int 2] := by
    decide +kernel
  obtain ⟨c, results, hrun, rfl⟩ := Machine.exists_run_of_eval heval
  refine ⟨c, hrun, ((buffer_refines_queue_iff (by decide) (by decide)
    (rfl : Cbuffer.createCbufferT true (some fun _ => 0) 2 = some _) hrun).mpr ?_).2.2⟩
  simp [Machine.Along, TooMany, queue, serve, BoundedQueue.push, BoundedQueue.empty, List.rtake]

theorem queue_inserts (x : α) {n : Nat} (h : n ≤ cap) :
    ∃ q, (queue α cap).Run (List.replicate n (.insert x)) q (List.replicate n .void) ∧
      q.items.length = n := by
  induction n with
  | zero => exact ⟨.empty, Machine.run_nil, rfl⟩
  | succ n ih =>
    obtain ⟨q, hq, hlen⟩ := ih (by omega)
    refine ⟨q.push [x], ?_, ?_⟩
    · rw [List.replicate_succ', List.replicate_succ']
      exact Machine.run_snoc_iff.mpr ⟨q, _, _, hq, rfl, rfl⟩
    · rw [BoundedQueue.push_of_fits q [x] (by rw [List.length_singleton]; omega),
        List.length_append, hlen, List.length_singleton]

/-- `size_cbuffer_t` of a buffer with 2^31 items is no size. -/
theorem full_buffer_not_queue :
    ∃ c₀ c results, Cbuffer.createCbufferT true (some fun _ => (0 : Int32)) 2147483648 = some c₀ ∧
      (buffer c₀).Run (List.replicate 2147483648 (.insert 0) ++ [.size]) c results ∧
      ¬∃ q, (queue Int32 2147483648).Run (List.replicate 2147483648 (.insert 0) ++ [.size]) q
        results := by
  obtain ⟨c, results, hrun⟩ := Machine.exists_run_of_total
    (M := buffer (⟨fun _ => 0, 0, 0, 2147483648⟩ : Cbuffer Int32)) (fun _ _ => ⟨_, _, rfl⟩)
    (List.replicate 2147483648 (.insert 0) ++ [.size])
  refine ⟨_, c, results, rfl, hrun, ?_⟩
  rintro ⟨q, hq⟩
  obtain ⟨hdoc₀, hmax₀, hnil⟩ := Cbuffer.documented_of_create (by decide)
    (rfl : Cbuffer.createCbufferT true (some fun _ => (0 : Int32)) 2147483648 = some _)
  obtain ⟨-, -, q', rs, hq', -, -, hiff⟩ := buffer_run hdoc₀ hmax₀ (le_refl _) hnil hrun
  obtain ⟨p, hp, hlen⟩ := queue_inserts (0 : Int32) (le_refl 2147483648)
  have halong := hiff.mp (hq'.unique hq).2
  exact ((Machine.along_snoc hp .size).mp halong).2 hlen

end Prodcons

end LinuxInternals
