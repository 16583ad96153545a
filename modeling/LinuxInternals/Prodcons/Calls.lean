import LinuxInternals.Cbuffer.Single
import LinuxInternals.Lib.Text

/-!
# The calls of `/proc/prodcons`

What the two versions of the producer/consumer module have in common: the checks of a
write before it first blocks, and the end of a read after it has taken its item. An item
is a freshly allocated `int` that nobody writes again, and stands here for its value. A
call is given the offset of its file; its result has the offset afterwards.
-/

namespace LinuxInternals.Prodcons

open Text

inductive Errno where
  | eintr
  | enospc
  | efault
  | einval
deriving DecidableEq, Repr

inductive Ret where
  | done (n : Nat)
  | error (e : Errno)
deriving DecidableEq, Repr

inductive Call where
  | write (off : Nat) (buf : List UInt8)
  | read (off len : Nat)
deriving DecidableEq, Repr

/-- `out` is what `copy_to_user` has stored, `off` the offset of the file afterwards. -/
inductive Event where
  | alloc (item : Int32)
  | free (item : Int32)
  | insert (item : Int32)
  | remove (item : Int32)
  | wrote (v : Ret) (off : Nat)
  | read (v : Ret) (out : List UInt8) (off : Nat)
deriving DecidableEq, Repr

/-- `prodcons_write` up to its first semaphore: the return value, or the item to insert.
`kbuf` has eleven bytes. -/
def writeEntry (off : Nat) (buf : List UInt8) (copied : Bool) : Ret × Nat ⊕ Int32 :=
  if 0 < off then .inl (.done 0, off)
  else if 10 < buf.length then .inl (.error .enospc, off)
  else if !copied then .inl (.error .efault, off)
  else
    match sscanf (cstring (buf ++ [0])) "%i" with
    | [.int val] => .inr val
    | _ => .inl (.error .einval, off + buf.length)

/-- `prodcons_read` behind its last semaphore. -/
def readTail (off len : Nat) (item : Int32) (copied : Bool) : List Event :=
  let kbuff := line item
  .free item ::
    if len < kbuff.length then [.read (.error .enospc) [] off]
    else if !copied then [.read (.error .einval) [] off]
    else [.read (.done kbuff.length) kbuff (off + kbuff.length)]

/-- `head_cbuffer_t` of a buffer of pointers; `none` is `NULL`. -/
def headCbufferT {α : Type*} (c : Cbuffer α) : Option α :=
  if c.size ≠ 0 then some (c.data c.head) else none

theorem headCbufferT_eq {α : Type*} {c : Cbuffer α} (h : c.Documented) :
    headCbufferT c = c.contents.head? := by
  rw [headCbufferT]
  cases hcons : c.contents with
  | nil =>
    have hlen := congrArg List.length hcons
    rw [Cbuffer.length_contents, List.length_nil] at hlen
    rw [if_neg (not_not.mpr hlen), List.head?_nil]
  | cons x xs =>
    have hlen := congrArg List.length hcons
    rw [Cbuffer.length_contents, List.length_cons] at hlen
    rw [if_pos (by omega), Cbuffer.data_head h hcons, List.head?_cons]

/-- The buffer that either module starts with; `vector` is what `vmalloc` left in it. -/
def cbuf (vector : Nat → Int32) : Cbuffer Int32 :=
  (Cbuffer.createCbufferT true (some vector) 5).get rfl

theorem cbuf_documented (vector : Nat → Int32) :
    (cbuf vector).Documented ∧ (cbuf vector).maxSize = 5 ∧ (cbuf vector).contents = [] :=
  Cbuffer.documented_of_create (by decide)
    (rfl : Cbuffer.createCbufferT true (some vector) 5 = some _)

def inserted : Event → List Int32
  | .insert item => [item]
  | _ => []

def removed : Event → List Int32
  | .remove item => [item]
  | _ => []

theorem removed_readTail (off len : Nat) (item : Int32) (copied : Bool) :
    (readTail off len item copied).flatMap removed = [] ∧
      (readTail off len item copied).flatMap inserted = [] := by
  rw [readTail]
  split
  · exact ⟨rfl, rfl⟩
  · split <;> exact ⟨rfl, rfl⟩

end LinuxInternals.Prodcons
