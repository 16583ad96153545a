import LinuxInternals.Lib.RingBuf
import LinuxInternals.Lib.Stream

/-!
# The circular buffer `cbuffer_t`

The operations of `cbuffer.c`, for any element type. `unsigned int` fields are
naturals below 2^32 and every arithmetic step of the code is reduced to the C type
it has there. Next to its result an operation returns the indices of the elements
of `data` that it reads or writes.
-/

namespace LinuxInternals

open CData RingBuf

/-- `cbuffer_t`. -/
structure Cbuffer (α : Type*) where
  data : Nat → α
  head : Nat
  size : Nat
  maxSize : Nat

namespace Cbuffer

variable {α : Type*}

/-- `cbuffer` and `vector` say what the two calls of `vmalloc` return; the contents of
fresh memory are arbitrary. -/
def createCbufferT (cbuffer : Bool) (vector : Option (Nat → α)) (maxSize : Nat) :
    Option (Cbuffer α) :=
  if cbuffer then
    match vector with
    | none => none
    | some data => some { data, head := 0, size := 0, maxSize }
  else none

def sizeCbufferT (c : Cbuffer α) : Int := i32 c.size

def nrGapsCbufferT (c : Cbuffer α) : Int := i32 (usub c.maxSize c.size)

def isFullCbufferT (c : Cbuffer α) : Bool := c.size == c.maxSize

def isEmptyCbufferT (c : Cbuffer α) : Bool := c.size == 0

def insertCbufferT (c : Cbuffer α) (newItem : α) : Cbuffer α × List Nat :=
  if c.size = c.maxSize then
    ({ c with
        data := Function.update c.data c.head newItem
        head := if c.size ≠ 0 then uadd c.head 1 % c.maxSize else c.head }, [c.head])
  else
    let pos := if c.maxSize ≠ 0 then uadd c.head c.size % c.maxSize else 0
    ({ c with data := Function.update c.data pos newItem, size := uadd c.size 1 }, [pos])

def insertItemsCbufferT (c : Cbuffer α) (items : Nat → α) (nrItems : Int32) :
    Cbuffer α × List Nat :=
  let n := nrItems.toInt
  let nrGaps := i32 (usub c.maxSize c.size)
  let whead := i32 (uadd c.head c.size % c.maxSize : Nat)
  if c.maxSize < u32 n then (c, [])
  else
    -- the items do not fit between whead and the end of the array
    let wraps := c.maxSize < u32 (i32 (whead + n))
    let itemsCopied := if wraps then i32 (usub c.maxSize (u32 whead)) else 0
    let data₁ := if wraps then memcpy c.data (u64 whead) items 0 (u64 itemsCopied) else c.data
    let itemsLeft := if wraps then i32 (n - itemsCopied) else n
    let whead₁ := if wraps then 0 else whead
    let data₂ := if itemsLeft ≠ 0 then
        memcpy data₁ (u64 whead₁) items (u64 itemsCopied) (u64 itemsLeft)
      else data₁
    let touched :=
      (if wraps then List.range' (u64 whead) (u64 itemsCopied) else []) ++
        (if itemsLeft ≠ 0 then List.range' (u64 whead₁) (u64 itemsLeft) else [])
    if n ≤ nrGaps then ({ c with data := data₂, size := uadd c.size (u32 n) }, touched)
    else
      -- head moves in the event we overwrite stuff
      ({ c with
          data := data₂
          size := c.maxSize
          head := uadd c.head (u32 (i32 (n - nrGaps))) % c.maxSize }, touched)

/-- The second component is the memory at `items` afterwards. -/
def removeItemsCbufferT (c : Cbuffer α) (items : Nat → α) (nrItems : Int32) :
    Cbuffer α × (Nat → α) × List Nat :=
  let n := nrItems.toInt
  if c.size < u32 n then (c, items, [])
  else
    let wraps := c.maxSize < uadd c.head (u32 n)
    let itemsCopied := if wraps then i32 (usub c.maxSize c.head) else 0
    let items₁ := if wraps then memcpy items 0 c.data c.head (u64 itemsCopied) else items
    let itemsLeft := if wraps then i32 (n - itemsCopied) else n
    let head₁ := if wraps then 0 else c.head
    let items₂ := if itemsLeft ≠ 0 then
        memcpy items₁ (u64 itemsCopied) c.data head₁ (u64 itemsLeft)
      else items₁
    let head₂ := if itemsLeft ≠ 0 then uadd head₁ (u32 itemsLeft) else head₁
    let touched :=
      (if wraps then List.range' c.head (u64 itemsCopied) else []) ++
        (if itemsLeft ≠ 0 then List.range' head₁ (u64 itemsLeft) else [])
    ({ c with head := head₂, size := usub c.size (u32 n) }, items₂, touched)

/-- `none` stands for the `'\0'` that an empty buffer gives. -/
def removeCbufferT (c : Cbuffer α) : Cbuffer α × Option α × List Nat :=
  if c.size ≠ 0 then
    ({ c with head := uadd c.head 1 % c.maxSize, size := usub c.size 1 },
      some (c.data c.head), [c.head])
  else (c, none, [])

def clearCbufferT (c : Cbuffer α) : Cbuffer α := { c with size := 0, head := 0 }

/-- The index of the element pointed to; `none` is `NULL`. -/
def headCbufferT (c : Cbuffer α) : Option Nat :=
  if c.size ≠ 0 then some c.head else none

def contents (c : Cbuffer α) : List α := ring c.data c.head c.size c.maxSize

@[simp] theorem length_contents (c : Cbuffer α) : c.contents.length = c.size := length_ring ..

end Cbuffer

end LinuxInternals
