import LinuxInternals.Lib.Links

/-!
# The lists of `list.h`

A `struct list_head` is a node with two pointers, and a list is a node that serves as its head.
Each function is a sequence of loads and stores, in the order of the source; a load or a store
at an address that is not allocated has no outcome.
-/

namespace LinuxInternals.ListHead

abbrev Addr := Nat

def LIST_POISON1 : Addr := 0x00100100

def LIST_POISON2 : Addr := 0x00200200

/-- The memory of the `struct list_head`s. -/
abbrev Heap := Links Addr

open Links

/-- `INIT_LIST_HEAD`. -/
def initListHead (ptr : Addr) (m : Heap) : Option Heap := do
  let m ← m.setNext ptr ptr
  m.setPrev ptr ptr

/-- `__list_add`. -/
def internalListAdd (new prev next : Addr) (m : Heap) : Option Heap := do
  let m ← m.setPrev next new
  let m ← m.setNext new next
  let m ← m.setPrev new prev
  m.setNext prev new

def listAdd (new head : Addr) (m : Heap) : Option Heap := do
  let next ← m.next head
  internalListAdd new head next m

def listAddTail (new head : Addr) (m : Heap) : Option Heap := do
  let prev ← m.prev head
  internalListAdd new prev head m

/-- `__list_del`. -/
def internalListDel (prev next : Addr) (m : Heap) : Option Heap := do
  let m ← m.setPrev next prev
  m.setNext prev next

/-- What `list_del`, `list_del_init`, `list_move` and `list_move_tail` start with. -/
def unlink (entry : Addr) (m : Heap) : Option Heap := do
  let prev ← m.prev entry
  let next ← m.next entry
  internalListDel prev next m

def listDel (entry : Addr) (m : Heap) : Option Heap := do
  let m ← unlink entry m
  let m ← m.setNext entry LIST_POISON1
  m.setPrev entry LIST_POISON2

def listDelInit (entry : Addr) (m : Heap) : Option Heap := do
  let m ← unlink entry m
  initListHead entry m

def listMove (list head : Addr) (m : Heap) : Option Heap := do
  let m ← unlink list m
  listAdd list head m

def listMoveTail (list head : Addr) (m : Heap) : Option Heap := do
  let m ← unlink list m
  listAddTail list head m

def listEmpty (head : Addr) (m : Heap) : Option Bool := do
  let next ← m.next head
  return next = head

/-- `__list_splice`. -/
def internalListSplice (list head : Addr) (m : Heap) : Option Heap := do
  let first ← m.next list
  let last ← m.prev list
  let at_ ← m.next head
  let m ← m.setPrev first head
  let m ← m.setNext head first
  let m ← m.setNext last at_
  m.setPrev at_ last

def listSplice (list head : Addr) (m : Heap) : Option Heap := do
  if !(← listEmpty list m) then internalListSplice list head m
  else return m

def listSpliceInit (list head : Addr) (m : Heap) : Option Heap := do
  if !(← listEmpty list m) then
    let m ← internalListSplice list head m
    initListHead list m
  else return m

/-- The loop of `list_for_each` from `pos` on: the nodes that its body sees. -/
def forEach (head : Addr) (m : Heap) : Nat → Addr → Option (List Addr)
  | 0, _ => none
  | fuel + 1, pos =>
    if pos = head then some []
    else do
      let next ← m.next pos
      let rest ← forEach head m fuel next
      return pos :: rest

/-- `list_for_each`, for a body that does not write to the list. -/
def listForEach (fuel : Nat) (head : Addr) (m : Heap) : Option (List Addr) := do
  forEach head m fuel (← m.next head)

/-- The loop of `list_for_each_entry_reverse`. -/
def forEachReverse (head : Addr) (m : Heap) : Nat → Addr → Option (List Addr)
  | 0, _ => none
  | fuel + 1, pos =>
    if pos = head then some []
    else do
      let prev ← m.prev pos
      let rest ← forEachReverse head m fuel prev
      return pos :: rest

/-- `list_for_each_entry_reverse`. -/
def listForEachEntryReverse (fuel : Nat) (head : Addr) (m : Heap) : Option (List Addr) := do
  forEachReverse head m fuel (← m.prev head)

section Safe

variable {σ : Type} (links : σ → Heap) (body : Addr → σ → Option σ) (head : Addr)

/-- The loop of `list_for_each_safe`: `n` has been read before the body runs. -/
def forEachSafe : Nat → Addr → Addr → σ → Option σ
  | 0, _, _, _ => none
  | fuel + 1, pos, n, s =>
    if pos = head then some s
    else do
      let s ← body pos s
      let next ← (links s).next n
      forEachSafe fuel n next s

def listForEachSafe (fuel : Nat) (s : σ) : Option σ := do
  let pos ← (links s).next head
  let n ← (links s).next pos
  forEachSafe links body head fuel pos n s

end Safe

/-- The body of a walk that deletes nodes. -/
def delete (victims : List Addr) (pos : Addr) (m : Heap) : Option Heap :=
  if pos ∈ victims then listDel pos m else some m

end LinuxInternals.ListHead
