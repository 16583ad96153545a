import LinuxInternals.Lib.Separation

/-!
# The hash chains of `list.h`

A `struct hlist_head` is one pointer, and a `struct hlist_node` two: `next`, and `pprev`, which
points to the pointer that points to the node. So the memory is one of pointers: the address of a
node is that of its `next`, and the address of a head that of its `first`. `NULL` is `none`.
-/

namespace LinuxInternals.Hlist

open Separation

abbrev Addr := Nat

abbrev Memory := Mem Addr (Option Addr)

abbrev Code (ρ : Type) := Cmd Addr (Option Addr) ρ

def LIST_POISON1 : Option Addr := some 0x00100100

def LIST_POISON2 : Option Addr := some 0x00200200

/-- `&n->pprev`. -/
def pprev (n : Addr) : Addr := n + 8

/-- `INIT_HLIST_HEAD`. -/
def initHlistHead (ptr : Addr) : Code Unit := store ptr none

/-- `INIT_HLIST_NODE`. -/
def initHlistNode (ptr : Addr) : Code Unit := do
  store ptr none
  store (pprev ptr) none

def hlistUnhashed (h : Addr) : Code Bool := do
  let p ← load (pprev h)
  return p.isNone

def hlistEmpty (h : Addr) : Code Bool := do
  let first ← load h
  return first.isNone

/-- `*p = v`; nothing is at `NULL`. -/
def assign : Option Addr → Option Addr → Code Unit
  | none, _ => failure
  | some p, v => store p v

/-- `if (next) next->pprev = p`. -/
def relink : Option Addr → Option Addr → Code Unit
  | none, _ => pure ()
  | some next, p => store (pprev next) p

/-- `__hlist_del`. -/
def internalHlistDel (n : Addr) : Code Unit := do
  let next ← load n
  let p ← load (pprev n)
  assign p next
  relink next p

def hlistDel (n : Addr) : Code Unit := do
  internalHlistDel n
  store n LIST_POISON1
  store (pprev n) LIST_POISON2

def hlistDelInit (n : Addr) : Code Unit := do
  let p ← load (pprev n)
  if p.isSome then
    internalHlistDel n
    initHlistNode n

def hlistAddHead (n h : Addr) : Code Unit := do
  let first ← load h
  store n first
  relink first (some n)
  store h (some n)
  store (pprev n) (some h)

def hlistAddBefore (n next : Addr) : Code Unit := do
  store (pprev n) (← load (pprev next))
  store n (some next)
  store (pprev next) (some n)
  assign (← load (pprev n)) (some n)

/-- The new node is `next`. -/
def hlistAddAfter (n next : Addr) : Code Unit := do
  store next (← load n)
  store n (some next)
  store (pprev next) (some n)
  relink (← load next) (some next)

/-- The loop of `hlist_for_each` from `pos` on: the nodes that its body sees. `prefetch`, which the
header does not define, is taken to do nothing. -/
def forEach : Nat → Option Addr → Code (List Addr)
  | _, none => return []
  | 0, some _ => failure
  | fuel + 1, some pos => do
    let next ← load pos
    let rest ← forEach fuel next
    return pos :: rest

/-- `hlist_for_each`, for a body that does not write to the list. -/
def hlistForEach (fuel : Nat) (head : Addr) : Code (List Addr) := do
  forEach fuel (← load head)

/-- `hlist_for_each_entry_continue`. -/
def hlistForEachEntryContinue (fuel : Nat) (pos : Addr) : Code (List Addr) := do
  forEach fuel (← load pos)

/-- The loop of `hlist_for_each_safe`: `n` is read before the body runs. -/
def forEachSafe (body : Addr → Code Unit) : Nat → Option Addr → Code Unit
  | _, none => return ()
  | 0, some _ => failure
  | fuel + 1, some pos => do
    let n ← load pos
    body pos
    forEachSafe body fuel n

def hlistForEachSafe (body : Addr → Code Unit) (fuel : Nat) (head : Addr) : Code Unit := do
  forEachSafe body fuel (← load head)

/-- The body of a walk that deletes nodes. -/
def delete (victims : List Addr) (pos : Addr) : Code Unit :=
  if pos ∈ victims then hlistDel pos else return ()

end LinuxInternals.Hlist
