import LinuxInternals.ListHead.Items
import LinuxInternals.Modlist1.Basic

/-!
# The memory of the first module `modlist`

`Pr1/modlist.c` down to its pointers: the items of the list, which `vmalloc` gives and `vfree`
takes back, and the buffers of 1024 bytes. A store or a load outside of what is allocated, also
through a null pointer, has no outcome.
-/

namespace LinuxInternals.Modlist1

open Text ListHead
open Modlist (Errno Ret Reply)

abbrev BUFFER_LENGTH : Nat := 1024

/-- `buffers` counts the buffers that are allocated. -/
structure Memory where
  items : Items Int32
  buffers : Nat

/-- `vmalloc` says whether there is a buffer, for a write with what is in memory from it on;
`nodo` is the slot for a new item. -/
inductive Call where
  | read (off len : Nat) (copied vmalloc : Bool)
  | write (off : Nat) (buf : List UInt8) (copied : Bool) (vmalloc : Option (List UInt8))
    (nodo : Option (Slot Int32))
deriving DecidableEq, Repr

namespace Pointers

/-- `modlist_add`; it does not look whether it has got a slot. -/
def modlistAdd (mylist : Addr) (nodo : Option (Slot Int32)) (num : Int32) (m : Items Int32) :
    Option (Items Int32) := do
  let nodo ← nodo
  let m ← (m.vmalloc nodo.item nodo.links nodo.data).setData nodo.item num
  m.listAddTail nodo.item mylist

def modlistRemove (fuel : Nat) (mylist : Addr) (num : Int32) (m : Items Int32) :
    Option (Items Int32) :=
  listForEachSafe Items.links (fun cur_node m => do
    let data ← m.data cur_node
    if data = num then
      let m ← m.listDel cur_node
      m.vfree cur_node
    else some m) mylist fuel m

def modlistCleanup (fuel : Nat) (mylist : Addr) (m : Items Int32) : Option (Items Int32) :=
  listForEachSafe Items.links (fun cur_node m => do
    let m ← m.listDel cur_node
    m.vfree cur_node) mylist fuel m

/-- The body of the loop of `modlist_read`, over the nodes that it sees. -/
def printItems (vmalloc : Bool) (m : Items Int32) : List Addr → List UInt8 → Option (List UInt8)
  | [], modlistbuffer => some modlistbuffer
  | cur_node :: rest, modlistbuffer => do
    let data ← m.data cur_node
    -- `sprintf` stores a terminator behind the line
    if !vmalloc || BUFFER_LENGTH < modlistbuffer.length + (line data).length + 1 then none
    else printItems vmalloc m rest (modlistbuffer ++ line data)

def modlistRead (fuel : Nat) (mylist : Addr) (off len : Nat) (copied vmalloc : Bool)
    (m : Memory) : Option (Memory × Reply) :=
  let held : Memory := { m with buffers := m.buffers + vmalloc.toNat }
  if 0 < off then some (held, ⟨.done 0, [], off⟩)
  else if len < 1 then some (held, ⟨.error .enospc, [], off⟩)
  else do
    let nodes ← listForEach fuel mylist m.items.links
    let modlistbuffer ← printItems vmalloc m.items nodes []
    if !copied then some (held, ⟨.error .einval, [], off⟩)
    else some ({ held with buffers := held.buffers - vmalloc.toNat },
      ⟨.done modlistbuffer.length, modlistbuffer, off + len⟩)

def obey (fuel : Nat) (mylist : Addr) (nodo : Option (Slot Int32)) (modlistbuffer : List UInt8)
    (m : Items Int32) : Option (Items Int32) :=
  match scanInt modlistbuffer "add %i" with
  | some num => modlistAdd mylist nodo num m
  | none =>
    match scanInt modlistbuffer "remove %i" with
    | some num => modlistRemove fuel mylist num m
    | none =>
      if modlistbuffer = bytes "cleanup\n" then modlistCleanup fuel mylist m
      else some m

def modlistWrite (fuel : Nat) (mylist : Addr) (off : Nat) (buf : List UInt8) (copied : Bool)
    (vmalloc : Option (List UInt8)) (nodo : Option (Slot Int32)) (m : Memory) :
    Option (Memory × Reply) :=
  let held : Memory := { m with buffers := m.buffers + vmalloc.isSome.toNat }
  if 0 < off then some (held, ⟨.done 0, [], off⟩)
  else if BUFFER_LENGTH - 1 < buf.length then some (held, ⟨.error .enospc, [], off⟩)
  else do
    let mem ← vmalloc
    if !copied then some (held, ⟨.error .efault, [], off⟩)
    else
      let modlistbuffer := cstring (buf ++ mem.drop buf.length)
      let items ← obey fuel mylist nodo modlistbuffer m.items
      some (⟨items, held.buffers - 1⟩, ⟨.done buf.length, [], off + buf.length⟩)

end Pointers

/-- `init_modlist_module` up to `proc_create`: the head, which is static, and no items. The list
that it has just made is always empty. -/
def initModlistModule (mylist : Addr) : Option (Memory × Bool) := do
  let links ← initListHead mylist (Function.update (fun _ => none) mylist (some ⟨0, 0⟩))
  let empty ← listEmpty mylist links
  return (⟨⟨links, fun _ => none⟩, 0⟩, empty)

/-- The memory that `init_modlist_module` leaves. -/
def loaded (mylist : Addr) : Memory := ⟨Items.onlyHead mylist, 0⟩

def Call.run (fuel : Nat) (mylist : Addr) (m : Memory) : Call → Option (Memory × Reply)
  | .read off len copied vmalloc => Pointers.modlistRead fuel mylist off len copied vmalloc m
  | .write off buf copied vmalloc nodo =>
    Pointers.modlistWrite fuel mylist off buf copied vmalloc nodo m

/-- The module from its load on. The loops are given `fuel` turns. -/
def machine (fuel : Nat) (mylist : Addr) : Machine Memory Call Reply where
  init := loaded mylist
  step m call := (call.run fuel mylist m).map fun r => (r.1, [r.2])

/-- `vmalloc` returns memory that is not in use. -/
def Fresh (m : Memory) : Call → Prop
  | .write _ _ _ _ (some nodo) => m.items.links nodo.item = none ∧ m.items.data nodo.item = none
  | _ => True

instance (m : Memory) (call : Call) : Decidable (Fresh m call) :=
  match call with
  | .read .. => isTrue trivial
  | .write _ _ _ _ none => isTrue trivial
  | .write _ _ _ _ (some nodo) =>
    inferInstanceAs (Decidable (m.items.links nodo.item = none ∧ m.items.data nodo.item = none))

end LinuxInternals.Modlist1
