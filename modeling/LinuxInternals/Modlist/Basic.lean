import LinuxInternals.Lib.Linearizable
import LinuxInternals.Lib.Text

/-!
# The module `modlist`

A list of integers behind `/proc/modlist`. Writers spell commands, readers get the list as
text, and the spinlock `sp` guards each pass over the list. Parsing and copying happen
outside it.
-/

namespace LinuxInternals.Modlist

open Text Object

inductive Errno where
  | enospc
  | efault
  | einval
deriving DecidableEq, Repr

inductive Ret where
  | done (n : Nat)
  | error (e : Errno)
deriving DecidableEq, Repr

/-- The value of a system call, what it has copied to the user, and the offset after it. -/
structure Reply where
  ret : Ret
  out : List UInt8
  off : Nat
deriving DecidableEq, Repr

/-- `copied` says whether the copy from or to the user succeeds. -/
inductive Op where
  | read (off len : Nat) (copied : Bool)
  | write (off : Nat) (buf : List UInt8) (copied : Bool)
deriving DecidableEq, Repr

/-- The passes over the list. -/
inductive Job where
  | read
  | add (num : Int32)
  | remove (num : Int32)
  | cleanup
deriving DecidableEq, Repr

/-- A system call returns early, or comes to `spin_lock(&sp)`. -/
inductive Entry where
  | done (r : Reply)
  | lock (job : Job)
deriving DecidableEq, Repr

/-- `modlist_read` up to its `spin_lock`. -/
def modlistRead (off len : Nat) : Entry :=
  if 0 < off then .done ⟨.done 0, [], off⟩
  else if len < 1 then .done ⟨.error .enospc, [], off⟩
  else .lock .read

/-- `modlist_write` up to the `spin_lock` of the function it calls. `stack` is what
`modlistbuffer` held before. -/
def modlistWrite (off : Nat) (buf : List UInt8) (copied : Bool) (stack : List UInt8) : Entry :=
  if 0 < off then .done ⟨.done 0, [], off⟩
  else if 239 < buf.length then .done ⟨.error .enospc, [], off⟩
  else if !copied then .done ⟨.error .efault, [], off⟩
  else
    let modlistbuffer := buf ++ 0 :: stack.drop (buf.length + 1)
    match scanInt (cstring modlistbuffer) "add %i" with
    | some num => .lock (.add num)
    | none =>
      match scanInt (cstring modlistbuffer) "remove %i" with
      | some num => .lock (.remove num)
      | none =>
        if cstring modlistbuffer = bytes "cleanup\n" then .lock .cleanup
        else .done ⟨.done buf.length, [], off + buf.length⟩

/-- The loop of `modlist_read`; `modlistbuffer` is what the loop has printed so far. A line that
starts before the 239th byte is printed even where it does not fit. -/
def readLoop : List Int32 → List UInt8 → List UInt8
  | [], modlistbuffer => modlistbuffer
  | data :: mylist, modlistbuffer =>
    if 239 ≤ modlistbuffer.length then modlistbuffer
    else readLoop mylist (modlistbuffer ++ line data)

def modlistAdd (num : Int32) (mylist : List Int32) : List Int32 := mylist ++ [num]

/-- `list_for_each_safe` has the next node before the current one is deleted. -/
def modlistRemove (num : Int32) : List Int32 → List Int32
  | [] => []
  | data :: mylist =>
    if data = num then modlistRemove num mylist else data :: modlistRemove num mylist

def modlistCleanup : List Int32 → List Int32
  | [] => []
  | _ :: mylist => modlistCleanup mylist

/-- What runs with `sp` held: the list after it, and `modlistbuffer`. -/
def critical (mylist : List Int32) : Job → List Int32 × List UInt8
  | .read => (mylist, readLoop mylist [])
  | .add num => (modlistAdd num mylist, [])
  | .remove num => (modlistRemove num mylist, [])
  | .cleanup => (modlistCleanup mylist, [])

/-- What follows the `spin_unlock`. -/
def finish (modlistbuffer : List UInt8) : Op → Reply
  | .read off len copied =>
    if copied then ⟨.done modlistbuffer.length, modlistbuffer, off + len⟩
    else ⟨.error .einval, [], off⟩
  | .write off buf _ => ⟨.done buf.length, [], off + buf.length⟩

/-- Where a process is. -/
inductive Pc where
  | user
  | called (op : Op) (stack : List UInt8)
  | lock (op : Op) (job : Job)
  | unlock (op : Op) (modlistbuffer : List UInt8)
  | ret (r : Reply)
deriving DecidableEq, Repr

variable {ι : Type}

structure State (ι : Type) where
  mylist : List Int32
  sp : Option ι
  pc : ι → Pc

/-- `run` takes a process to its next spinlock operation, or back to the user. -/
inductive Act where
  | call (op : Op) (stack : List UInt8)
  | run
deriving DecidableEq, Repr

variable [DecidableEq ι]

def State.goto (s : State ι) (i : ι) (pc : Pc) : State ι :=
  { s with pc := Function.update s.pc i pc }

def enter (op : Op) (stack : List UInt8) : Entry :=
  match op with
  | .read off len _ => modlistRead off len
  | .write off buf copied => modlistWrite off buf copied stack

def step (s : State ι) (i : ι) (a : Act) : Option (State ι × List (Event Op Reply)) :=
  match s.pc i, a with
  | .user, .call op stack => some (s.goto i (.called op stack), [.invoked op])
  | .called op stack, .run =>
    match enter op stack with
    | .done r => some (s.goto i (.ret r), [])
    | .lock job => some (s.goto i (.lock op job), [])
  | .lock op job, .run =>
    if s.sp = none then
      let r := critical s.mylist job
      some ({ s.goto i (.unlock op r.2) with mylist := r.1, sp := some i }, [])
    else none
  | .unlock op modlistbuffer, .run =>
    some ({ s.goto i (.ret (finish modlistbuffer op)) with sp := none }, [])
  | .ret r, .run => some (s.goto i .user, [.returned r])
  | _, _ => none

/-- `init_modlist_module` has run. -/
def machine (ι : Type) [DecidableEq ι] :
    Machine (State ι) (ι × Act) (ι × Event Op Reply) where
  init := { mylist := [], sp := none, pc := fun _ => .user }
  step s ia := (step s ia.1 ia.2).map fun r => (r.1, r.2.map (Prod.mk ia.1))

/-! ### The object that the module implements -/

/-- What a text asks for. -/
inductive Command where
  | add (num : Int32)
  | remove (num : Int32)
  | cleanup
  | nothing
deriving DecidableEq, Repr

/-- The command that the bytes before the first zero byte spell. -/
def Command.ofText (text : List UInt8) : Command :=
  match scanInt (cstring text) "add %i", scanInt (cstring text) "remove %i" with
  | some num, _ => .add num
  | none, some num => .remove num
  | none, none => if cstring text = bytes "cleanup\n" then .cleanup else .nothing

def Command.run : Command → List Int32 → List Int32
  | .add num, l => l ++ [num]
  | .remove num, l => l.filter (· ≠ num)
  | .cleanup, _ => []
  | .nothing, l => l

/-- One number a line. -/
def rendering (l : List Int32) : List UInt8 := l.flatMap line

/-- A shared list of integers. What a read of more than 239 characters returns is left open. -/
def sharedList : Object (List Int32) Op Reply where
  init := []
  apply l op r :=
    match op with
    | .read off len copied =>
      if 0 < off then if r = ⟨.done 0, [], off⟩ then some l else none
      else if len < 1 then if r = ⟨.error .enospc, [], off⟩ then some l else none
      else if !copied then if r = ⟨.error .einval, [], off⟩ then some l else none
      else if 239 < (rendering l).length then some l
      else if r = ⟨.done (rendering l).length, rendering l, off + len⟩ then some l else none
    | .write off buf copied =>
      if 0 < off then if r = ⟨.done 0, [], off⟩ then some l else none
      else if 239 < buf.length then if r = ⟨.error .enospc, [], off⟩ then some l else none
      else if !copied then if r = ⟨.error .efault, [], off⟩ then some l else none
      else if r = ⟨.done buf.length, [], off + buf.length⟩ then
        some ((Command.ofText buf).run l)
      else none

end LinuxInternals.Modlist
