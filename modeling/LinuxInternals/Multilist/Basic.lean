import LinuxInternals.Lib.Lifetime
import LinuxInternals.Modlist.Basic

/-!
# The module `multilist`

Lists of integers behind `/proc/multilist`. A write to `control` creates or removes an entry;
an entry is read and written like `/proc/modlist`. The spinlock `sp_lists` guards the list of
the entries, and each entry has a spinlock `sp` of its own. A process runs from one operation on
a lock, or one call of the kernel's `/proc` code, to the next.
-/

namespace LinuxInternals.Multilist

open Text Lifetime
open Modlist (Command)

inductive Errno where
  | enospc
  | efault
  | enoent
deriving DecidableEq, Repr

inductive Ret where
  | done (n : Nat)
  | error (e : Errno)
deriving DecidableEq, Repr

/-- The value of a system call, what it has copied to the user, and the offset after it. -/
structure Reply where
  ret : Ret
  out : List UInt8
  off : Nat
deriving DecidableEq, Repr

/-- The offset and the length that a write was called with. -/
structure Write where
  off : Nat
  len : Nat
deriving DecidableEq, Repr

def Write.done (w : Write) : Reply := ⟨.done w.len, [], w.off + w.len⟩

/-- A system call is refused, or goes on with what it has read. -/
inductive Entry (α : Type) where
  | refused (r : Reply)
  | parsed (c : α)
deriving DecidableEq, Repr

/-! ### What a write asks for -/

/-- The places in `name` that `sscanf` stores to. -/
def nameStores (name : List UInt8) : List Nat := List.range name.length ++ [name.length]

inductive ControlCommand where
  | create (name : List UInt8)
  | remove (name : List UInt8)
  | nothing
deriving DecidableEq, Repr

/-- `control_write` up to the function that it calls. The text that it parses is what
`modlistbuffer` held before. -/
def controlWrite (off : Nat) (buf : List UInt8) (copied : Bool) (modlistbuffer : List UInt8) :
    Entry ControlCommand :=
  if 0 < off then .refused ⟨.done 0, [], off⟩
  else if 239 < buf.length then .refused ⟨.error .enospc, [], off⟩
  else if !copied then .refused ⟨.error .efault, [], off⟩
  else
    match scanStr (cstring modlistbuffer) "create %s" with
    | some name => .parsed (.create name)
    | none =>
      match scanStr (cstring modlistbuffer) "remove %s" with
      | some name => .parsed (.remove name)
      | none => .parsed .nothing

/-- `modlist_write` up to the `spin_lock`, and the places in `aux_buffer` that it writes. The text
that it parses is what `modlistbuffer` held before. -/
def modlistWrite (off : Nat) (buf : List UInt8) (copied : Bool) (modlistbuffer : List UInt8) :
    Entry Command × List Nat :=
  if 0 < off then (.refused ⟨.done 0, [], off⟩, [])
  else if !copied then (.refused ⟨.error .efault, [], off⟩, List.range buf.length)
  else
    let command :=
      match scanInt (cstring modlistbuffer) "add %i" with
      | some num => .add num
      | none =>
        match scanInt (cstring modlistbuffer) "remove %i" with
        | some num => .remove num
        | none => if cstring modlistbuffer = bytes "cleanup\n" then .cleanup else .nothing
    (.parsed command, List.range buf.length ++ [buf.length])

/-! ### The data -/

abbrev Addr := Nat

/-- What the module gets from `vmalloc`: an `entry_list_node_t` or a `list_item_t`. -/
inductive Obj where
  | node (a : Addr)
  | item (x : Addr)
deriving DecidableEq, Repr

/-- What a step does to an object; `remove` is the call of `control_remove` on a node. -/
abbrev Event := Obj × Use

def touches (os : List Obj) : List Event := os.map fun o => (o, .touch)

/-- `strncpy(_, src, n)`: the `n` bytes of the array after it. -/
def strncpy (src : List UInt8) (n : Nat) : List UInt8 :=
  src.take n ++ List.replicate (n - src.length) 0

/-- An `entry_list_node_t`. `name` is the array. -/
structure Node (ι : Type) where
  list : List (Addr × Int32)
  sp : Option ι
  name : List UInt8
  markedForRemoval : Bool

/-- The string at `name`. Without a terminator in the array it goes on in the integer
`marked_for_removal` behind it. -/
def Node.nameString {ι : Type} (n : Node ι) : List UInt8 :=
  cstring (n.name ++ [if n.markedForRemoval then 1 else 0, 0, 0, 0])

/-- The passes over the list of an entry. `add` has its item already. -/
inductive Job where
  | add (x : Addr) (num : Int32)
  | remove (num : Int32)
  | cleanup
deriving DecidableEq, Repr

/-- `list_for_each_entry_safe` with `list_del` and `vfree` on the items that `del` picks: what is
left of the list, and what happens to the objects. `prev` is the object before the rest of the
list. -/
def deleteLoop (del : Int32 → Bool) (head prev : Obj) :
    List (Addr × Int32) → List (Addr × Int32) × List Event
  | [] => ([], [])
  | (x, data) :: list =>
    if del data then
      let next := (list.head?.map fun y => Obj.item y.1).getD head
      let r := deleteLoop del head prev list
      (r.1, touches [.item x, prev, next] ++ (.item x, .unlink) :: (.item x, .free) :: r.2)
    else
      let r := deleteLoop del head (.item x) list
      ((x, data) :: r.1, (.item x, .touch) :: r.2)

def Job.run (a : Addr) (list : List (Addr × Int32)) : Job → List (Addr × Int32) × List Event
  | .add x num =>
    (list ++ [(x, num)], touches ((list.getLast?.map fun y => .item y.1).toList ++ [.item x]))
  | .remove num => deleteLoop (· == num) (.node a) (.node a) list
  | .cleanup => deleteLoop (fun _ => true) (.node a) (.node a) list

structure Read where
  off : Nat
  len : Nat
  /-- The item whose `copy_to_user` fails, if one does. -/
  fault : Option Nat
deriving DecidableEq, Repr

/-- The loop of `modlist_read`: whether no copy has failed, the text that the user has got, and the
items that the loop has come to. -/
def readLoop (len : Nat) :
    Option Nat → List (Addr × Int32) → List UInt8 → Bool × List UInt8 × List Addr
  | _, [], out => (true, out, [])
  | fault, (x, data) :: list, out =>
    if len - out.length < (line data).length then (true, out, [x])
    else if fault = some 0 then (false, out, [x])
    else
      let r := readLoop len (fault.map Nat.pred) list (out ++ line data)
      (r.1, r.2.1, x :: r.2.2)

/-- What `modlist_read` returns after its loop. -/
def Read.reply (q : Read) (r : Bool × List UInt8 × List Addr) : Reply :=
  if r.1 then ⟨.done r.2.1.length, r.2.1, q.off + r.2.1.length⟩
  else ⟨.error .efault, r.2.1, q.off⟩

def prevOf (a : Addr) (l : List Addr) : Option Addr := (l.takeWhile (· != a)).getLast?

def nextOf (a : Addr) (l : List Addr) : Option Addr := (l.dropWhile (· != a)).tail.head?

/-! ### Processes -/

inductive CreatePc where
  | vmalloc (name : List UInt8)
  | procCreateData (name : List UInt8) (a : Addr)
  | lockFailed (a : Addr)
  | lockAdd (a : Addr)
  | unlock
deriving DecidableEq, Repr

/-- `control_write` after "remove", up to `control_remove`. -/
inductive MarkPc where
  | lockLists (name : List UInt8)
  | unlockNotFound
  | lock (a : Addr)
  | unlockMarked (a : Addr)
  | unlockListsMarked
  | unlock (a : Addr)
  | unlockLists (a : Addr)
deriving DecidableEq, Repr

/-- `wait b` is inside `remove_proc_entry`, which waits for the handlers of the entry of `b`. -/
inductive RemovePc where
  | removeProcEntry
  | wait (b : Addr)
  | lockLists
  | unlockLists
  | lock
  | unlock
  | vfree
deriving DecidableEq, Repr

inductive ExitPc where
  | removeProcEntry
  | wait
  | next (pos : Option Addr)
deriving DecidableEq, Repr

inductive ReadPc where
  | lockLists
  | lock
  | unlock (r : Reply)
  | unlockLists (r : Reply)
deriving DecidableEq, Repr

inductive WritePc where
  | vmalloc (num : Int32)
  | lock (job : Job)
  | unlock
deriving DecidableEq, Repr

/-- Who has called `control_remove`: `control_write`, or the loop of `exit_modlist_module` with the
next entry. -/
inductive Caller where
  | control (w : Write)
  | exit (tmp : Option Addr)
deriving DecidableEq, Repr

inductive Handler where
  | control
  | entry (a : Addr)
deriving DecidableEq, Repr

inductive Pc where
  | user
  | create (w : Write) (c : CreatePc)
  | mark (w : Write) (c : MarkPc)
  | remove (k : Caller) (a : Addr) (c : RemovePc)
  | exit (c : ExitPc)
  | read (a : Addr) (q : Read) (c : ReadPc)
  | write (a : Addr) (w : Write) (c : WritePc)
  | ret (h : Handler) (r : Reply)
deriving DecidableEq, Repr

def Caller.controls : Caller → Bool
  | .control _ => true
  | .exit _ => false

def Handler.controls : Handler → Bool
  | .control => true
  | .entry _ => false

/-- `control_write` is running. -/
def Pc.controls : Pc → Bool
  | .create _ _ | .mark _ _ => true
  | .remove k _ _ => k.controls
  | .ret h _ => h.controls
  | _ => false

/-- The entry on which a handler is running. -/
def Pc.handles : Pc → Option Addr
  | .read a _ _ | .write a _ _ | .ret (.entry a) _ => some a
  | _ => none

/-- The system calls, and `rmmod`. `stack` is what the handler's buffer held before. -/
inductive Call where
  | control (off : Nat) (buf : List UInt8) (copied : Bool) (stack : List UInt8)
  | read (a : Addr) (q : Read)
  | write (a : Addr) (off : Nat) (buf : List UInt8) (copied : Bool) (stack : List UInt8)
  | exit
deriving DecidableEq, Repr

/-- `null` is a `proc_create_data` that returns `NULL` although the name is free. -/
inductive Act where
  | call (c : Call)
  | run
  | null
deriving DecidableEq, Repr

/-- `lists` is `list_of_proc_lists`, `procs` what is registered under `/proc/multilist` apart from
`control`. -/
structure State (ι : Type) where
  node : Addr → Node ι
  nextNode : Addr
  nextItem : Addr
  lists : List Addr
  spLists : Option ι
  procs : List (List UInt8 × Addr)
  control : Bool
  exited : Bool
  pc : ι → Pc

namespace State

variable {ι : Type} [DecidableEq ι]

def goto (s : State ι) (i : ι) (pc : Pc) : State ι := { s with pc := Function.update s.pc i pc }

def setNode (s : State ι) (a : Addr) (n : Node ι) : State ι :=
  { s with node := Function.update s.node a n }

/-- The name is taken. -/
def present (s : State ι) (name : List UInt8) : Bool :=
  (s.control && name == bytes "control") || s.procs.any (·.1 == name)

def call (s : State ι) (i : ι) : Call → Option (State ι × List Event)
  | .control off buf copied stack =>
    if s.control then
      match controlWrite off buf copied stack with
      | .refused r => some (s.goto i (.ret .control r), [])
      | .parsed (.create name) => some (s.goto i (.create ⟨off, buf.length⟩ (.vmalloc name)), [])
      | .parsed (.remove name) => some (s.goto i (.mark ⟨off, buf.length⟩ (.lockLists name)), [])
      | .parsed .nothing => some (s.goto i (.ret .control (Write.done ⟨off, buf.length⟩)), [])
    else none
  | .read a q =>
    if a ∈ s.procs.map Prod.snd then
      if 0 < q.off then some (s.goto i (.ret (.entry a) ⟨.done 0, [], q.off⟩), [])
      else some (s.goto i (.read a q .lockLists), [])
    else none
  | .write a off buf copied stack =>
    if a ∈ s.procs.map Prod.snd then
      let w : Write := ⟨off, buf.length⟩
      match (modlistWrite off buf copied stack).1 with
      | .refused r => some (s.goto i (.ret (.entry a) r), [])
      | .parsed (.add num) => some (s.goto i (.write a w (.vmalloc num)), [])
      | .parsed (.remove num) => some (s.goto i (.write a w (.lock (.remove num))), [])
      | .parsed .cleanup => some (s.goto i (.write a w (.lock .cleanup)), [])
      | .parsed .nothing => some (s.goto i (.ret (.entry a) w.done), [])
    else none
  | .exit =>
    if s.exited then none
    else some ({ s.goto i (.exit .removeProcEntry) with exited := true }, [])

/-- `spin_lock(&sp_lists)` and what runs up to the next operation; a taken lock is tried again. -/
def lockLists (s : State ι) (i : ι) (s' : State ι) (es : List Event) :
    Option (State ι × List Event) :=
  if s.spLists = none then some ({ s' with spLists := some i }, es) else some (s, [])

/-- `spin_lock(&a->sp)` and what runs up to the next operation. -/
def lock (s : State ι) (i : ι) (a : Addr) (s' : State ι) (n : Node ι) (es : List Event) :
    Option (State ι × List Event) :=
  if (s.node a).sp = none then some (s'.setNode a { n with sp := some i }, (.node a, .touch) :: es)
  else some (s, [(.node a, .touch)])

def unlockLists (s : State ι) : State ι := { s with spLists := none }

def unlock (s : State ι) (a : Addr) : State ι := s.setNode a { s.node a with sp := none }

/-- `control_create`. -/
def create (s : State ι) (i : ι) (w : Write) : CreatePc → Option (State ι × List Event)
  | .vmalloc name =>
    let a := s.nextNode
    some ({ (s.goto i (.create w (.procCreateData name a))).setNode a
        { list := [], sp := none, name := strncpy name 20, markedForRemoval := false } with
        nextNode := a + 1 },
      [(.node a, .alloc), (.node a, .touch)])
  | .procCreateData name a =>
    if s.present name then some (s.goto i (.create w (.lockFailed a)), [(.node a, .touch)])
    else
      some ({ s.goto i (.create w (.lockAdd a)) with procs := s.procs ++ [(name, a)] },
        [(.node a, .touch)])
  -- this path returns without the `spin_unlock`
  | .lockFailed a => s.lockLists i (s.goto i (.ret .control w.done)) [(.node a, .free)]
  | .lockAdd a =>
    s.lockLists i { s.goto i (.create w .unlock) with lists := s.lists ++ [a] }
      (touches ((s.lists.getLast?.map Obj.node).toList ++ [.node a]))
  | .unlock => some ((s.goto i (.ret .control w.done)).unlockLists, [])

/-- `control_write` after "remove". -/
def mark (s : State ι) (i : ι) (w : Write) : MarkPc → Option (State ι × List Event)
  | .lockLists name =>
    let seen := s.lists.takeWhile fun a => (s.node a).nameString ≠ name
    match s.lists.find? fun a => (s.node a).nameString = name with
    | none => s.lockLists i (s.goto i (.mark w .unlockNotFound)) (touches (seen.map .node))
    | some a =>
      s.lockLists i (s.goto i (.mark w (.lock a))) (touches ((seen ++ [a]).map .node))
  | .unlockNotFound =>
    some ((s.goto i (.ret .control ⟨.error .enoent, [], w.off⟩)).unlockLists, [])
  | .lock a =>
    if (s.node a).markedForRemoval then
      s.lock i a (s.goto i (.mark w (.unlockMarked a))) (s.node a) []
    else
      s.lock i a (s.goto i (.mark w (.unlock a))) { s.node a with markedForRemoval := true } []
  | .unlockMarked a =>
    some ((s.goto i (.mark w .unlockListsMarked)).unlock a, [(.node a, .touch)])
  -- this path leaves the file pointer where it was
  | .unlockListsMarked =>
    some ((s.goto i (.ret .control ⟨.done w.len, [], w.off⟩)).unlockLists, [])
  | .unlock a => some ((s.goto i (.mark w (.unlockLists a))).unlock a, [(.node a, .touch)])
  | .unlockLists a =>
    some ((s.goto i (.remove (.control w) a .removeProcEntry)).unlockLists, [(.node a, .remove)])

end State

/-- Where `control_remove` returns to. -/
def Caller.pc : Caller → Pc
  | .control w => .ret .control w.done
  | .exit tmp => .exit (.next tmp)

namespace State

variable {ι : Type} [DecidableEq ι]

/-- `control_remove`. -/
def remove [Fintype ι] (s : State ι) (i : ι) (k : Caller) (a : Addr) :
    RemovePc → Option (State ι × List Event)
  | .removeProcEntry =>
    match s.procs.find? fun e => e.1 = (s.node a).nameString with
    | none => some (s.goto i (.remove k a .lockLists), [(.node a, .touch)])
    | some e =>
      some ({ s.goto i (.remove k a (.wait e.2)) with procs := s.procs.erase e },
        [(.node a, .touch)])
  | .wait b =>
    if ∀ j, (s.pc j).handles ≠ some b then some (s.goto i (.remove k a .lockLists), []) else none
  | .lockLists =>
    s.lockLists i { s.goto i (.remove k a .unlockLists) with lists := s.lists.erase a }
      (touches ((prevOf a s.lists).toList ++ (nextOf a s.lists).toList |>.map .node) ++
        [(.node a, .unlink)])
  | .unlockLists => some ((s.goto i (.remove k a .lock)).unlockLists, [])
  | .lock =>
    let r := deleteLoop (fun _ => true) (.node a) (.node a) (s.node a).list
    s.lock i a (s.goto i (.remove k a .unlock)) { s.node a with list := r.1 } r.2
  | .unlock => some ((s.goto i (.remove k a .vfree)).unlock a, [(.node a, .touch)])
  | .vfree => some (s.goto i k.pc, [(.node a, .free)])

/-- `exit_modlist_module`. The directory goes with `control`, and nothing here looks at it. -/
def exit [Fintype ι] (s : State ι) (i : ι) : ExitPc → Option (State ι × List Event)
  | .removeProcEntry => some ({ s.goto i (.exit .wait) with control := false }, [])
  | .wait =>
    if ∀ j, (s.pc j).controls = false then some (s.goto i (.exit (.next s.lists.head?)), [])
    else none
  | .next none => some (s.goto i .user, [])
  | .next (some pos) =>
    some (s.goto i (.remove (.exit (nextOf pos s.lists)) pos .removeProcEntry),
      [(.node pos, .touch), (.node pos, .remove)])

/-- `modlist_read`. -/
def read (s : State ι) (i : ι) (a : Addr) (q : Read) : ReadPc → Option (State ι × List Event)
  | .lockLists => s.lockLists i (s.goto i (.read a q .lock)) []
  | .lock =>
    let r := readLoop q.len q.fault (s.node a).list []
    s.lock i a (s.goto i (.read a q (.unlock (q.reply r)))) (s.node a)
      (touches (r.2.2.map .item))
  | .unlock r => some ((s.goto i (.read a q (.unlockLists r))).unlock a, [(.node a, .touch)])
  | .unlockLists r => some ((s.goto i (.ret (.entry a) r)).unlockLists, [])

/-- `modlist_write`. -/
def write (s : State ι) (i : ι) (a : Addr) (w : Write) :
    WritePc → Option (State ι × List Event)
  | .vmalloc num =>
    let x := s.nextItem
    some ({ s.goto i (.write a w (.lock (.add x num))) with nextItem := x + 1 },
      [(.item x, .alloc), (.item x, .touch)])
  | .lock job =>
    let r := job.run a (s.node a).list
    s.lock i a (s.goto i (.write a w .unlock)) { s.node a with list := r.1 } r.2
  | .unlock => some ((s.goto i (.ret (.entry a) w.done)).unlock a, [(.node a, .touch)])

end State

variable {ι : Type} [DecidableEq ι] [Fintype ι]

def step (s : State ι) (i : ι) (act : Act) : Option (State ι × List Event) :=
  match s.pc i, act with
  | .user, .call c => s.call i c
  | .create w c, .run => s.create i w c
  | .create w (.procCreateData _ a), .null =>
    some (s.goto i (.create w (.lockFailed a)), [(.node a, .touch)])
  | .mark w c, .run => s.mark i w c
  | .remove k a c, .run => s.remove i k a c
  | .exit c, .run => s.exit i c
  | .read a q c, .run => s.read i a q c
  | .write a w c, .run => s.write i a w c
  | .ret _ _, .run => some (s.goto i .user, [])
  | _, _ => none

/-- `init_modlist_module` has run, and created the entry "default". -/
def machine (ι : Type) [DecidableEq ι] [Fintype ι] : Machine (State ι) (ι × Act) (ι × Event) where
  init :=
    { node := fun a =>
        { list := [], sp := none, name := strncpy (if a = 0 then bytes "default" else []) 20
          markedForRemoval := false }
      nextNode := 1
      nextItem := 0
      lists := [0]
      spLists := none
      procs := [(bytes "default", 0)]
      control := true
      exited := false
      pc := fun _ => .user }
  step s ia := (step s ia.1 ia.2).map fun r => (r.1, r.2.map (Prod.mk ia.1))

end LinuxInternals.Multilist
