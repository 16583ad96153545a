import LinuxInternals.Prodcons.Calls
import LinuxInternals.Lib.Machine
import LinuxInternals.Lib.Population

/-!
# The module `prodcons1`

Producers and consumers that share a circular buffer through three counting semaphores.
A step is one semaphore operation together with the code that runs up to the next one.
Both file operations go the same way: they take a unit of one semaphore, do their work
under `mtx`, and post a unit to the other.
-/

namespace LinuxInternals.Prodcons1

open Prodcons

inductive Sem where
  | elementos
  | huecos
  | mtx
deriving DecidableEq, Repr

/-- `item` is `NULL` until the consumer has been in the critical section. -/
inductive Frame where
  | write (off len : Nat) (item : Int32)
  | read (off len : Nat) (item : Option Int32)

/-- The semaphore operation a process is about to perform. -/
inductive Stage where
  | take
  | enter
  | giveBack
  | exit
  | post
deriving DecidableEq, Repr

inductive Proc where
  | user
  | inside (f : Frame) (st : Stage)

inductive Act where
  | call (c : Call) (copied : Bool)
  | run (copied : Bool)
  | intr
deriving DecidableEq, Repr

structure Shared where
  cbuf : Cbuffer Int32
  sem : Sem → Nat

/-- `down_interruptible(&huecos)` of a producer, `down_interruptible(&elementos)` of a
consumer. -/
def Frame.takes : Frame → Sem
  | .write _ _ _ => .huecos
  | .read _ _ _ => .elementos

def Frame.posts : Frame → Sem
  | .write _ _ _ => .elementos
  | .read _ _ _ => .huecos

namespace Shared

def up (sh : Shared) (q : Sem) : Shared :=
  { sh with sem := Function.update sh.sem q (sh.sem q + 1) }

def down (sh : Shared) (q : Sem) : Shared :=
  { sh with sem := Function.update sh.sem q (sh.sem q - 1) }

end Shared

/-- What a process does between `down_interruptible(&mtx)` and `up(&mtx)`. -/
def criticalSection (sh : Shared) : Frame → Shared × Frame × List Event
  | .write off len item =>
    ({ sh with cbuf := (sh.cbuf.insertCbufferT item).1 }, .write off len item, [.insert item])
  | .read off len _ =>
    let item := headCbufferT sh.cbuf
    ({ sh with cbuf := sh.cbuf.removeCbufferT.1 }, .read off len item,
      item.toList.map .remove)

/-- How a call ends that was interrupted at its first semaphore. -/
def Frame.refuse : Frame → List Event
  | .write off len item => [.free item, .wrote (.error .eintr) (off + len)]
  | .read off _ _ => [.read (.error .eintr) [] off]

/-- How a call ends that was interrupted at `mtx`; the item of a producer stays allocated. -/
def Frame.abort : Frame → List Event
  | .write off len _ => [.wrote (.error .eintr) (off + len)]
  | .read off _ _ => [.read (.error .eintr) [] off]

/-- How a call ends that has posted its unit; `none` dereferences `NULL`. -/
def Frame.return : Frame → Bool → Option (List Event)
  | .write off len _, _ => some [.wrote (.done len) (off + len)]
  | .read off len item, copied => item.map (readTail off len · copied)

def act (sh : Shared) : Proc → Act → Option (Shared × Proc × List Event)
  | .user, .call (.write off buf) copied =>
    match writeEntry off buf copied with
    | .inl (v, off') => some (sh, .user, [.wrote v off'])
    | .inr item => some (sh, .inside (.write off buf.length item) .take, [.alloc item])
  | .user, .call (.read off len) _ =>
    if 0 < off then some (sh, .user, [.read (.done 0) [] off])
    else some (sh, .inside (.read off len none) .take, [])
  | .inside f .take, .run _ =>
    if 0 < sh.sem f.takes then some (sh.down f.takes, .inside f .enter, []) else none
  | .inside f .take, .intr => some (sh, .user, f.refuse)
  | .inside f .enter, .run _ =>
    if 0 < sh.sem .mtx then
      let r := criticalSection (sh.down .mtx) f
      some (r.1, .inside r.2.1 .exit, r.2.2)
    else none
  | .inside f .enter, .intr => some (sh, .inside f .giveBack, [])
  | .inside f .giveBack, .run _ => some (sh.up f.takes, .user, f.abort)
  | .inside f .exit, .run _ => some (sh.up .mtx, .inside f .post, [])
  | .inside f .post, .run copied =>
    (f.return copied).map fun es => (sh.up f.posts, .user, es)
  | _, _ => none

structure State (ι : Type) extends Shared where
  proc : ι → Proc

/-- `init_prodcons_module` has run. -/
def machine (vector : Nat → Int32) (ι : Type) [DecidableEq ι] :
    Machine (State ι) (ι × Act) (ι × Event) where
  init :=
    { cbuf := cbuf vector
      sem := fun q => match q with
        | .elementos => 0
        | .huecos => 5
        | .mtx => 1
      proc := fun _ => .user }
  step s ia :=
    match act s.toShared (s.proc ia.1) ia.2 with
    | none => none
    | some (sh, p, es) =>
      some ({ sh with proc := Function.update s.proc ia.1 p }, es.map (Prod.mk ia.1))

end LinuxInternals.Prodcons1
