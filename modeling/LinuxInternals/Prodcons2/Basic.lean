import LinuxInternals.Prodcons.Calls
import LinuxInternals.Lib.SemMonitor.Basic

/-!
# The module `prodcons2`

The same producers and consumers over a semaphore monitor: `prod_queue` and `cons_queue`
with their counters stand for two condition variables. The file operations are client code
of the monitor. A write that is interrupted returns without freeing its item.
-/

namespace LinuxInternals.Prodcons2

open Prodcons SemMonitor

/-- The wait queues `prod_queue` and `cons_queue`. -/
inductive Queue where
  | prod
  | cons
deriving DecidableEq, Repr

/-- `item` is `NULL` until the consumer has taken one. -/
inductive Frame where
  | write (off len : Nat) (item : Int32)
  | read (off len : Nat) (item : Option Int32)

inductive Exit where
  | ok
  | eintr
deriving DecidableEq, Repr

abbrev Code := Segment (Cbuffer Int32) Frame Queue Exit Event

def prodconsWrite (off len : Nat) (item : Int32) (pt : Point) (cbuf : Cbuffer Int32)
    (nrWaiting : Queue → Int) : Code :=
  match pt with
  | .entered | .relocked =>
    if cbuf.isFullCbufferT then
      { data := cbuf, frame := .write off len item, next := .block .prod, effects := [] }
    else
      { data := (cbuf.insertCbufferT item).1
        frame := .write off len item
        next := if 0 < nrWaiting .cons then .signal .cons else .unlock .ok
        effects := [.insert item] }
  | .signalled =>
    { data := cbuf, frame := .write off len item, next := .unlock .ok, effects := [] }

def prodconsRead (off len : Nat) (item : Option Int32) (pt : Point) (cbuf : Cbuffer Int32)
    (nrWaiting : Queue → Int) : Code :=
  match pt with
  | .entered | .relocked =>
    if cbuf.sizeCbufferT = 0 then
      { data := cbuf, frame := .read off len item, next := .block .cons, effects := [] }
    else
      let item := headCbufferT cbuf
      { data := cbuf.removeCbufferT.1
        frame := .read off len item
        next := if 0 < nrWaiting .prod then .signal .prod else .unlock .ok
        effects := item.toList.map .remove }
  | .signalled =>
    { data := cbuf, frame := .read off len item, next := .unlock .ok, effects := [] }

def body : Frame → Point → Cbuffer Int32 → (Queue → Int) → Code
  | .write off len item => prodconsWrite off len item
  | .read off len item => prodconsRead off len item

def syscall (_ : Unit) (c : Call) (copied : Bool) : Option (Entry Unit Frame Event) :=
  match c with
  | .write off buf =>
    match writeEntry off buf copied with
    | .inl (v, off') => some (.done () [.wrote v off'])
    | .inr item => some (.enter (.write off buf.length item))
  | .read off len =>
    if 0 < off then some (.done () [.read (.done 0) [] off])
    else some (.enter (.read off len none))

/-- A consumer that gets here with `NULL` does not return. -/
def leave : Frame → Exit → Bool → Unit × List Event
  | .write off len _, .ok, _ => ((), [.wrote (.done len) (off + len)])
  | .write off len _, .eintr, _ => ((), [.wrote (.error .eintr) (off + len)])
  | .read off len item, .ok, copied =>
    ((), match item with
      | some x => readTail off len x copied
      | none => [])
  | .read off _ _, .eintr, _ => ((), [.read (.error .eintr) [] off])

/-- `init_prodcons_module` has run. -/
def client (vector : Nat → Int32) : Client (Cbuffer Int32) Queue Frame Unit Call Exit Event where
  data₀ := cbuf vector
  user₀ := ()
  syscall := syscall
  body := body
  eintr := .eintr
  leave := leave

abbrev State (ι : Type) := SemMonitor.State (Cbuffer Int32) Queue Frame Unit Exit ι

abbrev machine (vector : Nat → Int32) (ι : Type) [DecidableEq ι] :
    Machine (State ι) (ι × SemMonitor.Act Call) (ι × Event) :=
  SemMonitor.machine (client vector) ι

end LinuxInternals.Prodcons2
