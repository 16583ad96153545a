import LinuxInternals.Fifoproc.Device
import LinuxInternals.Lib.SemMonitor.Conservation

/-!
# The module `fifoproc`

The four file operations of `/proc/modfifo` as client code of a semaphore monitor. What
the code does for consumers and for producers is the same with the roles exchanged, so
the two counters and the two wait queues are indexed by the role. A process has at most
one file open; a program with several files is several processes here.
-/

namespace LinuxInternals.Fifoproc

open CData SemMonitor

inductive Role where
  | prod
  | cons
deriving DecidableEq, Repr

def Role.other : Role → Role
  | .prod => .cons
  | .cons => .prod

@[simp] theorem Role.other_other (r : Role) : r.other.other = r := by
  cases r <;> rfl

@[simp] theorem Role.other_ne (r : Role) : r.other ≠ r := by
  cases r <;> decide

/-- `FMODE_READ` and `FMODE_WRITE` of an open file. -/
structure FMode where
  read : Bool
  write : Bool
deriving DecidableEq, Repr

/-- `file->f_mode & FMODE_READ` decides which branch open and release take. -/
def FMode.role (m : FMode) : Role := if m.read then .cons else .prod

def FMode.rdonly : FMode := ⟨true, false⟩

def FMode.wronly : FMode := ⟨false, true⟩

inductive Errno where
  | eintr
  | enospc
  | efault
  | einval
  | epipe
deriving DecidableEq, Repr

inductive Ret where
  | done (n : Nat)
  | error (e : Errno)
deriving DecidableEq, Repr

inductive Op where
  | open
  | release
  | read
  | write
deriving DecidableEq, Repr

/-- The changes of the shared data, and the returns of the calls. `out` is what
`copy_to_user` has stored. -/
inductive Event where
  | count (r : Role) (d : Int)
  | insert (items : List UInt8)
  | remove (n : Nat)
  | clear
  | ret (op : Op) (v : Ret) (out : List UInt8)
deriving DecidableEq, Repr

/-- `count .prod` is `prod_count` and `count .cons` is `cons_count`. -/
structure Data (β : Type) where
  cbuffer : β
  count : Role → Int

variable {β : Type}

def Data.add (d : Data β) (r : Role) (k : Int) : Data β :=
  { d with count := Function.update d.count r (d.count r + k) }

inductive Frame where
  | open (m : FMode)
  | release (m : FMode)
  | read (m : FMode) (len : Nat) (kbuffer : Nat → UInt8)
  | write (m : FMode) (len : Nat) (kbuffer : Nat → UInt8)

def Frame.op : Frame → Op
  | .open _ => .open
  | .release _ => .release
  | .read _ _ _ => .read
  | .write _ _ _ => .write

def Frame.mode : Frame → FMode
  | .open m | .release m | .read m _ _ | .write m _ _ => m

def Frame.len : Frame → Nat
  | .open _ | .release _ => 0
  | .read _ len _ | .write _ len _ => len

inductive File where
  | closed
  | opened (m : FMode)
deriving DecidableEq, Repr

inductive Call where
  | open (m : FMode)
  | release
  | read (len : Nat)
  | write (buff : List UInt8)
deriving DecidableEq, Repr

/-- Where a call leaves its code, other than by `-EINTR`. -/
inductive Exit where
  | ok
  | eof
  | epipe
  | eintr
deriving DecidableEq, Repr

abbrev Code (β : Type) := Segment (Data β) Frame Role Exit Event

variable (D : Device β)

/-- `while (prod_count==0)` of a consumer, `while (cons_count==0)` of a producer. -/
def openLoop (m : FMode) (d : Data β) (effects : List Event) : Code β :=
  { data := d
    frame := .open m
    next := if d.count m.role.other = 0 then .block m.role else .unlock .ok
    effects }

def fifoprocOpen (m : FMode) (pt : Point) (d : Data β) (nrWaiting : Role → Int) : Code β :=
  match pt with
  | .entered =>
    let d := d.add m.role 1
    if 0 < nrWaiting m.role.other then
      { data := d
        frame := .open m
        next := .signal m.role.other
        effects := [.count m.role 1] }
    else openLoop m d [.count m.role 1]
  | .signalled | .relocked => openLoop m d []

/-- `if (cons_count == 0 && prod_count == 0) clear_cbuffer_t(cbuffer);` -/
def releaseTail (m : FMode) (d : Data β) (effects : List Event) : Code β :=
  if d.count .cons = 0 ∧ d.count .prod = 0 then
    { data := { d with cbuffer := D.clear d.cbuffer }
      frame := .release m
      next := .unlock .ok
      effects := effects ++ [.clear] }
  else { data := d, frame := .release m, next := .unlock .ok, effects }

def fifoprocRelease (m : FMode) (pt : Point) (d : Data β) (nrWaiting : Role → Int) : Code β :=
  match pt with
  | .entered =>
    let d := d.add m.role (-1)
    if 0 < nrWaiting m.role.other then
      { data := d
        frame := .release m
        next := .signal m.role.other
        effects := [.count m.role (-1)] }
    else releaseTail D m d [.count m.role (-1)]
  | .signalled | .relocked => releaseTail D m d []

def fifoprocRead (m : FMode) (len : Nat) (kbuffer : Nat → UInt8) (pt : Point) (d : Data β)
    (nrWaiting : Role → Int) : Code β :=
  match pt with
  | .entered | .relocked =>
    if D.size d.cbuffer < len ∧ 0 < d.count .prod then
      { data := d, frame := .read m len kbuffer, next := .block .cons, effects := [] }
    else if d.count .prod = 0 ∧ D.isEmpty d.cbuffer then
      { data := d, frame := .read m len kbuffer, next := .unlock .eof, effects := [] }
    else
      let r := D.remove d.cbuffer kbuffer len
      { data := { d with cbuffer := r.1 }
        frame := .read m len r.2
        next := if 0 < nrWaiting .prod then .signal .prod else .unlock .ok
        effects := [.remove len] }
  | .signalled =>
    { data := d, frame := .read m len kbuffer, next := .unlock .ok, effects := [] }

def fifoprocWrite (m : FMode) (len : Nat) (kbuffer : Nat → UInt8) (pt : Point) (d : Data β)
    (nrWaiting : Role → Int) : Code β :=
  match pt with
  | .entered | .relocked =>
    if D.gaps d.cbuffer < len ∧ 0 < d.count .cons then
      { data := d, frame := .write m len kbuffer, next := .block .prod, effects := [] }
    else if d.count .cons = 0 then
      { data := d, frame := .write m len kbuffer, next := .unlock .epipe, effects := [] }
    else
      { data := { d with cbuffer := D.insert d.cbuffer kbuffer len }
        frame := .write m len kbuffer
        next := if 0 < nrWaiting .cons then .signal .cons else .unlock .ok
        effects := [.insert (CData.read kbuffer len)] }
  | .signalled =>
    { data := d, frame := .write m len kbuffer, next := .unlock .ok, effects := [] }

def body : Frame → Point → Data β → (Role → Int) → Code β
  | .open m => fifoprocOpen m
  | .release m => fifoprocRelease D m
  | .read m len kbuffer => fifoprocRead D m len kbuffer
  | .write m len kbuffer => fifoprocWrite D m len kbuffer

/-- `char kbuffer[MAX_KBUF]="";` filled by `copy_from_user` and `kbuffer[len] = '\0'`. -/
def copyFromUser (buff : List UInt8) : Nat → UInt8 :=
  Function.update (memcpy (fun _ => 0) 0 (fun i => buff.getD i 0) 0 buff.length) buff.length 0

/-- What a call does before it first asks for `mtx`. Only a file that is open for
reading gets to `fifoproc_read`, only one open for writing to `fifoproc_write`. -/
def syscall : File → Call → Bool → Option (Entry File Frame Event)
  | .closed, .open m, _ => some (.enter (.open m))
  | .opened m, .release, _ => some (.enter (.release m))
  | .opened m, .read len, _ =>
    if m.read then
      if D.maxItems < len ∨ D.maxKbuf < len then
        some (.done (.opened m) [.ret .read (.error .enospc) []])
      else some (.enter (.read m len fun _ => 0))
    else none
  | .opened m, .write buff, copied =>
    if m.write then
      if D.maxItems < buff.length ∨ D.maxKbuf < buff.length then
        some (.done (.opened m) [.ret .write (.error .enospc) []])
      else if copied then some (.enter (.write m buff.length (copyFromUser buff)))
      else some (.done (.opened m) [.ret .write (.error .efault) []])
    else none
  | _, _, _ => none

/-- How a call returns. The kernel forgets the file whatever release says. -/
def leave : Frame → Exit → Bool → File × List Event
  | .open _, .eintr, _ => (.closed, [.ret .open (.error .eintr) []])
  | .open m, _, _ => (.opened m, [.ret .open (.done 0) []])
  | .release _, .eintr, _ => (.closed, [.ret .release (.error .eintr) []])
  | .release _, _, _ => (.closed, [.ret .release (.done 0) []])
  | .read m _ _, .eintr, _ => (.opened m, [.ret .read (.error .eintr) []])
  | .read m _ _, .eof, _ => (.opened m, [.ret .read (.done 0) []])
  | .read m len kbuffer, _, copied =>
    (.opened m, if copied then [.ret .read (.done len) (CData.read kbuffer len)]
      else [.ret .read (.error .einval) []])
  | .write m _ _, .eintr, _ => (.opened m, [.ret .write (.error .eintr) []])
  | .write m _ _, .epipe, _ => (.opened m, [.ret .write (.error .epipe) []])
  | .write m len _, _, _ => (.opened m, [.ret .write (.done len) []])

def client : Client (Data β) Role Frame File Call Exit Event where
  data₀ := { cbuffer := D.create, count := fun _ => 0 }
  user₀ := .closed
  syscall := syscall D
  body := body D
  eintr := .eintr
  leave := leave

abbrev State (β ι : Type) := SemMonitor.State (Data β) Role Frame File Exit ι

abbrev Process := Proc File Frame Role Exit

abbrev machine (ι : Type) [DecidableEq ι] :
    Machine (State β ι) (ι × Act Call) (ι × Event) :=
  SemMonitor.machine (client D) ι

end LinuxInternals.Fifoproc
