import LinuxInternals.Cbuffer.Single
import LinuxInternals.Lib.SemMonitor.Conservation
import LinuxInternals.Lib.Text

/-!
# The module `modtimer`

A timer puts random numbers into a circular buffer, a worker thread moves them to a list
when the buffer reaches a threshold, and readers of `/proc/modtimer` take the list away.
The list is the data of a semaphore monitor (`list_mtx`, `sem_list` and `waiting`); the
buffer is guarded by a spinlock, held for one operation at a time. The size and the
emptiness of the buffer are read without it.
-/

namespace LinuxInternals.Modtimer

open CData SemMonitor Text

/-- `timer_period`, `max_random` and `emergency_threshold`. -/
structure Config where
  timerPeriod : Int64
  maxRandom : Int64
  emergencyThreshold : Int64
deriving DecidableEq, Repr

inductive Errno where
  | eintr
  | enospc
  | efault
  | einval
deriving DecidableEq, Repr

inductive Ret where
  | done (n : Nat)
  | error (e : Errno)
deriving DecidableEq, Repr

/-- `modtimer_config_write`: the configuration, the return value and the offset after it.
`msecsToJiffies` depends on the kernel's clock rate. -/
def modtimerConfigWrite (msecsToJiffies : UInt32 → UInt64) (cfg : Config) (off : Nat)
    (buf : List UInt8) (copied : Bool) : Config × Ret × Nat :=
  if 0 < off then (cfg, .done 0, off)
  else if 99 < buf.length then (cfg, .error .enospc, off)
  else if !copied then (cfg, .error .efault, off)
  else
    let configbuffer := cstring (buf ++ [0])
    let cfg' :=
      match sscanf configbuffer "timer_period_ms %zu" with
      | [.size num] => { cfg with timerPeriod := (msecsToJiffies num.toUInt32).toInt64 }
      | _ =>
        match sscanf configbuffer "emergency_threshold %zu" with
        | [.size num] => { cfg with emergencyThreshold := num.toInt64 }
        | _ =>
          match sscanf configbuffer "max_random %zu" with
          | [.size num] => { cfg with maxRandom := num.toInt64 }
          | _ => cfg
    (cfg', .done buf.length, off + buf.length)

/-- `get_random_int() % (max_random - 1)`; a division by zero has no result. -/
def randNumber (r : UInt32) (maxRandom : Int64) : Option UInt32 :=
  if maxRandom - 1 = 0 then none
  else some (r.toUInt64.toInt64 % (maxRandom - 1)).toUInt64.toUInt32

/-- `(emergency_threshold*MAX_ITEMS_CBUFFER)/100`. -/
def target (cfg : Config) : Int := (cfg.emergencyThreshold * 10 / 100).toInt

/-- `head_cbuffer_t` of a buffer of integers. -/
def headCbufferT (c : Cbuffer Int32) : Int32 := if c.size ≠ 0 then c.data c.head else -1

/-- The text that `modtimer_read` makes of the list. -/
def render (list : List UInt32) : List UInt8 :=
  list.flatMap fun x => decimal x.toNat ++ [10]

/-- `seen` is the size that `fire_timer` has read, if it got that far. -/
inductive Event where
  | generated (n : UInt32)
  | overwritten (n : UInt32)
  | checked (seen : Option Int)
  | addTimer (alreadyPending : Bool)
  | opened (v : Int)
  | added (list : List UInt32)
  | removed (list : List UInt32)
  | discarded (list : List UInt32)
  | released
  | read (v : Ret) (out : List UInt8) (off : Nat)
  | configured (v : Ret) (off : Nat)
deriving DecidableEq, Repr

/-- The only wait queue of the monitor, `sem_list`. -/
inductive Queue where
  | semList
deriving DecidableEq, Repr

variable {ι : Type}

/-- `file` is the open file that is read. `copied` counts the numbers that `my_list_add` has
moved out of `aux_buffer`. -/
inductive Frame (ι : Type) where
  | read (file : ι) (off len : Nat) (modlistbuffer : List UInt8)
  | add (aux : List UInt32) (copied : Nat)
  | cleanup

inductive Call (ι : Type) where
  | read (file : ι) (off len : Nat)
  | add (aux : List UInt32)
  | cleanup
deriving DecidableEq, Repr

inductive Exit where
  | ok
  | eintr
deriving DecidableEq, Repr

abbrev Code (ι : Type) := Segment (List UInt32) (Frame ι) Queue Exit Event

def modtimerRead (file : ι) (off len : Nat) (modlistbuffer : List UInt8) (pt : Point)
    (mylist : List UInt32) : Code ι :=
  match pt with
  | .entered | .relocked =>
    match mylist with
    | [] =>
      { data := [], frame := .read file off len modlistbuffer, next := .block .semList,
        effects := [] }
    | _ =>
      { data := [], frame := .read file off len (render mylist), next := .unlock .ok,
        effects := [.removed mylist] }
  | .signalled =>
    { data := mylist, frame := .read file off len modlistbuffer, next := .unlock .ok,
      effects := [] }

def myListAdd (aux : List UInt32) (copied : Nat) (pt : Point) (mylist : List UInt32)
    (waiting : Int) : Code ι :=
  match pt with
  | .entered =>
    let mylist := mylist ++ aux.drop copied
    { data := mylist
      frame := .add aux aux.length
      next := if mylist ≠ [] ∧ 0 < waiting then .signal .semList else .unlock .ok
      effects := [.added (aux.drop copied)] }
  | .signalled | .relocked =>
    { data := mylist, frame := .add aux copied, next := .unlock .ok, effects := [] }

def listCleanup (pt : Point) (mylist : List UInt32) : Code ι :=
  match pt with
  | .entered =>
    { data := [], frame := .cleanup, next := .unlock .ok, effects := [.discarded mylist] }
  | .signalled | .relocked =>
    { data := mylist, frame := .cleanup, next := .unlock .ok, effects := [] }

def body (f : Frame ι) (pt : Point) (mylist : List UInt32) (nrWaiting : Queue → Int) : Code ι :=
  match f with
  | .read file off len modlistbuffer => modtimerRead file off len modlistbuffer pt mylist
  | .add aux copied => myListAdd aux copied pt mylist (nrWaiting .semList)
  | .cleanup => listCleanup pt mylist

def syscall (_ : Unit) (c : Call ι) (_ : Bool) : Option (Entry Unit (Frame ι) Event) :=
  match c with
  | .read file off len =>
    if len < 1 then some (.done () [.read (.error .enospc) [] off])
    else some (.enter (.read file off len []))
  | .add aux => some (.enter (.add aux 0))
  | .cleanup => some (.enter .cleanup)

def leave (f : Frame ι) (x : Exit) (copied : Bool) : Unit × List Event :=
  match f, x with
  | .read _ off len out, .ok =>
    ((), if copied then [.read (.done out.length) out (off + len)]
      else [.read (.error .einval) [] off])
  | .read _ off _ _, .eintr => ((), [.read (.error .eintr) [] off])
  | .add _ _, _ | .cleanup, _ => ((), [])

def client (ι : Type) :
    Client (List UInt32) Queue (Frame ι) Unit (Call ι) Exit Event where
  data₀ := []
  user₀ := ()
  syscall := syscall
  body := body
  eintr := .eintr
  leave := leave

/-- The processes are the users and, as `none`, the worker thread. -/
abbrev Monitor (ι : Type) :=
  SemMonitor.State (List UInt32) Queue (Frame ι) Unit Exit (Option ι)

/-- The next thing that a running `fire_timer` does. -/
inductive Fire where
  | idle
  | insert (randNumber : UInt32)
  | testPending
  | testSize
  | schedule (seen : Int)
  | modTimer
deriving DecidableEq, Repr

/-- The next thing that the worker does outside the monitor, with `aux_buffer[0..count)`. -/
inductive Worker where
  | idle
  | testEmpty (aux : List UInt32)
  | remove (aux : List UInt32)
  | adding
deriving DecidableEq, Repr

/-- The next thing that `modtimer_release` does. -/
inductive Release where
  | delTimer
  | flush
  | clear
  | cleanup
deriving DecidableEq, Repr

inductive File where
  | closed
  | opening
  | opened
  | releasing (st : Release)
deriving DecidableEq, Repr

/-- `timer` is whether the timer is pending, `work` whether the work is. -/
structure State (ι : Type) where
  mon : Monitor ι
  cbuf : Cbuffer Int32
  config : Config
  timer : Bool
  fire : Fire
  work : Bool
  worker : Worker
  file : ι → File

/-- `expire r` starts `fire_timer`, whose `get_random_int()` gives `r`; `file i` is the next
step of `modtimer_open` or `modtimer_release` on the file that `i` has opened. -/
inductive Act (ι : Type) where
  | config (off : Nat) (buf : List UInt8) (copied : Bool)
  | expire (r : UInt32)
  | fire
  | work
  | open (i : ι)
  | release (i : ι)
  | file (i : ι)
  | mon (p : Option ι) (a : SemMonitor.Act (Call ι))

variable [DecidableEq ι]

abbrev monitor (ι : Type) [DecidableEq ι] := SemMonitor.machine (client ι) (Option ι)

namespace State

def waiting (s : State ι) : Int := s.mon.nrWaiting .semList

def inside (s : State ι) (p : Option ι) : Bool :=
  match s.mon.proc p with
  | .user _ => false
  | .inside _ _ => true

/-- Is inside `modtimer_read` on the file that `i` has opened. -/
def reads (s : State ι) (i : ι) (p : Option ι) : Bool :=
  match s.mon.proc p with
  | .inside (.read file _ _ _) _ => decide (file = i)
  | _ => false

def setFile (s : State ι) (i : ι) (f : File) : State ι :=
  { s with file := Function.update s.file i f }

end State

def fireTimer (s : State ι) : Option (State ι × List Event) :=
  match s.fire with
  | .idle => none
  | .insert n =>
    some ({ s with cbuf := (s.cbuf.insertCbufferT n.toInt32).1, fire := .testPending },
      if s.cbuf.isFullCbufferT then [.overwritten (s.cbuf.data s.cbuf.head).toUInt32] else [])
  | .testPending =>
    if s.work then some ({ s with fire := .modTimer }, [.checked none])
    else some ({ s with fire := .testSize }, [])
  | .testSize =>
    let size := s.cbuf.sizeCbufferT
    if size = target s.config then some ({ s with fire := .schedule size }, [])
    else some ({ s with fire := .modTimer }, [.checked (some size)])
  | .schedule seen =>
    some ({ s with work := true, fire := .modTimer }, [.checked (some seen)])
  | .modTimer => some ({ s with timer := true, fire := .idle }, [])

def copyItemsIntoListFunc (s : State ι) : Option (State ι × List (Option ι × Event)) :=
  match s.worker with
  | .idle => if s.work then some ({ s with work := false, worker := .testEmpty [] }, []) else none
  | .testEmpty aux =>
    if s.cbuf.isEmptyCbufferT then
      ((monitor ι).step s.mon (none, .call (.add aux) true)).map fun r =>
        ({ s with mon := r.1, worker := .adding }, r.2)
    else some ({ s with worker := .remove aux }, [])
  | .remove aux =>
    some ({ s with
      cbuf := s.cbuf.removeCbufferT.1
      worker := .testEmpty (aux ++ [(headCbufferT s.cbuf).toUInt32]) }, [])
  | .adding => if s.inside none then none else some ({ s with worker := .idle }, [])

/-- `modtimer_open` behind its test of `waiting`, and `modtimer_release`. -/
def fileStep (s : State ι) (i : ι) : Option (State ι × List (Option ι × Event)) :=
  match s.file i with
  | .closed | .opened => none
  | .opening =>
    some ({ s.setFile i .opened with timer := true },
      [(some i, .addTimer s.timer), (some i, .opened 0)])
  -- del_timer_sync waits for a running fire_timer
  | .releasing .delTimer =>
    if s.fire = .idle then some ({ s.setFile i (.releasing .flush) with timer := false }, [])
    else none
  | .releasing .flush =>
    if s.work = false ∧ s.worker = .idle then some (s.setFile i (.releasing .clear), []) else none
  | .releasing .clear =>
    ((monitor ι).step s.mon (some i, .call .cleanup true)).map fun r =>
      ({ s.setFile i (.releasing .cleanup) with mon := r.1, cbuf := s.cbuf.clearCbufferT },
        (some i, .discarded (s.cbuf.contents.map Int32.toUInt32)) :: r.2)
  | .releasing .cleanup =>
    if s.inside (some i) then none else some (s.setFile i .closed, [(some i, .released)])

/-- The kernel calls `release` when no call on the file is in progress. -/
def step [Fintype ι] (msecsToJiffies : UInt32 → UInt64) (s : State ι) :
    Act ι → Option (State ι × List (Option ι × Event))
  | .config off buf copied =>
    let r := modtimerConfigWrite msecsToJiffies s.config off buf copied
    some ({ s with config := r.1 }, [(none, .configured r.2.1 r.2.2)])
  | .expire r =>
    if s.timer ∧ s.fire = .idle then
      (randNumber r s.config.maxRandom).map fun n =>
        ({ s with timer := false, fire := .insert n }, [(none, .generated n)])
    else none
  | .fire => (fireTimer s).map fun r => (r.1, r.2.map (Prod.mk none))
  | .work => copyItemsIntoListFunc s
  | .open i =>
    if s.file i = .closed ∧ s.inside (some i) = false then
      if s.waiting ≠ 0 then some (s, [(some i, .opened 1)]) else some (s.setFile i .opening, [])
    else none
  | .release i =>
    if s.file i = .opened ∧ s.inside (some i) = false ∧ ∀ p, s.reads i p = false then
      some (s.setFile i (.releasing .delTimer), [])
    else none
  | .file i => fileStep s i
  | .mon p a =>
    let allowed : Bool :=
      match p, a with
      | some i, .call (.read j _ _) _ =>
        s.file j == .opened && (s.file i == .closed || s.file i == .opened)
      | _, .call _ _ => false
      | _, _ => true
    if allowed then
      ((monitor ι).step s.mon (p, a)).map fun r => ({ s with mon := r.1 }, r.2)
    else none

/-- `init_modtimer` has run; `vector` is what `vmalloc` left in the buffer. -/
def machine (vector : Nat → Int32) (hz : Int64) (msecsToJiffies : UInt32 → UInt64) (ι : Type)
    [Fintype ι] [DecidableEq ι] : Machine (State ι) (Act ι) (Option ι × Event) where
  init :=
    { mon := (monitor ι).init
      cbuf := (Cbuffer.createCbufferT true (some vector) 10).get rfl
      config := { timerPeriod := hz, maxRandom := 300, emergencyThreshold := 80 }
      timer := false
      fire := .idle
      work := false
      worker := .idle
      file := fun _ => .closed }
  step := step msecsToJiffies

end LinuxInternals.Modtimer
