import LinuxInternals.Fifoproc.Waiting
import LinuxInternals.Lib.SemMonitor.Mesa

/-!
# The monitor of `pseudocodigo.txt`

The pseudocode that the module was written from: one lock, the condition variables `prod`
and `cons`, and the same four operations without counters of waiters. Its local buffers
start with whatever is on the stack, and its failures are just `Error`.
-/

namespace LinuxInternals.Fifoproc

open CData SemMonitor

variable {β ι : Type}

inductive Outcome where
  | done (n : Nat)
  | epipe
  | error
deriving DecidableEq, Repr

inductive Report where
  | change (e : Event)
  | ret (op : Op) (v : Outcome) (out : List UInt8)
deriving DecidableEq, Repr

def Ret.outcome : Ret → Outcome
  | .done n => .done n
  | .error .epipe => .epipe
  | .error _ => .error

/-- The events of the module as the pseudocode tells them. -/
def Event.report : Event → Report
  | .ret op v out => .ret op v.outcome out
  | e => .change e

abbrev MonitorCode (β : Type) := Segment (Data β) Frame Role Exit Report

variable (D : Device β)

def monitorOpenLoop (m : FMode) (d : Data β) : MonitorCode β :=
  { data := d
    frame := .open m
    next := if d.count m.role.other = 0 then .block m.role else .unlock .ok
    effects := [] }

def monitorOpen (m : FMode) (pt : Point) (d : Data β) : MonitorCode β :=
  match pt with
  | .entered =>
    { data := d.add m.role 1
      frame := .open m
      next := .signal m.role.other
      effects := [.change (.count m.role 1)] }
  | .signalled | .relocked => monitorOpenLoop m d

def monitorWrite (m : FMode) (len : Nat) (kbuffer : Nat → UInt8) (pt : Point) (d : Data β) :
    MonitorCode β :=
  match pt with
  | .entered | .relocked =>
    if D.gaps d.cbuffer < len ∧ 0 < d.count .cons then
      { data := d, frame := .write m len kbuffer, next := .block .prod, effects := [] }
    else if d.count .cons = 0 then
      { data := d, frame := .write m len kbuffer, next := .unlock .epipe, effects := [] }
    else
      { data := { d with cbuffer := D.insert d.cbuffer kbuffer len }
        frame := .write m len kbuffer
        next := .signal .cons
        effects := [.change (.insert (CData.read kbuffer len))] }
  | .signalled =>
    { data := d, frame := .write m len kbuffer, next := .unlock .ok, effects := [] }

def monitorRead (m : FMode) (len : Nat) (kbuffer : Nat → UInt8) (pt : Point) (d : Data β) :
    MonitorCode β :=
  match pt with
  | .entered | .relocked =>
    if D.size d.cbuffer < len ∧ 0 < d.count .prod then
      { data := d, frame := .read m len kbuffer, next := .block .cons, effects := [] }
    else if d.count .prod = 0 ∧ D.isEmpty d.cbuffer then
      { data := d, frame := .read m len kbuffer, next := .unlock .eof, effects := [] }
    else
      let r := D.remove d.cbuffer kbuffer len
      { data := { d with cbuffer := r.1 }
        frame := .read m len r.2
        next := .signal .prod
        effects := [.change (.remove len)] }
  | .signalled =>
    { data := d, frame := .read m len kbuffer, next := .unlock .ok, effects := [] }

def monitorRelease (m : FMode) (pt : Point) (d : Data β) : MonitorCode β :=
  match pt with
  | .entered =>
    { data := d.add m.role (-1)
      frame := .release m
      next := .signal m.role.other
      effects := [.change (.count m.role (-1))] }
  | .signalled | .relocked =>
    if d.count .cons = 0 ∧ d.count .prod = 0 then
      { data := { d with cbuffer := D.clear d.cbuffer }
        frame := .release m
        next := .unlock .ok
        effects := [.change .clear] }
    else { data := d, frame := .release m, next := .unlock .ok, effects := [] }

def monitorBody : Frame → Point → Data β → MonitorCode β
  | .open m => monitorOpen m
  | .release m => monitorRelease D m
  | .read m len kbuffer => monitorRead D m len kbuffer
  | .write m len kbuffer => monitorWrite D m len kbuffer

/-- `stack` is what `char kbuffer[MAX_KBUF];` starts with. A read checks no length. -/
def monitorSyscall (stack : Nat → UInt8) :
    File → Call → Bool → Option (Entry File Frame Report)
  | .closed, .open m, _ => some (.enter (.open m))
  | .opened m, .release, _ => some (.enter (.release m))
  | .opened m, .read len, _ => if m.read then some (.enter (.read m len stack)) else none
  | .opened m, .write buff, copied =>
    if m.write then
      if D.maxItems < buff.length ∨ D.maxKbuf < buff.length then
        some (.done (.opened m) [.ret .write .error []])
      else if copied then
        some (.enter (.write m buff.length
          (memcpy stack 0 (fun i => buff.getD i 0) 0 buff.length)))
      else some (.done (.opened m) [.ret .write .error []])
    else none
  | _, _, _ => none

def monitorLeave : Frame → Exit → Bool → File × List Report
  | .open m, _, _ => (.opened m, [.ret .open (.done 0) []])
  | .release _, _, _ => (.closed, [.ret .release (.done 0) []])
  | .read m _ _, .eof, _ => (.opened m, [.ret .read (.done 0) []])
  | .read m len kbuffer, _, copied =>
    (.opened m, if copied then [.ret .read (.done len) (CData.read kbuffer len)]
      else [.ret .read .error []])
  | .write m _ _, .epipe, _ => (.opened m, [.ret .write .epipe []])
  | .write m len _, _, _ => (.opened m, [.ret .write (.done len) []])

def monitor (stack : Nat → UInt8) :
    MesaClient (Data β) Role Frame File Call Exit Report where
  data₀ := { cbuffer := D.create, count := fun _ => 0 }
  user₀ := .closed
  syscall := monitorSyscall D stack
  body := monitorBody D
  leave := monitorLeave

/-- Reads and writes of at most `MAX_ITEMS_CBUF` bytes. -/
def fitting : Call → Bool
  | .open _ | .release => true
  | .read len => len ≤ D.maxItems
  | .write buff => buff.length ≤ D.maxItems

variable {D}

theorem copyFromUser_eq (buff : List UInt8) :
    copyFromUser buff = memcpy (fun _ => 0) 0 (fun i => buff.getD i 0) 0 buff.length := by
  rw [copyFromUser, Function.update_eq_self_iff]
  simp [memcpy]

theorem emulates_open (stack : Nat → UInt8) (m : FMode) (pt : Point) (d : Data β)
    (nr : Role → Int) :
    (fifoprocOpen m pt d nr).map Event.report = (monitor D stack).emulated (.open m) pt d nr := by
  cases pt with
  | entered =>
    simp only [MesaClient.emulated, monitor, monitorBody, monitorOpen, fifoprocOpen]
    split
    · rfl
    · rfl
  | signalled | relocked =>
    simp only [MesaClient.emulated, monitor, monitorBody, monitorOpen, fifoprocOpen, openLoop,
      monitorOpenLoop]
    split <;> rfl

theorem emulates_release (stack : Nat → UInt8) (m : FMode) (pt : Point) (d : Data β)
    (nr : Role → Int) :
    (fifoprocRelease D m pt d nr).map Event.report =
      (monitor D stack).emulated (.release m) pt d nr := by
  cases pt with
  | entered =>
    simp only [MesaClient.emulated, monitor, monitorBody, monitorRelease, fifoprocRelease]
    split
    · rfl
    · unfold releaseTail
      split <;> rfl
  | signalled | relocked =>
    simp only [MesaClient.emulated, monitor, monitorBody, monitorRelease, fifoprocRelease,
      releaseTail]
    split <;> rfl

theorem emulates_read (stack : Nat → UInt8) (m : FMode) (len : Nat) (kbuffer : Nat → UInt8)
    (pt : Point) (d : Data β) (nr : Role → Int) :
    (fifoprocRead D m len kbuffer pt d nr).map Event.report =
      (monitor D stack).emulated (.read m len kbuffer) pt d nr := by
  cases pt with
  | entered | relocked =>
    simp only [MesaClient.emulated, monitor, monitorBody, monitorRead, fifoprocRead]
    split
    · rfl
    · split
      · rfl
      · dsimp only
        split <;> rfl
  | signalled => rfl

theorem emulates_write (stack : Nat → UInt8) (m : FMode) (len : Nat) (kbuffer : Nat → UInt8)
    (pt : Point) (d : Data β) (nr : Role → Int) :
    (fifoprocWrite D m len kbuffer pt d nr).map Event.report =
      (monitor D stack).emulated (.write m len kbuffer) pt d nr := by
  cases pt with
  | entered | relocked =>
    simp only [MesaClient.emulated, monitor, monitorBody, monitorWrite, fifoprocWrite]
    split
    · rfl
    · split
      · rfl
      · dsimp only
        split <;> rfl
  | signalled => rfl

theorem next_ne_eintr (f : Frame) (pt : Point) (d : Data β) (nr : Role → Int) :
    (body D f pt d nr).next ≠ .unlock .eintr := by
  have hloop (m : FMode) (d : Data β) (es : List Event) :
      (openLoop m d es).next ≠ .unlock .eintr := by
    unfold openLoop
    dsimp only
    split <;> simp
  have htail (m : FMode) (d : Data β) (es : List Event) :
      (releaseTail D m d es).next ≠ .unlock .eintr := by
    rcases releaseTail_cases (D := D) m d es with ⟨-, -, heq⟩ | ⟨-, heq⟩ <;> simp [heq]
  cases f with
  | «open» m =>
    cases pt with
    | entered =>
      simp only [body, fifoprocOpen]
      split
      · simp
      · exact hloop _ _ _
    | signalled | relocked => exact hloop _ _ _
  | release m =>
    cases pt with
    | entered =>
      simp only [body, fifoprocRelease]
      split
      · simp
      · exact htail _ _ _
    | signalled | relocked => exact htail _ _ _
  | read m len kbuffer =>
    rcases eq_or_ne pt .signalled with rfl | hpt
    · simp [body, fifoprocRead]
    · rw [body]
      rcases fifoprocRead_cases (D := D) m len kbuffer hpt d nr with
        ⟨-, -, heq⟩ | ⟨-, -, -, heq⟩ | ⟨-, -, heq⟩
      · simp [heq]
      · simp [heq]
      · rw [heq]
        dsimp only
        split <;> simp
  | write m len kbuffer =>
    rcases eq_or_ne pt .signalled with rfl | hpt
    · simp [body, fifoprocWrite]
    · rw [body]
      rcases fifoprocWrite_cases (D := D) m len kbuffer hpt d nr with
        ⟨-, -, heq⟩ | ⟨-, heq⟩ | ⟨-, -, heq⟩
      · simp [heq]
      · simp [heq]
      · rw [heq]
        dsimp only
        split <;> simp

/-- The module renders the pseudocode with semaphores, on a stack of zeros. -/
theorem emulates (hkbuf : D.maxItems ≤ D.maxKbuf) :
    Emulates (client D) (monitor D fun _ => 0) Event.report (fitting D) where
  data₀ := rfl
  user₀ := rfl
  enter x c copied f hfit h := by
    rcases enter_cases h with ⟨m, rfl, rfl, rfl⟩ | ⟨m, rfl, rfl, rfl⟩ |
      ⟨m, len, rfl, rfl, hread, -, -, rfl⟩ |
      ⟨m, buff, rfl, rfl, rfl, hwrite, hlen, hlen', rfl⟩
    · rfl
    · rfl
    · simp [monitor, monitorSyscall, hread]
    · simp [monitor, monitorSyscall, hwrite, hlen.not_gt, hlen'.not_gt, copyFromUser_eq]
  done x c copied y es hfit h := by
    cases x with
    | closed => cases c <;> cases h
    | opened m =>
      cases c with
      | «open» | release => cases h
      | read len =>
        have hlen : len ≤ D.maxItems := of_decide_eq_true hfit
        simp only [client, syscall, hlen.not_gt, (hlen.trans hkbuf).not_gt, or_self, if_false,
          Option.ite_none_right_eq_some, reduceCtorEq, and_false, Option.some.injEq] at h
      | write buff =>
        have hlen : buff.length ≤ D.maxItems := of_decide_eq_true hfit
        simp only [client, syscall, hlen.not_gt, (hlen.trans hkbuf).not_gt, or_self, if_false,
          Option.ite_none_right_eq_some] at h
        obtain ⟨hwrite, h⟩ := h
        split at h
        · cases h
        · cases h
          simp [monitor, monitorSyscall, hwrite, hlen.not_gt, (hlen.trans hkbuf).not_gt, ‹¬_›,
            Event.report, Ret.outcome]
  body f pt d nr := by
    cases f with
    | «open» m => exact emulates_open _ m pt d nr
    | release m => exact emulates_release _ m pt d nr
    | read m len kbuffer => exact emulates_read _ m len kbuffer pt d nr
    | write m len kbuffer => exact emulates_write _ m len kbuffer pt d nr
  quiet f d q := by
    cases f with
    | «open» m =>
      simp only [monitor, monitorBody, monitorOpen, monitorOpenLoop]
      split <;> simp
    | release m =>
      simp only [monitor, monitorBody, monitorRelease]
      split <;> simp
    | read | write => simp [monitor, monitorBody, monitorRead, monitorWrite]
  exits := next_ne_eintr
  leave f x copied hx := by
    cases f <;> cases x <;> cases copied <;> first | rfl | exact absurd rfl hx

variable [Fintype ι] [DecidableEq ι]

/-- Without interruptions and with fitting lengths, the effects and the returns of a run are
those of a run of the monitor on the same data; and nobody gets past a wait loop while its
condition holds. -/
theorem refines_monitor {vector : Nat → UInt8} {s : State (Cbuffer UInt8) ι}
    {as : List (ι × Act Call)} {tr : List (ι × Event)}
    (hok : (machine (parteB vector) ι).Along
      (fun _ ia => Uninterrupted (fitting (parteB vector)) ia.2)
      (machine (parteB vector) ι).init as)
    (hrun : (machine (parteB vector) ι).Run as s tr) :
    (∃ bs m, ((monitor (parteB vector) fun _ => 0).machine ι).Run bs m
        (tr.map (Prod.map id Event.report)) ∧ m.data = s.data) ∧
    ∀ i a s' es, (machine (parteB vector) ι).step s (i, a) = some (s', es) →
      past (s.proc i) = false → past (s'.proc i) = true →
      ∃ f st, s.proc i = .inside f st ∧ f.waits (parteB vector) s.data = false := by
  have hkbuf : (parteB vector).maxItems ≤ (parteB vector).maxKbuf := (by decide : 50 ≤ 100)
  refine ⟨refines_mesa (emulates hkbuf) hok hrun, fun i a s' es hstep hbefore hafter => ?_⟩
  obtain ⟨_, hmoves, -⟩ := moves_of_step hstep
  exact not_waits_of_moves hmoves hbefore hafter

theorem refines_monitor_bothOpen :
    ∃ s tr bs m, (machine (parteB fun _ => 0) (Fin 2)).Run bothOpen s tr ∧
      ((monitor (parteB fun _ => 0) fun _ => 0).machine (Fin 2)).Run bs m
        (tr.map (Prod.map id Event.report)) ∧ m.data = s.data := by
  have heval : ((machine (parteB fun _ => 0) (Fin 2)).exec
      (machine (parteB fun _ => 0) (Fin 2)).init bothOpen).map (fun r => r.1.mtx) = some 1 := by
    decide +kernel
  obtain ⟨s, tr, hrun, -⟩ := Machine.exists_run_of_eval heval
  obtain ⟨bs, m, hm, hdata⟩ := (refines_monitor (by decide +kernel) hrun).1
  exact ⟨s, tr, bs, m, hrun, hm, hdata⟩

end LinuxInternals.Fifoproc
