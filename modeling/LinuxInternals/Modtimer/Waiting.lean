import LinuxInternals.Lib.SemMonitor.Counter
import LinuxInternals.Modtimer.Steps

/-!
# The counter `waiting`

`my_list_add` lowers `waiting` when it posts a unit, and a reader that is interrupted in its
sleep lowers it too. Both do so for one reader when the waker is first to take `list_mtx`: the
unit is left over, and `waiting` may go below zero. `modtimer_open` then refuses to open.
-/

namespace LinuxInternals.Modtimer

open SemMonitor Text

variable {ι : Type} [Fintype ι] [DecidableEq ι] {msecsToJiffies : UInt32 → UInt64}
  {vector : Nat → Int32} {hz : Int64} {s s' : State ι}

namespace State

/-- No process is inside `modtimer_read`. -/
def Unread (s : State ι) : Prop := ∀ i p, s.reads i p = false

instance (s : State ι) : Decidable s.Unread := inferInstanceAs (Decidable (∀ _ _, _))

def WaitingExact (s : State ι) : Prop := 0 ≤ s.waiting ∧ (s.Unread → s.waiting = 0)

/-- The step is `waiting--` of an interrupted reader although `sem_list` already holds a unit
for each reader that has raised `waiting` and is neither woken nor back from its wait. -/
def overdraws (s : State ι) : Act ι → Bool
  | .mon p b => SemMonitor.overdraws .semList s.mon (p, b)
  | _ => false

end State

omit [Fintype ι] [DecidableEq ι] in
theorem postsToWaiting : (client ι).PostsToWaiting := by
  intro f pt d nr q hnext
  cases f with
  | read j off len out =>
    cases pt with
    | entered | relocked => cases d <;> cases hnext
    | signalled => cases hnext
  | cleanup => cases pt <;> cases hnext
  | add aux copied =>
    cases pt with
    | signalled | relocked => cases hnext
    | entered =>
      simp only [client, body, myListAdd] at hnext
      split at hnext
      · exact (‹_ ∧ 0 < nr .semList›).2
      · cases hnext

omit [Fintype ι] [DecidableEq ι] in
theorem frame_of_block {f : Frame ι} {pt : Point} {d : List UInt32} {nr : Queue → Int} {q : Queue}
    (h : (body f pt d nr).next = .block q) :
    ∃ j off len out, (body f pt d nr).frame = .read j off len out := by
  cases f with
  | read j off len out =>
    cases pt with
    | entered | relocked => cases d <;> exact ⟨_, _, _, _, rfl⟩
    | signalled => exact ⟨_, _, _, _, rfl⟩
  | cleanup => cases pt <;> cases h
  | add aux copied =>
    cases pt with
    | signalled | relocked => cases h
    | entered =>
      simp only [body, myListAdd] at h
      split at h <;> cases h

theorem reads_of_pending (h : (machine vector hz msecsToJiffies ι).Reachable s) {p : Option ι}
    (hp : (s.mon.proc p).pending .semList = true) : ∃ i, s.reads i p = true := by
  cases hproc : s.mon.proc p with
  | user x =>
    rw [hproc] at hp
    cases hp
  | inside f st =>
    obtain ⟨j, off, len, out, rfl⟩ := pending_frame
      (R := fun f _ => ∃ j off len out, f = .read j off len out)
      (fun _ _ _ _ _ hnext => frame_of_block hnext) (reachable_mon h) hproc hp
    exact ⟨j, reads_of_inside hproc⟩

theorem waiting_of_unread (h : (machine vector hz msecsToJiffies ι).Reachable s)
    (hunread : s.Unread) : s.waiting + s.mon.sem .semList = 0 := by
  have hnobody : headcount (Proc.pending .semList) s.mon.proc = 0 := by
    rw [headcount_eq_zero_iff]
    intro p
    by_contra hp
    obtain ⟨i, hi⟩ := reads_of_pending h (Bool.of_not_eq_false hp)
    exact absurd hi (by simp [hunread i p])
  have hsum := waiting_conserved (reachable_mon h) .semList
  rw [hnobody] at hsum
  exact hsum

/-- With nobody inside `modtimer_read` the counter can only be off by being negative. -/
theorem waitingExact_iff (h : (machine vector hz msecsToJiffies ι).Reachable s) :
    s.WaitingExact ↔ 0 ≤ s.waiting := by
  constructor
  · exact And.left
  · intro hpos
    refine ⟨hpos, fun hunread => ?_⟩
    have hsum := waiting_of_unread h hunread
    omega

omit [Fintype ι] in
theorem nrWaiting_of_call {m m' : Monitor ι} {p : Option ι} {c : Call ι} {copied : Bool}
    {es : List (Option ι × Event)} (h : (monitor ι).step m (p, .call c copied) = some (m', es)) :
    m'.nrWaiting = m.nrWaiting := by
  obtain ⟨es, hmoves, -, -⟩ := SemMonitor.moves_of_step h
  exact congrArg Shared.nrWaiting hmoves.shared_of_call

theorem waitingExact_step (h : (machine vector hz msecsToJiffies ι).Reachable s)
    (hs : s.WaitingExact) {a : Act ι} {es : List (Option ι × Event)}
    (hstep : step msecsToJiffies s a = some (s', es)) :
    s'.WaitingExact ↔ s.overdraws a = false := by
  rw [waitingExact_iff (h.step hstep)]
  cases moves_of_step hstep with
  | config | expire | insert | isPending | notPending | sizeEq | sizeNe | schedule | modTimer
  | startWork | notEmpty | remove | endWork | refuse | accept | addTimer | release | delTimer
  | flush | cleanup =>
    exact iff_of_true hs.1 rfl
  | isEmpty _ _ hmon | clear _ hmon =>
    refine iff_of_true ?_ rfl
    rw [State.waiting, nrWaiting_of_call hmon]
    exact hs.1
  | mon _ hmon => exact nrWaiting_nonneg_step postsToWaiting (reachable_mon h) hs.1 hmon

theorem waitingExact_init : (machine vector hz msecsToJiffies ι).init.WaitingExact :=
  ⟨le_rfl, fun _ => rfl⟩

/-- The counter is exact throughout a run in which no interrupted reader comes too late, and
only there. -/
theorem waiting_exact {as : List (Act ι)} {tr : List (Option ι × Event)}
    (h : (machine vector hz msecsToJiffies ι).Run as s tr) :
    (machine vector hz msecsToJiffies ι).Always (fun s _ => s.WaitingExact) as ↔
      (machine vector hz msecsToJiffies ι).Along (fun s a => s.overdraws a = false)
        (machine vector hz msecsToJiffies ι).init as :=
  h.always_iff_along waitingExact_init fun _ _ _ _ _ hs hexact hstep =>
    waitingExact_step hs hexact hstep

/-- A reader is interrupted in its sleep, and `my_list_add` posts a unit before the reader
gets `list_mtx`. -/
def lateReader : List (Act Bool) :=
  [.config 0 (bytes "emergency_threshold 10") true, .open false, .file false,
    .mon (some false) (.call (.read false 0 64) true), .mon (some false) (.run true),
    .mon (some false) (.run true), .expire 7, .fire, .fire, .fire, .fire,
    .mon (some false) .intr, .work, .work, .work, .work, .mon none (.run true),
    .mon none (.run true), .mon none (.run true), .mon (some false) (.run true),
    .mon (some false) (.run true)]

/-- `waiting` ends at -1 with nobody left in `modtimer_read`, and the other process is refused. -/
theorem lateReader_undercounts :
    ∃ s tr, (machine (fun _ => 0) 250 (fun _ => 1) Bool).Run lateReader s tr ∧ s.Unread ∧
      s.waiting = -1 ∧ step (fun _ => 1) s (.open true) = some (s, [(some true, .opened 1)]) := by
  have heval : ((machine (fun _ => 0) 250 (fun _ => 1) Bool).exec
      (machine (fun _ => 0) 250 (fun _ => 1) Bool).init lateReader).map
        (fun r => (decide r.1.Unread, r.1.waiting, r.1.file true, r.1.inside (some true))) =
      some (true, -1, .closed, false) := by
    decide +kernel
  obtain ⟨s, tr, hrun, hs⟩ := Machine.exists_run_of_eval heval
  simp only [Prod.mk.injEq, decide_eq_true_eq] at hs
  obtain ⟨hunread, hwaiting, hfile, hinside⟩ := hs
  refine ⟨s, tr, hrun, hunread, hwaiting, ?_⟩
  simp [step, hfile, hinside, hwaiting]

theorem waiting_exact_lateReader :
    ∃ s tr, (machine (fun _ => 0) 250 (fun _ => 1) Bool).Run (lateReader.take 19) s tr ∧
      (machine (fun _ => 0) 250 (fun _ => 1) Bool).Always (fun s _ => s.WaitingExact)
        (lateReader.take 19) := by
  have heval : ((machine (fun _ => 0) 250 (fun _ => 1) Bool).exec
      (machine (fun _ => 0) 250 (fun _ => 1) Bool).init (lateReader.take 19)).map
        (fun _ => true) = some true := by
    decide +kernel
  obtain ⟨s, tr, hrun, -⟩ := Machine.exists_run_of_eval heval
  exact ⟨s, tr, hrun, (waiting_exact hrun).mpr (by decide +kernel)⟩

end LinuxInternals.Modtimer
