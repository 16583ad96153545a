import LinuxInternals.Modtimer.Steps

/-!
# The flush of the circular buffer

`fire_timer` schedules the transfer to the list when the size of the buffer is equal to the
target. The size grows by one from one check to the next, so it cannot get past a target that
stays where it is, or that a transfer under way is about to bring out of reach. A write of
the configuration can lower the target to a size that has been checked already.
-/

namespace LinuxInternals.Modtimer

open CData SemMonitor Text

theorem target_eq {cfg : Config} (hlo : 10 ≤ cfg.emergencyThreshold.toInt)
    (hhi : cfg.emergencyThreshold.toInt ≤ 100) :
    target cfg = cfg.emergencyThreshold.toInt * 10 / 100 := by
  have hten : (10 : Int64).toInt = 10 := rfl
  have hhundred : (100 : Int64).toInt = 100 := rfl
  have hmul : (cfg.emergencyThreshold * 10).toInt = cfg.emergencyThreshold.toInt * 10 := by
    rw [Int64.toInt_mul, hten, Int.bmod_eq_of_le (by omega) (by omega)]
  rw [target, Int64.toInt_div, hmul, hhundred, Int.tdiv_eq_ediv_of_nonneg (by omega),
    Int.bmod_eq_of_le (by omega) (by omega)]

variable {ι : Type} [DecidableEq ι] {msecsToJiffies : UInt32 → UInt64}

def Worker.draining : Worker → Bool
  | .testEmpty _ | .remove _ => true
  | .idle | .adding => false

def Fire.scheduling : Fire → Bool
  | .schedule _ => true
  | .idle | .insert _ | .testPending | .testSize | .modTimer => false

namespace State

/-- The transfer work is pending, or `copy_items_into_list_func` is in its loop. -/
def Underway (s : State ι) : Prop := s.work = true ∨ s.worker.draining = true

def Scheduling (s : State ι) : Prop := s.fire.scheduling = true

/-- The size of the buffer without an item that has not been through its check. -/
def checkedSize (s : State ι) : Int :=
  match s.fire with
  | .testPending | .testSize => s.cbuf.size - 1
  | _ => s.cbuf.size

/-- `fire_timer` is not between its insertion and the end of its check. -/
def Checked (s : State ι) : Prop := s.fire ≠ .testPending ∧ s.fire ≠ .testSize ∧ ¬s.Scheduling

/-- Writes of the configuration set `emergency_threshold` to values from 10 to 100. -/
def InRange (msecsToJiffies : UInt32 → UInt64) (s : State ι) : Act ι → Prop
  | .config off buf copied =>
    let cfg := (modtimerConfigWrite msecsToJiffies s.config off buf copied).1
    10 ≤ cfg.emergencyThreshold.toInt ∧ cfg.emergencyThreshold.toInt ≤ 100
  | _ => True

/-- The write lowers the target to a size that has been checked, and no transfer is under way
or about to be scheduled. -/
def Undercuts (msecsToJiffies : UInt32 → UInt64) (s : State ι) : Act ι → Prop
  | .config off buf copied =>
    target (modtimerConfigWrite msecsToJiffies s.config off buf copied).1 ≤ s.checkedSize ∧
      ¬s.Underway ∧ ¬s.Scheduling
  | _ => False

instance (s : State ι) : Decidable s.Underway := inferInstanceAs (Decidable (_ ∨ _))

instance (s : State ι) : Decidable s.Scheduling := inferInstanceAs (Decidable (_ = _))

instance InRange.decidable (s : State ι) : (a : Act ι) → Decidable (s.InRange msecsToJiffies a)
  | .config _ _ _ => inferInstanceAs (Decidable (_ ∧ _))
  | .expire _ | .fire | .work | .open _ | .release _ | .file _ | .mon _ _ => isTrue trivial

instance Undercuts.decidable (s : State ι) :
    (a : Act ι) → Decidable (s.Undercuts msecsToJiffies a)
  | .config _ _ _ => inferInstanceAs (Decidable (_ ∧ _))
  | .expire _ | .fire | .work | .open _ | .release _ | .file _ | .mon _ _ => isFalse id

/-- Unless a transfer is coming, the target is still ahead. -/
structure Ahead (s : State ι) : Prop where
  range : 10 ≤ s.config.emergencyThreshold.toInt ∧ s.config.emergencyThreshold.toInt ≤ 100
  ahead : s.Underway ∨ s.Scheduling ∨ s.checkedSize < target s.config

end State

open State

variable {s s' : State ι} {a : Act ι} {es : List (Option ι × Event)}

omit [DecidableEq ι] in
theorem State.Ahead.target_pos (h : s.Ahead) : 1 ≤ target s.config := by
  obtain ⟨hlo, hhi⟩ := h.range
  rw [target_eq hlo hhi]
  omega

theorem sizeCbufferT_eq {c : Cbuffer Int32} (h : Buffered c) : c.sizeCbufferT = c.size := by
  have hle := h.size_le
  rw [h.maxSize_eq] at hle
  rw [Cbuffer.sizeCbufferT, i32_of_range (by omega) (by omega)]

omit [DecidableEq ι] in
theorem State.Ahead.of_checked (h : s.Ahead) (hsched : ¬s.Scheduling)
    (hconfig : s'.config = s.config) (hunder : s.Underway → s'.Underway)
    (hsize : s.checkedSize < target s.config → s'.checkedSize < target s.config) : s'.Ahead := by
  constructor
  · rw [hconfig]
    exact h.range
  · rw [hconfig]
    rcases h.ahead with hunder' | hsched' | hlt
    · exact .inl (hunder hunder')
    · exact absurd hsched' hsched
    · exact .inr (.inr (hsize hlt))

omit [DecidableEq ι] in
theorem not_scheduling {f : Fire} (hfire : s.fire = f) (hf : f.scheduling = false) :
    ¬s.Scheduling := by
  rw [State.Scheduling, hfire, hf]
  decide

/-- A check that does not find the size equal to the target leaves the target ahead. -/
theorem State.Ahead.step (h : s.Ahead) (hbuf : Buffered s.cbuf)
    (hrange : s.InRange msecsToJiffies a) (hcuts : ¬s.Undercuts msecsToJiffies a)
    (hmoves : Moves msecsToJiffies s a s' es) : s'.Ahead := by
  have hpos := h.target_pos
  cases hmoves with
  | config hr =>
    subst hr
    refine ⟨hrange, ?_⟩
    by_contra hnot
    obtain ⟨hunder, hnot⟩ := not_or.mp hnot
    obtain ⟨hsched, hsize⟩ := not_or.mp hnot
    exact hcuts ⟨not_lt.mp hsize, hunder, hsched⟩
  | refuse | accept | addTimer | release | delTimer | flush | cleanup | mon =>
    exact ⟨h.range, h.ahead⟩
  | expire _ hfire _ =>
    refine h.of_checked (not_scheduling hfire rfl) rfl id fun hlt => ?_
    simpa [checkedSize, hfire] using hlt
  | @insert n _ hfire _ =>
    refine h.of_checked (not_scheduling hfire rfl) rfl id fun hlt => ?_
    have hsize := hbuf.size_insert n.toInt32
    simp only [checkedSize, hfire] at hlt ⊢
    omega
  | isPending _ hwork => exact ⟨h.range, .inl (.inl hwork)⟩
  | notPending hfire _ =>
    refine h.of_checked (not_scheduling hfire rfl) rfl id fun hlt => ?_
    simpa [checkedSize, hfire] using hlt
  | sizeEq => exact ⟨h.range, .inr (.inl rfl)⟩
  | sizeNe hfire hne =>
    refine h.of_checked (not_scheduling hfire rfl) rfl id fun hlt => ?_
    rw [sizeCbufferT_eq hbuf] at hne
    simp only [checkedSize, hfire] at hlt ⊢
    omega
  | schedule => exact ⟨h.range, .inl (.inl rfl)⟩
  | modTimer hfire =>
    refine h.of_checked (not_scheduling hfire rfl) rfl id fun hlt => ?_
    simpa [checkedSize, hfire] using hlt
  | startWork => exact ⟨h.range, .inl (.inr rfl)⟩
  | isEmpty _ hempty _ =>
    have hzero : s.cbuf.size = 0 := beq_iff_eq.mp hempty
    refine ⟨h.range, .inr (.inr ?_)⟩
    simp only [checkedSize, hzero]
    split <;> omega
  | notEmpty => exact ⟨h.range, .inl (.inr rfl)⟩
  | remove => exact ⟨h.range, .inl (.inr rfl)⟩
  | endWork hworker _ =>
    refine ⟨h.range, h.ahead.imp_left ?_⟩
    rintro (hwork | hdraining)
    · exact .inl hwork
    · rw [hworker] at hdraining
      cases hdraining
  | clear =>
    refine ⟨h.range, .inr (.inr ?_)⟩
    change State.checkedSize _ < target s.config
    simp only [checkedSize, Cbuffer.clearCbufferT]
    split <;> omega

omit [DecidableEq ι] in
theorem State.Ahead.underway_of_checked (h : s.Ahead) (hchecked : s.Checked)
    (hsize : target s.config ≤ s.cbuf.size) : s.Underway := by
  obtain ⟨hpending, htest, hsched⟩ := hchecked
  rcases h.ahead with hunder | hsched' | hlt
  · exact hunder
  · exact absurd hsched' hsched
  · have heq : s.checkedSize = s.cbuf.size := by
      unfold checkedSize
      split
      · exact absurd ‹_› hpending
      · exact absurd ‹_› htest
      · rfl
    omega

/-- A check that has seen the target reached, or has not looked, ends with a transfer coming. -/
theorem State.Ahead.underway_of_check (h : s.Ahead) (hbuf : Buffered s.cbuf)
    (hmoves : Moves msecsToJiffies s a s' es) {seen : Option Int}
    (hes : (none, Event.checked seen) ∈ es) (hseen : ∀ n ∈ seen, target s'.config ≤ n) :
    s'.Underway := by
  cases hmoves with
  | config | expire | refuse | addTimer | cleanup => simp at hes
  | notPending | sizeEq | modTimer | startWork | notEmpty | remove | endWork | accept | release
  | delTimer | flush => cases hes
  | insert _ hes' =>
    subst hes'
    cases eq_overwritten_of_mem hes
  | isPending _ hwork => exact .inl hwork
  | schedule => exact .inl rfl
  | sizeNe hfire hne =>
    obtain rfl : seen = some s.cbuf.sizeCbufferT := by simpa using hes
    have hle : target s.config ≤ s.cbuf.sizeCbufferT := hseen _ rfl
    rw [sizeCbufferT_eq hbuf] at hne hle
    rcases h.ahead with hunder | hsched | hlt
    · exact hunder
    · exact absurd hsched (not_scheduling hfire rfl)
    · simp only [checkedSize, hfire] at hlt
      omega
  | isEmpty _ _ hmon | mon _ hmon => cases ofMonitor_of_mem hmon hes
  | clear _ hmon =>
    rcases List.mem_cons.mp hes with hes | hes
    · cases hes
    · cases ofMonitor_of_mem hmon hes

variable [Fintype ι] {vector : Nat → Int32} {hz : Int64}

theorem ahead_init : (machine vector hz msecsToJiffies ι).init.Ahead := by
  have hthreshold :
      (machine vector hz msecsToJiffies ι).init.config.emergencyThreshold.toInt = 80 := by
    have heval : (80 : Int64).toInt = 80 := by decide
    exact heval
  have hsize : (machine vector hz msecsToJiffies ι).init.checkedSize = 0 := rfl
  have hrange : 10 ≤ (80 : Int) ∧ (80 : Int) ≤ 100 := by decide
  rw [← hthreshold] at hrange
  refine ⟨hrange, .inr (.inr ?_)⟩
  rw [hsize, target_eq hrange.1 hrange.2, hthreshold]
  decide

theorem ahead_of_run {as : List (Act ι)} {tr : List (Option ι × Event)}
    (hwrites : (machine vector hz msecsToJiffies ι).Along
      (fun s a => s.InRange msecsToJiffies a ∧ ¬s.Undercuts msecsToJiffies a)
      (machine vector hz msecsToJiffies ι).init as)
    (hrun : (machine vector hz msecsToJiffies ι).Run as s tr) : s.Ahead := by
  have hinv : (machine vector hz msecsToJiffies ι).Reachable s ∧ s.Ahead := by
    refine hrun.invariant
      (C := fun s a => s.InRange msecsToJiffies a ∧ ¬s.Undercuts msecsToJiffies a)
      (I := fun s _ => (machine vector hz msecsToJiffies ι).Reachable s ∧ s.Ahead)
      ⟨Machine.run_nil.reachable, ahead_init⟩ ?_ hwrites
    rintro s t a s' es ⟨hs, hahead⟩ ⟨hrange, hcuts⟩ hstep
    exact ⟨hs.step hstep, hahead.step (buffered hs) hrange hcuts (moves_of_step hstep)⟩
  exact hinv.2

/-- As long as no write of the configuration undercuts a size that has been checked, a check
that sees the target reached ends with a transfer pending or draining, and the buffer does not
stay at the target without one. -/
theorem flush_not_missed {as : List (Act ι)} {tr : List (Option ι × Event)}
    (hwrites : (machine vector hz msecsToJiffies ι).Along
      (fun s a => s.InRange msecsToJiffies a ∧ ¬s.Undercuts msecsToJiffies a)
      (machine vector hz msecsToJiffies ι).init as)
    (hrun : (machine vector hz msecsToJiffies ι).Run as s tr) :
    (∀ a s' es seen, step msecsToJiffies s a = some (s', es) →
      (none, Event.checked seen) ∈ es → (∀ n ∈ seen, target s'.config ≤ n) → s'.Underway) ∧
    (s.Checked → target s.config ≤ s.cbuf.size → s.Underway) := by
  have hahead := ahead_of_run hwrites hrun
  constructor
  · intro a s' es seen hstep
    exact hahead.underway_of_check (buffered hrun.reachable) (moves_of_step hstep)
  · exact hahead.underway_of_checked

/-- Five numbers are in the buffer when the threshold goes from 80 to 30. -/
def loweredThreshold : List (Act Unit) :=
  [.open (), .file ()] ++
    (List.replicate 5 [.expire 7, .fire, .fire, .fire, .fire]).flatten ++
    [.config 0 (bytes "emergency_threshold 30") true, .expire 7, .fire, .fire]

/-- The next check sees six numbers, above the target, and schedules nothing. -/
theorem loweredThreshold_missed :
    ∃ s tr s', (machine (fun _ => 0) 250 (fun _ => 1) Unit).Run loweredThreshold s tr ∧
      step (fun _ => 1) s .fire = some (s', [(none, .checked (some 6))]) ∧
      target s'.config = 3 ∧ ¬s'.Underway := by
  have heval : ((machine (fun _ => 0) 250 (fun _ => 1) Unit).exec
      (machine (fun _ => 0) 250 (fun _ => 1) Unit).init loweredThreshold).map
        (fun r => (r.1.fire, r.1.cbuf.sizeCbufferT, target r.1.config, r.1.work, r.1.worker)) =
      some (.testSize, 6, 3, false, .idle) := by
    decide +kernel
  obtain ⟨s, tr, hrun, hs⟩ := Machine.exists_run_of_eval heval
  simp only [Prod.mk.injEq] at hs
  obtain ⟨hfire, hsize, htarget, hwork, hworker⟩ := hs
  refine ⟨s, tr, { s with fire := .modTimer }, hrun, ?_, htarget, ?_⟩
  · simp [step, fireTimer, hfire, hsize, htarget]
  · simp [State.Underway, hwork, hworker, Worker.draining]

/-- The same with a target that is still ahead of the buffer. -/
def raisedThreshold : List (Act Unit) :=
  [.open (), .file (), .expire 7, .fire, .fire, .fire, .fire,
    .config 0 (bytes "emergency_threshold 20") true, .expire 7, .fire, .fire, .fire]

theorem flush_not_missed_raisedThreshold :
    ∃ s tr s', (machine (fun _ => 0) 250 (fun _ => 1) Unit).Run raisedThreshold s tr ∧
      step (fun _ => 1) s .fire = some (s', [(none, .checked (some 2))]) ∧ s'.Underway := by
  have heval : ((machine (fun _ => 0) 250 (fun _ => 1) Unit).exec
      (machine (fun _ => 0) 250 (fun _ => 1) Unit).init raisedThreshold).map
        (fun r => (r.1.fire, target r.1.config)) = some (.schedule 2, 2) := by
    decide +kernel
  obtain ⟨s, tr, hrun, hs⟩ := Machine.exists_run_of_eval heval
  simp only [Prod.mk.injEq] at hs
  obtain ⟨hfire, htarget⟩ := hs
  have hstep : step (fun _ => 1) s .fire =
      some ({ s with work := true, fire := .modTimer }, [(none, .checked (some 2))]) := by
    simp [step, fireTimer, hfire]
  refine ⟨s, tr, _, hrun, hstep, ?_⟩
  refine (flush_not_missed ?_ hrun).1 .fire _ _ (some 2) hstep (by simp) (by simp [htarget])
  decide +kernel

end LinuxInternals.Modtimer
