import LinuxInternals.Modtimer.Steps

/-!
# Sessions of `/proc/modtimer`

A session starts when `modtimer_open` gets past its test and ends with `modtimer_release`.
There is one timer for all files. As long as sessions do not overlap it is on between
`add_timer` and `del_timer_sync` of the file that is open, and nowhere else.
-/

namespace LinuxInternals.Modtimer

open SemMonitor Text

variable {ι : Type} [DecidableEq ι] {msecsToJiffies : UInt32 → UInt64}

namespace File

/-- Between `add_timer` and `del_timer_sync`. -/
def timed : File → Bool
  | .opened | .releasing .delTimer => true
  | _ => false

/-- Before `flush_scheduled_work` has returned. -/
def worked : File → Bool
  | .opened | .releasing .delTimer | .releasing .flush => true
  | _ => false

/-- Before `clear_cbuffer_t`. -/
def buffered : File → Bool
  | .opened | .releasing .delTimer | .releasing .flush | .releasing .clear => true
  | _ => false

theorem worked_of_timed {f : File} (h : f.timed = true) : f.worked = true := by
  unfold timed at h
  split at h
  · rfl
  · rfl
  · cases h

theorem buffered_of_worked {f : File} (h : f.worked = true) : f.buffered = true := by
  unfold worked at h
  split at h
  · rfl
  · rfl
  · rfl
  · cases h

end File

namespace State

/-- The timer is pending or `fire_timer` runs. -/
def Active (s : State ι) : Prop := s.timer = true ∨ s.fire ≠ .idle

/-- The step lets `modtimer_open` past its test while another file is open, being opened or
being released. -/
def overlaps [Fintype ι] (s : State ι) : Act ι → Bool
  | .open _ => decide (s.waiting = 0 ∧ ∃ j, s.file j ≠ .closed)
  | _ => false

end State

/-- The only file that may not be closed is in state `f`. -/
structure Sole (s : State ι) (f : File) : Prop where
  file : (f = .closed ∧ s.file = fun _ => .closed) ∨
    ∃ i, s.file = Function.update (fun _ => .closed) i f
  timed : s.Active ↔ f.timed = true
  worked : s.work = true ∨ s.worker ≠ .idle → f.worked = true
  buffered : s.cbuf.size ≠ 0 → f.buffered = true

variable {s s' : State ι} {f v : File} {i : ι}

theorem Sole.eq_of_ne (h : Sole s f) (hi : s.file i ≠ .closed) :
    s.file i = f ∧ s.file = Function.update (fun _ => .closed) i f := by
  rcases h.file with ⟨-, hall⟩ | ⟨j, hj⟩
  · exact absurd (congrFun hall i) hi
  · rcases eq_or_ne i j with rfl | hij
    · exact ⟨by rw [hj, Function.update_self], hj⟩
    · rw [hj, Function.update_of_ne hij] at hi
      exact absurd rfl hi

theorem Sole.others_closed (h : Sole s f) (hi : s.file i ≠ .closed) {j : ι} (hji : j ≠ i) :
    s.file j = .closed := by
  rw [(h.eq_of_ne hi).2, Function.update_of_ne hji]

theorem Sole.file_update (h : Sole s f) (hi : s.file i = v) (hv : v ≠ .closed) (v' : File) :
    f = v ∧ ∃ j, Function.update s.file i v' = Function.update (fun _ => .closed) j v' := by
  obtain ⟨hf, hfile⟩ := h.eq_of_ne (i := i) (by rw [hi]; exact hv)
  refine ⟨hf.symm.trans hi, i, ?_⟩
  rw [hfile, Function.update_idem]

variable [Fintype ι] {a : Act ι} {es : List (Option ι × Event)}

theorem Sole.step (h : Sole s f) (hoverlaps : s.overlaps a = false)
    (hmoves : Moves msecsToJiffies s a s' es) : ∃ f', Sole s' f' := by
  cases hmoves with
  | config | refuse => exact ⟨f, h.file, h.timed, h.worked, h.buffered⟩
  | mon => exact ⟨f, h.file, h.timed, h.worked, h.buffered⟩
  | expire htimer hfire _ =>
    have htimed := h.timed.mp (.inl htimer)
    exact ⟨f, h.file, iff_of_true (.inr (by simp)) htimed, h.worked, h.buffered⟩
  | insert hfire =>
    have htimed := h.timed.mp (.inr (by simp [hfire]))
    exact ⟨f, h.file, iff_of_true (.inr (by simp)) htimed, h.worked,
      fun _ => File.buffered_of_worked (File.worked_of_timed htimed)⟩
  | isPending hfire _ | notPending hfire _ | sizeEq hfire _ | sizeNe hfire _ =>
    have htimed := h.timed.mp (.inr (by simp [hfire]))
    exact ⟨f, h.file, iff_of_true (.inr (by simp)) htimed, h.worked, h.buffered⟩
  | schedule hfire =>
    have htimed := h.timed.mp (.inr (by simp [hfire]))
    exact ⟨f, h.file, iff_of_true (.inr (by simp)) htimed,
      fun _ => File.worked_of_timed htimed, h.buffered⟩
  | modTimer hfire =>
    have htimed := h.timed.mp (.inr (by simp [hfire]))
    exact ⟨f, h.file, iff_of_true (.inl rfl) htimed, h.worked, h.buffered⟩
  | startWork _ hwork =>
    exact ⟨f, h.file, h.timed, fun _ => h.worked (.inl hwork), h.buffered⟩
  | isEmpty hworker _ _ | notEmpty hworker _ =>
    exact ⟨f, h.file, h.timed, fun _ => h.worked (.inr (by simp [hworker])), h.buffered⟩
  | remove hworker =>
    have hworked := h.worked (.inr (by simp [hworker]))
    exact ⟨f, h.file, h.timed, fun _ => hworked, fun _ => File.buffered_of_worked hworked⟩
  | endWork hworker _ =>
    exact ⟨f, h.file, h.timed, fun hwork => h.worked (hwork.imp_right (absurd rfl)), h.buffered⟩
  | @accept i hfile hinside hwaiting =>
    have hclosed : s.file = fun _ => .closed := by
      funext j
      by_contra hj
      simp only [State.overlaps, decide_eq_false_iff_not] at hoverlaps
      exact hoverlaps ⟨hwaiting, j, hj⟩
    have hf : f = .closed := by
      rcases h.file with ⟨hf, -⟩ | ⟨j, hj⟩
      · exact hf
      · exact ((Function.update_self ..).symm.trans (congrFun hj j).symm).trans
          (congrFun hclosed j)
    subst hf
    refine ⟨.opening, .inr ⟨i, ?_⟩, h.timed, h.worked, h.buffered⟩
    simp only [State.setFile, hclosed]
  | addTimer hfile =>
    obtain ⟨rfl, hfile'⟩ := h.file_update hfile (by decide) .opened
    exact ⟨.opened, .inr hfile', iff_of_true (.inl rfl) rfl, fun _ => rfl, fun _ => rfl⟩
  | release hfile _ _ =>
    obtain ⟨rfl, hfile'⟩ := h.file_update hfile (by decide) (.releasing .delTimer)
    exact ⟨.releasing .delTimer, .inr hfile', h.timed, h.worked, h.buffered⟩
  | delTimer hfile hfire =>
    obtain ⟨rfl, hfile'⟩ := h.file_update hfile (by decide) (.releasing .flush)
    refine ⟨.releasing .flush, .inr hfile', iff_of_false ?_ (by decide), fun _ => rfl,
      fun _ => rfl⟩
    rintro (htimer | hne)
    · cases htimer
    · exact hne hfire
  | flush hfile hwork hworker =>
    obtain ⟨rfl, hfile'⟩ := h.file_update hfile (by decide) (.releasing .clear)
    refine ⟨.releasing .clear, .inr hfile', h.timed, ?_, fun _ => rfl⟩
    rintro (hwork' | hne)
    · exact absurd (hwork.symm.trans hwork') (by decide)
    · exact absurd hworker hne
  | clear hfile _ =>
    obtain ⟨rfl, hfile'⟩ := h.file_update hfile (by decide) (.releasing .cleanup)
    exact ⟨.releasing .cleanup, .inr hfile', h.timed, h.worked, absurd rfl⟩
  | cleanup hfile _ =>
    obtain ⟨rfl, hfile'⟩ := h.file_update hfile (by decide) .closed
    exact ⟨.closed, .inr hfile', h.timed, h.worked, h.buffered⟩

variable {vector : Nat → Int32} {hz : Int64}

theorem sole_init : Sole (machine vector hz msecsToJiffies ι).init .closed where
  file := .inl ⟨rfl, rfl⟩
  timed := by
    refine iff_of_false ?_ (by decide)
    rintro (htimer | hne)
    · cases htimer
    · exact hne rfl
  worked := by
    rintro (hwork | hne)
    · cases hwork
    · exact absurd rfl hne
  buffered := absurd rfl

theorem sole_of_run {as : List (Act ι)} {tr : List (Option ι × Event)}
    (hoverlaps : (machine vector hz msecsToJiffies ι).Along (fun s a => s.overlaps a = false)
      (machine vector hz msecsToJiffies ι).init as)
    (hrun : (machine vector hz msecsToJiffies ι).Run as s tr) : ∃ f, Sole s f := by
  refine hrun.invariant (C := fun s a => s.overlaps a = false) (I := fun s _ => ∃ f, Sole s f)
    ⟨.closed, sole_init⟩ ?_ hoverlaps
  rintro s t a s' es ⟨f, hf⟩ ha hstep
  exact hf.step ha (moves_of_step hstep)

omit [Fintype ι] in
/-- `add_timer` is called by a file that is being opened, so the timer is off. -/
theorem not_addTimer_of_step {f : File} (h : Sole s f) (hmoves : Moves msecsToJiffies s a s' es) :
    ∀ p, (p, Event.addTimer true) ∉ es := by
  intro p hp
  cases hmoves with
  | config | expire | isPending | sizeNe | schedule | refuse | cleanup => simp at hp
  | notPending | sizeEq | modTimer | startWork | notEmpty | remove | endWork | accept | release
  | delTimer | flush => cases hp
  | insert _ hes =>
    subst hes
    cases eq_overwritten_of_mem hp
  | isEmpty _ _ hmon | mon _ hmon => cases ofMonitor_of_mem hmon hp
  | clear _ hmon =>
    rcases List.mem_cons.mp hp with hp | hp
    · cases hp
    · cases ofMonitor_of_mem hmon hp
  | addTimer hfile =>
    obtain ⟨hf, -⟩ := h.eq_of_ne (by rw [hfile]; decide)
    have htimer : s.timer = false := by
      apply Bool.eq_false_iff.mpr
      intro htimer
      have htimed := h.timed.mp (.inl htimer)
      rw [← hf, hfile] at htimed
      cases htimed
    simp [htimer] at hp

theorem releasing_of_discarded (hs : (machine vector hz msecsToJiffies ι).Reachable s)
    (hmoves : Moves msecsToJiffies s a s' es) {p : Option ι} {l : List UInt32}
    (hp : (p, Event.discarded l) ∈ es) : ∃ i st, p = some i ∧ s.file i = .releasing st := by
  have hmon {m : Monitor ι} {q : Option ι} {b : SemMonitor.Act (Call ι)}
      {es' : List (Option ι × Event)} (hmon : (monitor ι).step s.mon (q, b) = some (m, es'))
      (hp : (p, Event.discarded l) ∈ es') : ∃ i st, p = some i ∧ s.file i = .releasing st := by
    rcases event_of_mon hmon hp with ⟨hpq, ⟨_, h⟩ | ⟨_, h⟩ | ⟨_, _, _, h⟩ | ⟨_, st, h, hq⟩⟩
    · cases h
    · cases h
    · cases h
    · have hplaced := placed hs q _ _ hq
      cases q with
      | none => exact absurd hplaced id
      | some i => exact ⟨i, _, hpq, hplaced⟩
  cases hmoves with
  | config | expire | isPending | sizeNe | schedule | refuse | cleanup | addTimer => simp at hp
  | notPending | sizeEq | modTimer | startWork | notEmpty | remove | endWork | accept | release
  | delTimer | flush => cases hp
  | insert _ hes =>
    subst hes
    cases eq_overwritten_of_mem hp
  | isEmpty _ _ hstep | mon _ hstep => exact hmon hstep hp
  | clear hfile hstep =>
    rcases List.mem_cons.mp hp with hp | hp
    · cases hp
      exact ⟨_, _, rfl, hfile⟩
    · exact hmon hstep hp

/-- What the lifecycle of the timer should be, at a state and the trace up to it. -/
structure State.LifecycleOk (msecsToJiffies : UInt32 → UInt64) (s : State ι)
    (tr : List (Option ι × Event)) : Prop where
  addTimer : ∀ p, (p, Event.addTimer true) ∉ tr
  open_active : ∀ i, s.file i = .opened → s.Active
  closed_inactive : (∀ i, s.file i = .closed) → ¬s.Active
  discards : ∀ a s' es i l, step msecsToJiffies s a = some (s', es) →
    (some i, Event.discarded l) ∈ es → ∀ j, j ≠ i → s.file j ≠ .opened

theorem Sole.lifecycleOk (h : Sole s f) (hs : (machine vector hz msecsToJiffies ι).Reachable s)
    {tr : List (Option ι × Event)} (htr : ∀ p, (p, Event.addTimer true) ∉ tr) :
    s.LifecycleOk msecsToJiffies tr where
  addTimer := htr
  open_active i hi := by
    obtain ⟨hf, -⟩ := h.eq_of_ne (i := i) (by rw [hi]; decide)
    apply h.timed.mpr
    rw [← hf, hi]
    rfl
  closed_inactive hclosed hactive := by
    have htimed := h.timed.mp hactive
    rcases h.file with ⟨rfl, -⟩ | ⟨i, hi⟩
    · cases htimed
    · have hf : f = .closed := by
        rw [← hclosed i, hi, Function.update_self]
      subst hf
      cases htimed
  discards a s' es i l hstep hl j hji := by
    obtain ⟨k, st, hk, hfile⟩ := releasing_of_discarded hs (moves_of_step hstep) hl
    cases hk
    rw [h.others_closed (by rw [hfile]; simp) hji]
    decide

/-- As long as no session starts before the one before it has ended, the timer is on when it
should be, is never added twice, and a release discards nobody else's numbers. -/
theorem lifecycle_of_sessions {as : List (Act ι)} {tr : List (Option ι × Event)}
    (hoverlaps : (machine vector hz msecsToJiffies ι).Along (fun s a => s.overlaps a = false)
      (machine vector hz msecsToJiffies ι).init as)
    (hrun : (machine vector hz msecsToJiffies ι).Run as s tr) :
    s.LifecycleOk msecsToJiffies tr := by
  obtain ⟨f, hf⟩ := sole_of_run hoverlaps hrun
  apply hf.lifecycleOk hrun.reachable
  have hinv : (∃ f, Sole s f) ∧ ∀ p, (p, Event.addTimer true) ∉ tr := by
    refine hrun.invariant (C := fun s a => s.overlaps a = false)
      (I := fun s tr => (∃ f, Sole s f) ∧ ∀ p, (p, Event.addTimer true) ∉ tr)
      ⟨⟨.closed, sole_init⟩, fun p hp => by cases hp⟩ ?_ hoverlaps
    rintro s t a s' es ⟨⟨f, hf⟩, htr⟩ ha hstep
    have hmoves := moves_of_step hstep
    refine ⟨hf.step ha hmoves, fun p hp => ?_⟩
    rcases List.mem_append.mp hp with hp | hp
    · exact htr p hp
    · exact not_addTimer_of_step hf hmoves p hp
  exact hinv.2

/-- Two processes open the entry one after the other. -/
def twoOpens : List (Act Bool) := [.open false, .file false, .open true, .file true]

/-- The second `modtimer_open` adds the timer while it is pending. -/
theorem twoOpens_addTimer :
    ∃ s tr, (machine (fun _ => 0) 250 (fun _ => 1) Bool).Run twoOpens s tr ∧
      (some true, Event.addTimer true) ∈ tr ∧ ¬s.LifecycleOk (fun _ => 1) tr := by
  have heval : ((machine (fun _ => 0) 250 (fun _ => 1) Bool).exec
      (machine (fun _ => 0) 250 (fun _ => 1) Bool).init twoOpens).map
        (fun r => decide ((some true, Event.addTimer true) ∈ r.2)) = some true := by
    decide +kernel
  obtain ⟨s, tr, hrun, hs⟩ := Machine.exists_run_of_eval heval
  have hmem := of_decide_eq_true hs
  exact ⟨s, tr, hrun, hmem, fun hok => hok.addTimer _ hmem⟩

/-- One session after the other. -/
def twoSessions : List (Act Bool) :=
  [.open false, .file false, .expire 7, .fire, .fire, .fire, .fire, .release false, .file false,
    .file false, .file false, .mon (some false) (.run true), .mon (some false) (.run true),
    .file false, .open true, .file true]

theorem lifecycle_of_sessions_twoSessions :
    ∃ s tr, (machine (fun _ => 0) 250 (fun _ => 1) Bool).Run twoSessions s tr ∧
      s.LifecycleOk (fun _ => 1) tr := by
  have heval : ((machine (fun _ => 0) 250 (fun _ => 1) Bool).exec
      (machine (fun _ => 0) 250 (fun _ => 1) Bool).init twoSessions).map
        (fun _ => true) = some true := by
    decide +kernel
  obtain ⟨s, tr, hrun, -⟩ := Machine.exists_run_of_eval heval
  exact ⟨s, tr, hrun, lifecycle_of_sessions (by decide +kernel) hrun⟩

end LinuxInternals.Modtimer
