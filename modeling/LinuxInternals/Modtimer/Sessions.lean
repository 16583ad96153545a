import LinuxInternals.Modtimer.Delivery

/-!
# What a session leaves behind

`modtimer_release` stops the timer, waits for the worker, and empties the buffer and the list. As
long as sessions do not overlap, and `list_cleanup` is not interrupted, the next session starts with
nothing, and its readers get numbers of their own session only.
-/

namespace LinuxInternals.Modtimer

open SemMonitor Text

variable {ι : Type} [DecidableEq ι] {msecsToJiffies : UInt32 → UInt64} {s s' : State ι}
  {a : Act ι} {es : List (Option ι × Event)}

/-- Before `add_timer`, or behind `clear_cbuffer_t`. -/
def File.past : File → Bool
  | .closed | .opening | .releasing .cleanup => true
  | _ => false

namespace State

/-- `list_cleanup` is interrupted, and leaves the list as it is. -/
def spares (s : State ι) : Act ι → Bool
  | .mon p .intr =>
    match s.mon.proc p with
    | .inside .cleanup _ => true
    | _ => false
  | _ => false

/-- The file has no session, or one whose `list_cleanup` has been through the list. -/
def Past (s : State ι) (i : ι) : Prop :=
  (s.file i).past = true ∧ s.mon.proc (some i) ≠ .inside .cleanup .lock

/-- Between sessions the list is empty. -/
def Swept (s : State ι) : Prop := (∀ i, s.Past i) → s.mon.data = []

end State

omit [DecidableEq ι] in
/-- Without `my_list_add`, nothing comes into an empty list. -/
theorem data_nil_of_moves {sh sh' : Shared (List UInt32) Queue}
    {p p' : Proc Unit (Frame ι) Queue Exit} {b : SemMonitor.Act (Call ι)} {evs : List Event}
    (h : (client ι).Moves sh p b sh' p' evs)
    (hadd : ∀ aux copied st, p ≠ .inside (.add aux copied) st) (hdata : sh.data = []) :
    sh'.data = [] := by
  cases p with
  | user => cases h <;> exact hdata
  | inside f st =>
    rcases h.inside_cases with ⟨-, -, -, -, hd, -⟩ | ⟨pt, nr, -, -, -, hd, -⟩ | ⟨-, -, -, -, hd, -⟩
    · exact hd.trans hdata
    · rw [hd, hdata]
      cases f with
      | read j off len out => cases pt <;> rfl
      | add aux copied => exact absurd rfl (hadd aux copied st)
      | cleanup => cases pt <;> rfl
    · exact hd.trans hdata

omit [DecidableEq ι] in
/-- `list_cleanup` starts with the lock, and the list is empty when it has it. -/
theorem cleanup_of_lock {sh sh' : Shared (List UInt32) Queue}
    {p' : Proc Unit (Frame ι) Queue Exit} {b : SemMonitor.Act (Call ι)} {evs : List Event}
    (h : (client ι).Moves sh (.inside .cleanup .lock) b sh' p' evs) (hb : b ≠ .intr) :
    sh'.data = [] := by
  cases h with
  | lock _ hg =>
    subst hg
    rw [Client.commit_data]
    rfl
  | lockIntr => exact absurd rfl hb

variable [Fintype ι] {vector : Nat → Int32} {hz : Int64}

omit [Fintype ι] in
/-- Between sessions no work is pending or under way. -/
theorem Sole.idle_of_past {f : File} (h : Sole s f) (hpast : ∀ i, (s.file i).past = true) :
    s.work = false ∧ s.worker = .idle := by
  have hf : f.worked = false := by
    rcases h.file with ⟨rfl, -⟩ | ⟨i, hi⟩
    · rfl
    · have hfile := hpast i
      rw [hi, Function.update_self] at hfile
      unfold File.past at hfile
      split at hfile
      · rfl
      · rfl
      · rfl
      · cases hfile
  constructor
  · apply Bool.eq_false_iff.mpr
    intro hwork
    rw [h.worked (.inl hwork)] at hf
    cases hf
  · by_contra hworker
    rw [h.worked (.inr hworker)] at hf
    cases hf

theorem swept_step {f : File} (hs : (machine vector hz msecsToJiffies ι).Reachable s)
    (hf : Sole s f) (h : s.Swept) (hspares : s.spares a = false)
    (hmoves : Moves msecsToJiffies s a s' es) : s'.Swept := by
  intro hpast
  -- a file that is taken up again, or comes to `list_cleanup`, is not past
  have hnot {i : ι} {v : File} (hfile : s'.file = Function.update s.file i v)
      (hv : v.past = false) : s'.mon.data = [] := by
    have hi := (hpast i).1
    rw [hfile, Function.update_self, hv] at hi
    cases hi
  have hback {i : ι} {v : File} (hfile : s'.file = Function.update s.file i v)
      (hmon : s'.mon = s.mon) (hi : (s.file i).past = true) : s'.mon.data = [] := by
    rw [hmon]
    apply h
    intro j
    refine ⟨?_, hmon ▸ (hpast j).2⟩
    rcases eq_or_ne j i with rfl | hji
    · exact hi
    · have hj := (hpast j).1
      rwa [hfile, Function.update_of_ne hji] at hj
  cases hmoves with
  | config | expire | insert | isPending | notPending | sizeEq | sizeNe | schedule | modTimer
  | startWork | notEmpty | remove | endWork | refuse => exact h hpast
  | isEmpty hworker =>
    have hidle := (hf.idle_of_past fun i => (hpast i).1).2
    rw [hworker] at hidle
    cases hidle
  | accept hfile => exact hback rfl rfl (by rw [hfile]; rfl)
  | cleanup hfile => exact hback rfl rfl (by rw [hfile]; rfl)
  | addTimer | release | delTimer | flush => exact hnot rfl rfl
  | @clear i m _ hfile hmon =>
    obtain ⟨evs, hstep, -, -⟩ := SemMonitor.moves_of_step hmon
    have hlock : m.proc (some i) = .inside .cleanup .lock := by
      generalize s.mon.proc (some i) = p, m.toShared = sh', m.proc (some i) = p' at hstep
      cases hstep with
      | enter hcall =>
        cases hcall
        rfl
      | refuse hcall => cases hcall
    exact absurd hlock (hpast i).2
  | @mon p b m _ _ hmon =>
    obtain ⟨evs, hstep, hproc, -⟩ := SemMonitor.moves_of_step hmon
    by_cases hlock : s.mon.proc p = .inside .cleanup .lock
    · rw [hlock] at hstep
      apply cleanup_of_lock hstep
      rintro rfl
      simp [State.spares, hlock] at hspares
    · have hdata : s.mon.data = [] := by
        apply h
        intro i
        refine ⟨(hpast i).1, fun hi => ?_⟩
        rcases eq_or_ne (some i) p with rfl | hip
        · exact hlock hi
        · have hkeep : m.proc (some i) = s.mon.proc (some i) := by
            rw [hproc, Function.update_of_ne hip]
          exact (hpast i).2 (hkeep.trans hi)
      apply data_nil_of_moves hstep _ hdata
      intro aux copied st hadd
      have hplaced := placed hs p _ _ hadd
      have hidle := (hf.idle_of_past fun i => (hpast i).1).2
      cases p with
      | none =>
        rw [show s.worker = .adding from hplaced] at hidle
        cases hidle
      | some i => exact hplaced

theorem swept_of_sessions {as : List (Act ι)} {tr : List (Option ι × Event)}
    (hsessions : (machine vector hz msecsToJiffies ι).Along
      (fun s a => s.overlaps a = false ∧ s.spares a = false)
      (machine vector hz msecsToJiffies ι).init as)
    (hrun : (machine vector hz msecsToJiffies ι).Run as s tr) :
    Past vector hz msecsToJiffies s tr ∧ s.Swept := by
  refine hrun.invariant (C := fun s a => s.overlaps a = false ∧ s.spares a = false)
    (I := fun s tr => Past vector hz msecsToJiffies s tr ∧ s.Swept) ?_ ?_ hsessions
  · exact ⟨⟨Machine.run_nil.reachable, ⟨.closed, sole_init⟩, by rintro aux ⟨⟩,
      List.Sublist.refl _⟩, fun _ => rfl⟩
  · rintro s tr a s' es ⟨hpast, hswept⟩ ⟨hoverlaps, hspares⟩ hstep
    obtain ⟨f, hf⟩ := hpast.sole
    exact ⟨hpast.step hoverlaps hstep,
      swept_step hpast.reachable hf hswept hspares (moves_of_step hstep)⟩

theorem swept_of_closed {f : File} (hs : (machine vector hz msecsToJiffies ι).Reachable s)
    (hf : Sole s f) (h : s.Swept) (hclosed : ∀ i, s.file i = .closed) :
    (¬s.Active ∧ s.work = false ∧ s.worker = .idle) ∧ s.numbers = [] ∧ s.mon.data = [] := by
  have hpast : ∀ i, s.Past i := by
    intro i
    constructor
    · rw [hclosed i]
      rfl
    · intro hi
      have hfile : s.file i = .releasing .cleanup := placed hs _ _ _ hi
      rw [hclosed i] at hfile
      cases hfile
  obtain ⟨hwork, hworker⟩ := hf.idle_of_past fun i => (hpast i).1
  have hback : s.numbers ++ s.inHand = [] := (hf.back_of_closed hclosed).2
  have hactive : ¬s.Active := by
    intro hactive
    have htimed := hf.timed.mp hactive
    rcases hf.file with ⟨rfl, -⟩ | ⟨i, hi⟩
    · cases htimed
    · have hfile := hclosed i
      rw [hi, Function.update_self] at hfile
      rw [hfile] at htimed
      cases htimed
  exact ⟨⟨hactive, hwork, hworker⟩, (List.append_eq_nil_iff.mp hback).1, h hpast⟩

/-- As long as no session starts before the one before it has ended and no `list_cleanup` is
interrupted, a session leaves no timer, no work and no number behind, and what the next session
reads and holds are numbers that it has generated itself, in their order. -/
theorem sessions_apart {as₀ as : List (Act ι)} {s₀ s : State ι} {tr₀ tr : List (Option ι × Event)}
    (hsessions : (machine vector hz msecsToJiffies ι).Along
      (fun s a => s.overlaps a = false ∧ s.spares a = false)
      (machine vector hz msecsToJiffies ι).init as₀)
    (hrun₀ : (machine vector hz msecsToJiffies ι).Run as₀ s₀ tr₀)
    (hclosed : ∀ i, s₀.file i = .closed)
    (hsession : (machine vector hz msecsToJiffies ι).Along (fun s a => s.overlaps a = false) s₀ as)
    (hrun : (machine vector hz msecsToJiffies ι).exec s₀ as = some (s, tr)) :
    (¬s₀.Active ∧ s₀.work = false ∧ s₀.worker = .idle) ∧ s₀.numbers = [] ∧ s₀.mon.data = [] ∧
      (removed tr ++ s.mon.data ++ s.auxBuffer ++ s.numbers ++ s.inHand).Sublist
        (generated tr) := by
  obtain ⟨hpast₀, hswept⟩ := swept_of_sessions hsessions hrun₀
  obtain ⟨f, hf⟩ := hpast₀.sole
  obtain ⟨hidle, hnumbers, hdata⟩ := swept_of_closed hpast₀.reachable hf hswept hclosed
  refine ⟨hidle, hnumbers, hdata, ?_⟩
  obtain ⟨haux, hback⟩ := hf.back_of_closed hclosed
  have hstart : (removed ([] : List (Option ι × Event)) ++ (s₀.front ++ s₀.back)).Sublist
      (generated ([] : List (Option ι × Event))) := by
    rw [State.front, haux, hdata, hback]
    exact .slnil
  have hinv : Past vector hz msecsToJiffies s (tr₀ ++ tr) ∧
      (removed tr ++ (s.front ++ s.back)).Sublist (generated tr) := by
    refine Machine.exec_invariant (M := machine vector hz msecsToJiffies ι) (t := [])
      (C := fun s a => s.overlaps a = false)
      (I := fun s t => Past vector hz msecsToJiffies s (tr₀ ++ t) ∧
        (removed t ++ (s.front ++ s.back)).Sublist (generated t))
      ?_ ⟨by rwa [List.append_nil], hstart⟩ hsession hrun
    rintro s t a s' es ⟨hpast, hsub⟩ hsole hstep
    rw [← List.append_assoc]
    exact ⟨hpast.step hsole hstep,
      (flow_of_step hpast.reachable hpast.ready hstep).sublist_append hsub⟩
  simpa only [State.front, State.back, List.append_assoc] using hinv.2

/-- A session that puts one number into the list and releases it. -/
def listedSession : List (Act Bool) :=
  [.config 0 (bytes "emergency_threshold 10") true, .open false, .file false, .expire 7, .fire,
    .fire, .fire, .fire, .fire, .work, .work, .work, .work, .mon none (.run true),
    .mon none (.run true), .work, .release false, .file false, .file false, .file false,
    .mon (some false) (.run true), .mon (some false) (.run true), .file false]

/-- A session of the other process, which reads its first number and has a second one in the
buffer. -/
def nextSession : List (Act Bool) :=
  [.open true, .file true, .expire 8, .fire, .fire, .fire, .fire, .fire, .work, .work, .work, .work,
    .mon none (.run true), .mon none (.run true), .mon (some true) (.call (.read true 0 64) true),
    .mon (some true) (.run true), .work, .expire 9, .fire]

theorem sessions_apart_listedSession :
    ∃ s₀ tr₀ s tr, (machine (fun _ => 0) 250 (fun _ => 1) Bool).Run listedSession s₀ tr₀ ∧
      (machine (fun _ => 0) 250 (fun _ => 1) Bool).exec s₀ nextSession = some (s, tr) ∧
      s₀.mon.data = [] ∧ (removed tr ++ s.mon.data ++ s.auxBuffer ++ s.numbers ++ s.inHand).Sublist
        (generated tr) := by
  have heval₀ : ((machine (fun _ => 0) 250 (fun _ => 1) Bool).exec
      (machine (fun _ => 0) 250 (fun _ => 1) Bool).init listedSession).map
        (fun r => decide ((∀ i, r.1.file i = .closed) ∧
          (machine (fun _ => 0) 250 (fun _ => 1) Bool).Along (fun s a => s.overlaps a = false)
            r.1 nextSession ∧
          ((machine (fun _ => 0) 250 (fun _ => 1) Bool).exec r.1 nextSession).isSome = true)) =
      some true := by
    decide +kernel
  obtain ⟨s₀, tr₀, hrun₀, hs₀⟩ := Machine.exists_run_of_eval heval₀
  obtain ⟨hclosed, hsession, hsome⟩ := of_decide_eq_true hs₀
  obtain ⟨⟨s, tr⟩, hrun⟩ := Option.isSome_iff_exists.mp hsome
  obtain ⟨-, -, hdata, hsub⟩ :=
    sessions_apart (by decide +kernel) hrun₀ hclosed hsession hrun
  exact ⟨s₀, tr₀, s, tr, hrun₀, hrun, hdata, hsub⟩

end LinuxInternals.Modtimer
