import LinuxInternals.Lib.SemMonitor.Invariant
import LinuxInternals.Modtimer.Basic

/-!
# What a step of `modtimer` does

Every action with its guard and its effect, the monitor that each run projects to, and
the pieces of client code that run inside it.
-/

namespace LinuxInternals.Modtimer

open CData SemMonitor Text

variable {ι : Type} [DecidableEq ι] {msecsToJiffies : UInt32 → UInt64}

/-- Calls on the monitor that an action makes directly are reads of an open file. -/
def State.Allows (s : State ι) (p : Option ι) (a : SemMonitor.Act (Call ι)) : Prop :=
  ∀ c copied, a = .call c copied → ∃ i j off len, p = some i ∧ c = .read j off len ∧
    s.file j = .opened ∧ (s.file i = .closed ∨ s.file i = .opened)

inductive Moves (msecsToJiffies : UInt32 → UInt64) (s : State ι) :
    Act ι → State ι → List (Option ι × Event) → Prop where
  | config {off buf copied r} :
      modtimerConfigWrite msecsToJiffies s.config off buf copied = r →
      Moves msecsToJiffies s (.config off buf copied) { s with config := r.1 }
        [(none, .configured r.2.1 r.2.2)]
  | expire {r n} : s.timer = true → s.fire = .idle → randNumber r s.config.maxRandom = some n →
      Moves msecsToJiffies s (.expire r) { s with timer := false, fire := .insert n }
        [(none, .generated n)]
  | insert {n es} : s.fire = .insert n →
      (if s.cbuf.isFullCbufferT then [.overwritten (s.cbuf.data s.cbuf.head).toUInt32]
        else []) = es →
      Moves msecsToJiffies s .fire
        { s with cbuf := (s.cbuf.insertCbufferT n.toInt32).1, fire := .testPending }
        (es.map (Prod.mk none))
  | isPending : s.fire = .testPending → s.work = true →
      Moves msecsToJiffies s .fire { s with fire := .modTimer } [(none, .checked none)]
  | notPending : s.fire = .testPending → s.work = false →
      Moves msecsToJiffies s .fire { s with fire := .testSize } []
  | sizeEq : s.fire = .testSize → s.cbuf.sizeCbufferT = target s.config →
      Moves msecsToJiffies s .fire { s with fire := .schedule s.cbuf.sizeCbufferT } []
  | sizeNe : s.fire = .testSize → s.cbuf.sizeCbufferT ≠ target s.config →
      Moves msecsToJiffies s .fire { s with fire := .modTimer }
        [(none, .checked (some s.cbuf.sizeCbufferT))]
  | schedule {seen} : s.fire = .schedule seen →
      Moves msecsToJiffies s .fire { s with work := true, fire := .modTimer }
        [(none, .checked (some seen))]
  | modTimer : s.fire = .modTimer →
      Moves msecsToJiffies s .fire { s with timer := true, fire := .idle } []
  | startWork : s.worker = .idle → s.work = true →
      Moves msecsToJiffies s .work { s with work := false, worker := .testEmpty [] } []
  | isEmpty {aux m es} : s.worker = .testEmpty aux → s.cbuf.isEmptyCbufferT = true →
      (monitor ι).step s.mon (none, .call (.add aux) true) = some (m, es) →
      Moves msecsToJiffies s .work { s with mon := m, worker := .adding } es
  | notEmpty {aux} : s.worker = .testEmpty aux → s.cbuf.isEmptyCbufferT = false →
      Moves msecsToJiffies s .work { s with worker := .remove aux } []
  | remove {aux} : s.worker = .remove aux →
      Moves msecsToJiffies s .work
        { s with
          cbuf := s.cbuf.removeCbufferT.1
          worker := .testEmpty (aux ++ [(headCbufferT s.cbuf).toUInt32]) } []
  | endWork : s.worker = .adding → s.inside none = false →
      Moves msecsToJiffies s .work { s with worker := .idle } []
  | refuse {i} : s.file i = .closed → s.inside (some i) = false → s.waiting ≠ 0 →
      Moves msecsToJiffies s (.open i) s [(some i, .opened 1)]
  | accept {i} : s.file i = .closed → s.inside (some i) = false → s.waiting = 0 →
      Moves msecsToJiffies s (.open i) (s.setFile i .opening) []
  | addTimer {i} : s.file i = .opening →
      Moves msecsToJiffies s (.file i) { s.setFile i .opened with timer := true }
        [(some i, .addTimer s.timer), (some i, .opened 0)]
  | release {i} : s.file i = .opened → s.inside (some i) = false →
      (∀ p, s.reads i p = false) →
      Moves msecsToJiffies s (.release i) (s.setFile i (.releasing .delTimer)) []
  | delTimer {i} : s.file i = .releasing .delTimer → s.fire = .idle →
      Moves msecsToJiffies s (.file i)
        { s.setFile i (.releasing .flush) with timer := false } []
  | flush {i} : s.file i = .releasing .flush → s.work = false → s.worker = .idle →
      Moves msecsToJiffies s (.file i) (s.setFile i (.releasing .clear)) []
  | clear {i m es} : s.file i = .releasing .clear →
      (monitor ι).step s.mon (some i, .call .cleanup true) = some (m, es) →
      Moves msecsToJiffies s (.file i)
        { s.setFile i (.releasing .cleanup) with mon := m, cbuf := s.cbuf.clearCbufferT }
        ((some i, .discarded (s.cbuf.contents.map Int32.toUInt32)) :: es)
  | cleanup {i} : s.file i = .releasing .cleanup → s.inside (some i) = false →
      Moves msecsToJiffies s (.file i) (s.setFile i .closed) [(some i, .released)]
  | mon {p a m es} : s.Allows p a → (monitor ι).step s.mon (p, a) = some (m, es) →
      Moves msecsToJiffies s (.mon p a) { s with mon := m } es

omit [DecidableEq ι] in
theorem eq_overwritten_of_mem {full : Bool} {n : UInt32} {x : Option ι × Event}
    (h : x ∈ ((if full then [.overwritten n] else []) : List Event).map (Prod.mk none)) :
    x = (none, .overwritten n) := by
  cases full
  · cases h
  · exact List.mem_singleton.mp h

section Inversion

variable {s s' : State ι} {es : List (Option ι × Event)}

theorem moves_of_fireTimer {es : List Event} (h : fireTimer s = some (s', es)) :
    Moves msecsToJiffies s .fire s' (es.map (Prod.mk none)) := by
  unfold fireTimer at h
  split at h
  case h_1 => cases h
  case h_2 n hfire =>
    cases h
    exact .insert hfire rfl
  case h_3 hfire =>
    split at h
    · cases h
      exact .isPending hfire ‹_›
    · cases h
      exact .notPending hfire (Bool.eq_false_iff.mpr ‹_›)
  case h_4 hfire =>
    dsimp only at h
    split at h
    · cases h
      exact .sizeEq hfire ‹_›
    · cases h
      exact .sizeNe hfire ‹_›
  case h_5 seen hfire =>
    cases h
    exact .schedule hfire
  case h_6 hfire =>
    cases h
    exact .modTimer hfire

theorem moves_of_work (h : copyItemsIntoListFunc s = some (s', es)) :
    Moves msecsToJiffies s .work s' es := by
  unfold copyItemsIntoListFunc at h
  split at h
  case h_1 hworker =>
    split at h
    · cases h
      exact .startWork hworker ‹_›
    · cases h
  case h_2 aux hworker =>
    split at h
    · obtain ⟨⟨m, es'⟩, hstep, h⟩ := Option.map_eq_some_iff.mp h
      cases h
      exact .isEmpty hworker ‹_› hstep
    · cases h
      exact .notEmpty hworker (Bool.eq_false_iff.mpr ‹_›)
  case h_3 aux hworker =>
    cases h
    exact .remove hworker
  case h_4 hworker =>
    split at h
    · cases h
    · cases h
      exact .endWork hworker (Bool.eq_false_iff.mpr ‹_›)

theorem moves_of_fileStep {i : ι} (h : fileStep s i = some (s', es)) :
    Moves msecsToJiffies s (.file i) s' es := by
  unfold fileStep at h
  split at h
  case h_1 | h_2 => cases h
  case h_3 hfile =>
    cases h
    exact .addTimer hfile
  case h_4 hfile =>
    split at h
    · cases h
      exact .delTimer hfile ‹_›
    · cases h
  case h_5 hfile =>
    split at h
    · obtain ⟨hwork, hworker⟩ := ‹_ ∧ _›
      cases h
      exact .flush hfile hwork hworker
    · cases h
  case h_6 hfile =>
    obtain ⟨⟨m, es'⟩, hstep, h⟩ := Option.map_eq_some_iff.mp h
    cases h
    exact .clear hfile hstep
  case h_7 hfile =>
    split at h
    · cases h
    · cases h
      exact .cleanup hfile (Bool.eq_false_iff.mpr ‹_›)

theorem moves_of_mon [Fintype ι] {p : Option ι} {a : SemMonitor.Act (Call ι)}
    (h : step msecsToJiffies s (.mon p a) = some (s', es)) :
    Moves msecsToJiffies s (.mon p a) s' es := by
  simp only [step] at h
  split at h
  case h_1 i j off len copied =>
    simp only [Option.ite_none_right_eq_some, Bool.and_eq_true, Bool.or_eq_true,
      beq_iff_eq] at h
    obtain ⟨hfiles, h⟩ := h
    obtain ⟨⟨m, es'⟩, hstep, h⟩ := Option.map_eq_some_iff.mp h
    cases h
    refine .mon ?_ hstep
    rintro c copied ⟨⟩
    exact ⟨i, j, off, len, rfl, rfl, hfiles⟩
  case h_2 => cases h
  case h_3 hcall _ =>
    rw [if_pos rfl] at h
    obtain ⟨⟨m, es'⟩, hstep, h⟩ := Option.map_eq_some_iff.mp h
    cases h
    exact .mon (fun c copied hc => absurd hc (hcall c copied)) hstep

theorem moves_of_step [Fintype ι] {a : Act ι} (h : step msecsToJiffies s a = some (s', es)) :
    Moves msecsToJiffies s a s' es := by
  cases a with
  | config off buf copied =>
    cases h
    exact .config rfl
  | expire r =>
    simp only [step, Option.ite_none_right_eq_some] at h
    obtain ⟨⟨htimer, hfire⟩, h⟩ := h
    obtain ⟨n, hn, h⟩ := Option.map_eq_some_iff.mp h
    cases h
    exact .expire htimer hfire hn
  | fire =>
    obtain ⟨⟨t, es'⟩, hfire, h⟩ := Option.map_eq_some_iff.mp h
    cases h
    exact moves_of_fireTimer hfire
  | work => exact moves_of_work h
  | «open» i =>
    simp only [step, Option.ite_none_right_eq_some] at h
    obtain ⟨⟨hfile, hinside⟩, h⟩ := h
    split at h
    · cases h
      exact .refuse hfile hinside ‹_›
    · cases h
      exact .accept hfile hinside (not_not.mp ‹_›)
  | release i =>
    simp only [step, Option.ite_none_right_eq_some] at h
    obtain ⟨⟨hfile, hinside, hreads⟩, h⟩ := h
    cases h
    exact .release hfile hinside hreads
  | file i => exact moves_of_fileStep h
  | mon p a => exact moves_of_mon h

end Inversion

section Monitor

variable {s s' : State ι} {a : Act ι} {es : List (Option ι × Event)}

theorem Moves.mon_cases (h : Moves msecsToJiffies s a s' es) :
    s'.mon = s.mon ∨ ∃ p b es', (monitor ι).step s.mon (p, b) = some (s'.mon, es') := by
  cases h with
  | isEmpty _ _ hstep | clear _ hstep | mon _ hstep => exact .inr ⟨_, _, _, hstep⟩
  | config | expire | insert | isPending | notPending | sizeEq | sizeNe | schedule | modTimer
  | startWork | notEmpty | remove | endWork | refuse | accept | addTimer | release | delTimer
  | flush | cleanup => exact .inl rfl

/-- What the monitor emits; a list is discarded only by `list_cleanup`. -/
theorem event_of_mon {m m' : Monitor ι} {p : Option ι} {b : SemMonitor.Act (Call ι)}
    (h : (monitor ι).step m (p, b) = some (m', es)) {x : Option ι × Event} (hx : x ∈ es) :
    x.1 = p ∧ ((∃ l, x.2 = .added l) ∨ (∃ l, x.2 = .removed l) ∨
      (∃ v out off, x.2 = .read v out off) ∨
      ∃ l st, x.2 = .discarded l ∧ m.proc p = .inside .cleanup st) := by
  obtain ⟨es, hmoves, -, rfl⟩ := SemMonitor.moves_of_step h
  obtain ⟨e, he, rfl⟩ := List.mem_map.mp hx
  refine ⟨rfl, ?_⟩
  simp only
  cases hp : m.proc p with
  | user x =>
    rw [hp] at hmoves
    generalize m'.proc p = p' at hmoves
    generalize m'.toShared = sh' at hmoves
    cases hmoves with
    | enter => cases he
    | @refuse _ c _ _ _ hcall =>
      cases c with
      | read j off len =>
        simp only [client, syscall] at hcall
        split at hcall
        · cases hcall
          rw [List.mem_singleton.mp he]
          exact .inr (.inr (.inl ⟨_, _, _, rfl⟩))
        · cases hcall
      | add | cleanup => cases hcall
  | inside f st =>
    rw [hp] at hmoves
    rcases hmoves.inside_cases with ⟨_, -, -, -, -, rfl⟩ | ⟨pt, nr, -, -, -, -, rfl⟩ |
      ⟨r, copied, -, -, -, rfl⟩
    · cases he
    · cases f with
      | read j off len out =>
        cases pt with
        | entered | relocked =>
          generalize m.toShared.data = d at he
          cases d with
          | nil => cases he
          | cons y ys => exact .inr (.inl ⟨_, List.mem_singleton.mp he⟩)
        | signalled => cases he
      | add aux copied =>
        cases pt with
        | entered => exact .inl ⟨_, List.mem_singleton.mp he⟩
        | signalled | relocked => cases he
      | cleanup =>
        cases pt with
        | entered => exact .inr (.inr (.inr ⟨_, st, List.mem_singleton.mp he, rfl⟩))
        | signalled | relocked => cases he
    · cases f with
      | read j off len out =>
        cases r with
        | ok =>
          cases copied <;> exact .inr (.inr (.inl ⟨_, _, _, List.mem_singleton.mp he⟩))
        | eintr => exact .inr (.inr (.inl ⟨_, _, _, List.mem_singleton.mp he⟩))
      | add | cleanup => cases he

def Event.ofMonitor : Event → Bool
  | .added _ | .removed _ | .discarded _ | .read _ _ _ => true
  | _ => false

theorem ofMonitor_of_mem {m m' : Monitor ι} {p : Option ι} {b : SemMonitor.Act (Call ι)}
    (h : (monitor ι).step m (p, b) = some (m', es)) {x : Option ι × Event} (hx : x ∈ es) :
    x.2.ofMonitor = true := by
  rcases (event_of_mon h hx).2 with ⟨_, he⟩ | ⟨_, he⟩ | ⟨_, _, _, he⟩ | ⟨_, _, he, -⟩ <;>
    rw [he] <;> rfl

variable [Fintype ι] {vector : Nat → Int32} {hz : Int64}

theorem reachable_mon (h : (machine vector hz msecsToJiffies ι).Reachable s) :
    (monitor ι).Reachable s.mon := by
  refine h.invariant (I := fun s => (monitor ι).Reachable s.mon) Machine.run_nil.reachable ?_
  intro s a s' es hI hstep
  rcases (moves_of_step hstep).mon_cases with hmon | ⟨p, b, es', hmon⟩
  · rw [hmon]
    exact hI
  · exact hI.step hmon

end Monitor

section Frames

omit [DecidableEq ι]

/-- Who runs what, and when. -/
def State.Placed (s : State ι) : Option ι → Frame ι → Prop
  | none, .add _ _ => s.worker = .adding
  | some i, .read j _ _ _ => s.file j = .opened ∧ (s.file i = .closed ∨ s.file i = .opened)
  | some i, .cleanup => s.file i = .releasing .cleanup
  | _, _ => False

variable {s s' : State ι} {p : Option ι} {f : Frame ι}

theorem placed_body {pt : Point} {mylist : List UInt32} {nrWaiting : Queue → Int}
    (h : s.Placed p f) : s.Placed p (body f pt mylist nrWaiting).frame := by
  cases f with
  | read j off len out =>
    have hframe : ∃ out', (body (.read j off len out) pt mylist nrWaiting).frame =
        .read j off len out' := by
      cases pt with
      | entered | relocked => cases mylist <;> exact ⟨_, rfl⟩
      | signalled => exact ⟨_, rfl⟩
    obtain ⟨out', hframe⟩ := hframe
    rw [hframe]
    cases p <;> exact h
  | add aux copied =>
    have hframe : ∃ aux' copied', (body (.add aux copied : Frame ι) pt mylist nrWaiting).frame =
        .add aux' copied' := by
      cases pt <;> exact ⟨_, _, rfl⟩
    obtain ⟨aux', copied', hframe⟩ := hframe
    rw [hframe]
    cases p <;> exact h
  | cleanup => cases pt <;> exact h

theorem Placed.of_worker (h : s.Placed p f) (hfile : s'.file = s.file)
    (hworker : p = none → s'.worker = s.worker) : s'.Placed p f := by
  cases p with
  | none =>
    cases f with
    | add => exact (hworker rfl).trans h
    | read | cleanup => exact h
  | some i =>
    cases f with
    | add => exact h
    | read | cleanup =>
      simp only [State.Placed, hfile]
      exact h

theorem inside_of_inside {st : Stage Queue Exit} (hp : s.mon.proc p = .inside f st) :
    s.inside p = true := by
  simp [State.inside, hp]

end Frames

section Placement

variable {s s' : State ι} {p : Option ι} {f : Frame ι}

theorem reads_of_inside {j : ι} {off len : Nat} {out : List UInt8} {st : Stage Queue Exit}
    (hp : s.mon.proc p = .inside (.read j off len out) st) : s.reads j p = true := by
  simp [State.reads, hp]

/-- The step of one file leaves alone who runs nothing and reads other files. -/
theorem Placed.of_file {i : ι} {v : File} (h : s.Placed p f) (hworker : s'.worker = s.worker)
    (hfile : s'.file = Function.update s.file i v) (hp : p ≠ some i)
    (hread : ∀ off len out, f ≠ .read i off len out) : s'.Placed p f := by
  cases p with
  | none =>
    cases f with
    | add => exact hworker.trans h
    | read | cleanup => exact h
  | some k =>
    have hk : s'.file k = s.file k := by
      rw [hfile, Function.update_of_ne fun hki => hp (congrArg some hki)]
    cases f with
    | add => exact h
    | read j off len out =>
      have hj : s'.file j = s.file j := by
        rw [hfile, Function.update_of_ne fun hji => hread off len out (by rw [hji])]
      simp only [State.Placed, hj, hk]
      exact h
    | cleanup => exact hk.trans h

/-- What a step on the monitor by `p` does to the placement of the frames. -/
theorem placed_mon {m : Monitor ι} {b : SemMonitor.Act (Call ι)} {es : List (Option ι × Event)}
    (hI : ∀ p f st, s.mon.proc p = .inside f st → s'.Placed p f)
    (hstep : (monitor ι).step s.mon (p, b) = some (m, es))
    (hcall : ∀ c copied f, b = .call c copied → syscall () c copied = some (.enter f) →
      s'.Placed p f) : ∀ p f st, m.proc p = .inside f st → s'.Placed p f :=
  frames_of_step (R := s'.Placed) (fun _ _ _ _ _ => placed_body) hI hstep
    fun _ c copied f hb hnew => hcall c copied f hb hnew

variable [Fintype ι] {vector : Nat → Int32} {hz : Int64}

theorem placed (h : (machine vector hz msecsToJiffies ι).Reachable s) :
    ∀ p f st, s.mon.proc p = .inside f st → s.Placed p f := by
  refine h.invariant
    (I := fun s : State ι => ∀ p f st, s.mon.proc p = .inside f st → s.Placed p f) ?_ ?_
  · intro p f st hp
    cases hp
  intro s a s' es hI hstep
  -- a process that the step finds outside has no frame, and one that reads `i` keeps it open
  have hout {i : Option ι} (hi : s.inside i = false) {p : Option ι} {f : Frame ι}
      {st : Stage Queue Exit} (hp : s.mon.proc p = .inside f st) : p ≠ i := by
    rintro rfl
    exact absurd (inside_of_inside hp) (by simp [hi])
  have hopen {i : ι} (hi : s.file i ≠ .opened) {p : Option ι} {st : Stage Queue Exit}
      {off len : Nat} {out : List UInt8} : s.mon.proc p ≠ .inside (.read i off len out) st := by
    intro hp
    have hplaced := hI _ _ _ hp
    cases p with
    | none => exact hplaced
    | some k => exact hi hplaced.1
  -- between its system calls on the file a user runs nothing
  have hbusy {i : ι} (hi : s.file i ≠ .closed ∧ s.file i ≠ .opened ∧
      s.file i ≠ .releasing .cleanup) {p : Option ι} {f : Frame ι} {st : Stage Queue Exit}
      (hp : s.mon.proc p = .inside f st) : p ≠ some i := by
    rintro rfl
    have hplaced := hI _ _ _ hp
    cases f with
    | read => exact hplaced.2.elim hi.1 hi.2.1
    | add => exact hplaced
    | cleanup => exact hi.2.2 hplaced
  -- the worker is in `my_list_add` only while it says so
  have hnone (hworker : s.worker ≠ .adding) {p : Option ι} {f : Frame ι} {st : Stage Queue Exit}
      (hp : s.mon.proc p = .inside f st) : p ≠ none := by
    rintro rfl
    have hplaced := hI _ _ _ hp
    cases f with
    | add => exact hworker hplaced
    | read | cleanup => exact hplaced
  cases moves_of_step hstep with
  | config | expire | insert | isPending | notPending | sizeEq | sizeNe | schedule | modTimer
  | refuse =>
    exact hI
  | startWork hworker | notEmpty hworker | remove hworker =>
    intro p f st hp
    exact Placed.of_worker (hI p f st hp) rfl
      fun hp' => absurd hp' (hnone (by simp [hworker]) hp)
  | endWork _ hinside =>
    intro p f st hp
    exact Placed.of_worker (hI p f st hp) rfl fun hp' => absurd hp' (hout hinside hp)
  | isEmpty hworker _ hmon =>
    refine placed_mon (fun p f st hp => ?_) hmon ?_
    · exact Placed.of_worker (hI p f st hp) rfl
        fun hp' => absurd hp' (hnone (by simp [hworker]) hp)
    · rintro c copied f hc hnew
      cases hc
      cases hnew
      rfl
  | accept hfile hinside _ =>
    intro p f st hp
    refine Placed.of_file (hI p f st hp) rfl rfl (hout hinside hp) ?_
    rintro off len out rfl
    exact hopen (by simp [hfile]) hp
  | cleanup hfile hinside =>
    intro p f st hp
    refine Placed.of_file (hI p f st hp) rfl rfl (hout hinside hp) ?_
    rintro off len out rfl
    exact hopen (by simp [hfile]) hp
  | release hfile hinside hreads =>
    intro p f st hp
    refine Placed.of_file (hI p f st hp) rfl rfl (hout hinside hp) ?_
    rintro off len out rfl
    have hreads' : s.reads _ p = true := reads_of_inside hp
    simp [hreads] at hreads'
  | addTimer hfile | delTimer hfile | flush hfile =>
    intro p f st hp
    refine Placed.of_file (hI p f st hp) rfl rfl (hbusy (by simp [hfile]) hp) ?_
    rintro off len out rfl
    exact hopen (by simp [hfile]) hp
  | clear hfile hmon =>
    refine placed_mon (fun p f st hp => ?_) hmon ?_
    · refine Placed.of_file (hI p f st hp) rfl rfl (hbusy (by simp [hfile]) hp) ?_
      rintro off len out rfl
      exact hopen (by simp [hfile]) hp
    · rintro c copied f hc hnew
      cases hc
      cases hnew
      exact Function.update_self ..
  | mon hallow hmon =>
    apply placed_mon hI hmon
    rintro c copied f rfl hnew
    obtain ⟨i, j, off, len, rfl, rfl, hfiles⟩ := hallow c copied rfl
    simp only [syscall] at hnew
    split at hnew
    · cases hnew
    · cases hnew
      exact hfiles

end Placement

section Buffer

/-- `MAX_ITEMS_CBUFFER` is 10. -/
structure Buffered (c : Cbuffer Int32) : Prop extends c.Documented where
  maxSize_eq : c.maxSize = 10

namespace Buffered

variable {c : Cbuffer Int32}

theorem bound (h : Buffered c) : c.maxSize ≤ 2147483648 := by
  rw [h.maxSize_eq]
  decide

theorem insert (h : Buffered c) (x : Int32) : Buffered (c.insertCbufferT x).1 := by
  obtain ⟨hmax, hdoc, -⟩ := Cbuffer.insertCbufferT_documented h.toDocumented h.bound x
  exact ⟨hdoc, hmax.trans h.maxSize_eq⟩

theorem remove (h : Buffered c) : Buffered c.removeCbufferT.1 := by
  obtain ⟨hmax, hdoc, -⟩ := Cbuffer.removeCbufferT_documented h.toDocumented h.bound
  exact ⟨hdoc, hmax.trans h.maxSize_eq⟩

theorem size_insert (h : Buffered c) (x : Int32) :
    (c.size < 10 ∧ (c.insertCbufferT x).1.size = c.size + 1) ∨
      (c.size = 10 ∧ (c.insertCbufferT x).1.size = 10) := by
  rcases h.size_le.lt_or_eq with hlt | hfull
  · rw [Cbuffer.size_insert_of_lt h.toDocumented h.bound hlt x]
    exact .inl ⟨h.maxSize_eq ▸ hlt, rfl⟩
  · rw [Cbuffer.size_insert_of_full hfull, hfull, h.maxSize_eq]
    exact .inr ⟨rfl, rfl⟩

end Buffered

variable [Fintype ι] {vector : Nat → Int32} {hz : Int64} {s : State ι}

theorem buffered (h : (machine vector hz msecsToJiffies ι).Reachable s) : Buffered s.cbuf := by
  refine h.invariant (I := fun s : State ι => Buffered s.cbuf) ?_ ?_
  · obtain ⟨hdoc, hmax, -⟩ := Cbuffer.documented_of_create (c := Option.get _ rfl) (by decide)
      (Option.some_get (x := Cbuffer.createCbufferT true (some vector) 10) rfl).symm
    exact ⟨hdoc, hmax⟩
  · intro s a s' es hI hstep
    cases moves_of_step hstep with
    | config | expire | isPending | notPending | sizeEq | sizeNe | schedule | modTimer
    | startWork | isEmpty | notEmpty | endWork | refuse | accept | addTimer | release | delTimer
    | flush | cleanup | mon =>
      exact hI
    | insert => exact hI.insert _
    | remove => exact hI.remove
    | clear => exact ⟨Cbuffer.documented_clear hI.toDocumented, hI.maxSize_eq⟩

end Buffer

end LinuxInternals.Modtimer
