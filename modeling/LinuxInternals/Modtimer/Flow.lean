import LinuxInternals.Lib.SemMonitor.Counter
import LinuxInternals.Modtimer.Steps

/-!
# The flow of the generated numbers

A number goes from `fire_timer` to the buffer, from there to `aux_buffer`, from there to the
list, and from there to a reader. A step passes numbers on, loses the oldest one of a full
buffer, or discards numbers at the end of a session or with an interrupted worker.
-/

namespace LinuxInternals.Modtimer

open SemMonitor Text

section Trace

variable {ι : Type}

def generated (tr : List (Option ι × Event)) : List UInt32 :=
  tr.filterMap fun e => match e.2 with
    | .generated n => some n
    | _ => none

def overwritten (tr : List (Option ι × Event)) : List UInt32 :=
  tr.filterMap fun e => match e.2 with
    | .overwritten n => some n
    | _ => none

def removed (tr : List (Option ι × Event)) : List UInt32 :=
  tr.flatMap fun e => match e.2 with
    | .removed list => list
    | _ => []

variable (t u : List (Option ι × Event))

@[simp] theorem generated_append : generated (t ++ u) = generated t ++ generated u :=
  List.filterMap_append

@[simp] theorem overwritten_append : overwritten (t ++ u) = overwritten t ++ overwritten u :=
  List.filterMap_append

@[simp] theorem removed_append : removed (t ++ u) = removed t ++ removed u :=
  List.flatMap_append

variable {t}

theorem generated_of_monitor (h : ∀ x ∈ t, x.2.ofMonitor = true) : generated t = [] := by
  apply List.filterMap_eq_nil_iff.mpr
  intro x hx
  have hmon := h x hx
  split
  · rw [‹x.2 = _›] at hmon
    cases hmon
  · rfl

theorem overwritten_of_monitor (h : ∀ x ∈ t, x.2.ofMonitor = true) : overwritten t = [] := by
  apply List.filterMap_eq_nil_iff.mpr
  intro x hx
  have hmon := h x hx
  split
  · rw [‹x.2 = _›] at hmon
    cases hmon
  · rfl

end Trace

section Monitor

variable {ι : Type}

/-- What `my_list_add` has yet to move out of `aux_buffer`. -/
def Frame.unmoved : Frame ι → List UInt32
  | .add aux copied => aux.drop copied
  | .read _ _ _ _ | .cleanup => []

/-- The numbers that a process in the monitor is about to put into the list. -/
def carried : Proc Unit (Frame ι) Queue Exit → List UInt32
  | .inside f .lock => f.unmoved
  | _ => []

theorem carried_proc (g : Code ι) : carried g.proc = [] := by
  rw [Segment.proc]
  cases g.next <;> rfl

theorem removed_leave (q : Option ι) (f : Frame ι) (x : Exit) (copied : Bool) :
    removed ((leave f x copied).2.map (Prod.mk q)) = [] := by
  cases f with
  | read j off len out =>
    cases x with
    | ok => cases copied <;> rfl
    | eintr => rfl
  | add | cleanup => rfl

theorem body_flow (q : Option ι) {f : Frame ι} (hf : f ≠ .cleanup) (pt : Point)
    (mylist : List UInt32) (nrWaiting : Queue → Int) :
    removed ((body f pt mylist nrWaiting).effects.map (Prod.mk q)) ++
        (body f pt mylist nrWaiting).data =
      mylist ++ match pt with
        | .entered => f.unmoved
        | .signalled | .relocked => [] := by
  cases f with
  | cleanup => exact absurd rfl hf
  | read j off len out =>
    cases pt with
    | entered | relocked =>
      cases mylist with
      | nil => rfl
      | cons x xs => simp [body, modtimerRead, removed, Frame.unmoved]
    | signalled => simp [body, modtimerRead, removed]
  | add aux copied =>
    cases pt with
    | entered => rfl
    | signalled | relocked => simp [body, myListAdd, removed]

variable {sh sh' : Shared (List UInt32) Queue} {p p' : Proc Unit (Frame ι) Queue Exit}
  {b : SemMonitor.Act (Call ι)} {es : List Event}

/-- A process that is not cleaning up only moves numbers along. -/
theorem flow_of_moves (q : Option ι) (h : (client ι).Moves sh p b sh' p' es)
    (hadd : ∀ aux copied, b ≠ .call (.add aux) copied) (hcleanup : ∀ st, p ≠ .inside .cleanup st)
    (hintr : b = .intr → carried p = []) :
    removed (es.map (Prod.mk q)) ++ sh'.data ++ carried p' = sh.data ++ carried p := by
  cases h with
  | wait | take | abort | sleepIntr => rfl
  | @enter _ c copied f hcall =>
    cases c with
    | add aux => exact absurd rfl (hadd aux copied)
    | cleanup =>
      cases hcall
      rfl
    | read j off len =>
      simp only [client, syscall] at hcall
      split at hcall
      · cases hcall
      · cases hcall
        rfl
  | @refuse _ c copied _ _ hcall =>
    cases c with
    | add | cleanup => cases hcall
    | read j off len =>
      simp only [client, syscall] at hcall
      split at hcall
      · cases hcall
        rfl
      · cases hcall
  | @lock f _ g _ hg =>
    have hflow := body_flow q (f := f) (fun hf => hcleanup _ (by rw [hf])) .entered sh.down.data
      sh.down.nrWaiting
    subst hg
    rw [carried_proc, List.append_nil, Client.commit_data]
    exact hflow
  | @relock f _ g _ hg =>
    have hflow := body_flow q (f := f) (fun hf => hcleanup _ (by rw [hf])) .relocked sh.down.data
      sh.down.nrWaiting
    subst hg
    rw [carried_proc, List.append_nil, Client.commit_data]
    exact hflow
  | @signal f r _ g hg =>
    have hflow := body_flow q (f := f) (fun hf => hcleanup _ (by rw [hf])) .signalled
      ((sh.post r).addWaiting r (-1)).data ((sh.post r).addWaiting r (-1)).nrWaiting
    subst hg
    rw [carried_proc, List.append_nil, Client.commit_data]
    exact hflow
  | @unlock f r copied _ _ hleave =>
    have hnone := removed_leave q f r copied
    rw [show leave f r copied = _ from hleave] at hnone
    rw [hnone]
    rfl
  | @lockIntr f _ _ hleave | @relockIntr f _ _ hleave =>
    have hnone := removed_leave q f .eintr true
    rw [show leave f .eintr true = _ from hleave] at hnone
    rw [hnone, hintr rfl]
    rfl

theorem intr_of_moves (q : Option ι) (h : (client ι).Moves sh p .intr sh' p' es) :
    sh' = sh ∧ carried p' = [] ∧ removed (es.map (Prod.mk q)) = [] := by
  cases h with
  | sleepIntr => exact ⟨rfl, rfl, rfl⟩
  | @lockIntr f _ _ hleave | @relockIntr f _ _ hleave =>
    have hnone := removed_leave q f .eintr true
    rw [show leave f .eintr true = _ from hleave] at hnone
    exact ⟨rfl, rfl, hnone⟩

/-- `list_cleanup` takes numbers out of the list and hands them to nobody. -/
theorem cleanup_of_moves (q : Option ι) {st : Stage Queue Exit}
    (h : (client ι).Moves sh (.inside .cleanup st) b sh' p' es) :
    sh'.data.Sublist sh.data ∧ removed (es.map (Prod.mk q)) = [] := by
  cases h with
  | wait | take | abort | sleepIntr => exact ⟨List.Sublist.refl _, rfl⟩
  | lock _ hg =>
    subst hg
    rw [Client.commit_data]
    exact ⟨List.nil_sublist _, rfl⟩
  | relock _ hg | signal hg =>
    subst hg
    rw [Client.commit_data]
    exact ⟨List.Sublist.refl _, rfl⟩
  | unlock hleave | lockIntr hleave | relockIntr hleave =>
    cases hleave
    exact ⟨List.Sublist.refl _, rfl⟩

end Monitor

variable {ι : Type} [DecidableEq ι] {msecsToJiffies : UInt32 → UInt64}

namespace State

/-- `aux_buffer[0..count)`, up to the moment when `my_list_add` appends it to the list. -/
def auxBuffer (s : State ι) : List UInt32 :=
  match s.worker with
  | .idle => []
  | .testEmpty aux | .remove aux => aux
  | .adding => carried (s.mon.proc none)

/-- The contents of `cbuf` from `head` on. -/
def numbers (s : State ι) : List UInt32 := s.cbuf.contents.map Int32.toUInt32

/-- The number that `fire_timer` has generated and not yet inserted. -/
def inHand (s : State ι) : List UInt32 :=
  match s.fire with
  | .insert n => [n]
  | _ => []

def front (s : State ι) : List UInt32 := s.mon.data ++ s.auxBuffer

def back (s : State ι) : List UInt32 := s.numbers ++ s.inHand

/-- The step is `clear_cbuffer_t` or one of `list_cleanup`, at the end of a session. -/
def ends (s : State ι) : Act ι → Bool
  | .file i => s.file i == .releasing .clear
  | .mon (some i) _ => s.file i == .releasing .cleanup
  | _ => false

/-- The worker does not find the buffer empty between its test and the removal. -/
def Ready (s : State ι) : Prop := ∀ aux, s.worker = .remove aux → s.cbuf.size ≠ 0

end State

def Act.interruptsWorker : Act ι → Bool
  | .mon none .intr => true
  | _ => false

/-- What a step does to the numbers. -/
inductive Flow (s s' : State ι) (a : Act ι) (es : List (Option ι × Event)) : Prop where
  | passes : removed es ++ s'.front = s.front → s'.back = s.back ++ generated es →
      overwritten es = [] → Flow s s' a es
  | takes (x : UInt32) : s.back = x :: s'.back → s'.front = s.front ++ [x] → removed es = [] →
      generated es = [] → overwritten es = [] → Flow s s' a es
  | loses (x : UInt32) : s.back = x :: s'.back → s'.front = s.front → removed es = [] →
      generated es = [] → overwritten es = [x] → Flow s s' a es
  | discards : s.ends a = true ∨ a.interruptsWorker = true → s'.front.Sublist s.front →
      s'.back.Sublist s.back → removed es = [] → generated es = [] → Flow s s' a es

section Step

variable {s s' : State ι} {a : Act ι} {es : List (Option ι × Event)}

omit [DecidableEq ι] in
/-- A step that only moves the control on. -/
theorem flow_of_eq (hdata : s'.mon.data = s.mon.data) (haux : s'.auxBuffer = s.auxBuffer)
    (hback : s'.back = s.back) (hremoved : removed es = []) (hgenerated : generated es = [])
    (hoverwritten : overwritten es = []) : Flow s s' a es := by
  refine .passes ?_ ?_ hoverwritten
  · rw [hremoved, List.nil_append, State.front, hdata, haux]
    rfl
  · rw [hback, hgenerated, List.append_nil]

omit [DecidableEq ι] in
theorem flow_of_insert (hbuf : Buffered s.cbuf) {n : UInt32} (hfire : s.fire = .insert n) :
    Flow s { s with cbuf := (s.cbuf.insertCbufferT n.toInt32).1, fire := .testPending } .fire
      (((if s.cbuf.isFullCbufferT then [.overwritten (s.cbuf.data s.cbuf.head).toUInt32]
        else []) : List Event).map (Prod.mk none)) := by
  rcases hbuf.size_le.lt_or_eq with hlt | hfull
  · rw [Cbuffer.isFullCbufferT, beq_false_of_ne hlt.ne]
    refine .passes rfl ?_ rfl
    simp [State.back, State.numbers, State.inHand, hfire, generated,
      Cbuffer.contents_insert_of_lt hbuf.toDocumented hbuf.bound hlt]
  · rw [Cbuffer.isFullCbufferT, beq_iff_eq.mpr hfull]
    cases hcons : s.cbuf.contents with
    | nil =>
      have hlen := Cbuffer.length_contents s.cbuf
      rw [hcons, hfull, hbuf.maxSize_eq] at hlen
      cases hlen
    | cons x xs =>
      rw [Cbuffer.data_head hbuf.toDocumented hcons]
      refine .loses x.toUInt32 ?_ rfl rfl rfl rfl
      simp [State.back, State.numbers, State.inHand, hfire, hcons,
        Cbuffer.contents_insert_of_full hbuf.toDocumented hbuf.bound hfull]

omit [DecidableEq ι] in
theorem flow_of_remove (hbuf : Buffered s.cbuf) {aux : List UInt32}
    (hworker : s.worker = .remove aux) (hsize : s.cbuf.size ≠ 0) :
    Flow s
      { s with
        cbuf := s.cbuf.removeCbufferT.1
        worker := .testEmpty (aux ++ [(headCbufferT s.cbuf).toUInt32]) } .work [] := by
  cases hcons : s.cbuf.contents with
  | nil =>
    have hlen := Cbuffer.length_contents s.cbuf
    rw [hcons] at hlen
    exact absurd hlen.symm hsize
  | cons x xs =>
    have hhead : headCbufferT s.cbuf = x := by
      rw [headCbufferT, if_pos hsize, Cbuffer.data_head hbuf.toDocumented hcons]
    refine .takes x.toUInt32 ?_ ?_ rfl rfl rfl
    · simp [State.back, State.numbers, State.inHand, hcons,
        Cbuffer.contents_remove hbuf.toDocumented hbuf.bound]
    · simp [State.front, State.auxBuffer, hworker, hhead]

variable [Fintype ι] {vector : Nat → Int32} {hz : Int64}

/-- Only the worker carries numbers to the list. -/
theorem carried_some (hs : (machine vector hz msecsToJiffies ι).Reachable s) (i : ι) :
    carried (s.mon.proc (some i)) = [] := by
  cases hp : s.mon.proc (some i) with
  | user => rfl
  | inside f st =>
    have hplaced := placed hs _ _ _ hp
    cases f with
    | add => exact absurd hplaced id
    | read | cleanup => cases st <;> rfl

theorem flow_of_user {m : Monitor ι} {i : ι} {b : SemMonitor.Act (Call ι)}
    (hs : (machine vector hz msecsToJiffies ι).Reachable s)
    (hs' : (machine vector hz msecsToJiffies ι).Reachable { s with mon := m })
    (hallow : s.Allows (some i) b) (hstep : (monitor ι).step s.mon (some i, b) = some (m, es)) :
    Flow s { s with mon := m } (.mon (some i) b) es := by
  have hmon (x : Option ι × Event) (hx : x ∈ es) : x.2.ofMonitor = true := ofMonitor_of_mem hstep hx
  have hbefore := carried_some hs i
  have hafter : carried (m.proc (some i)) = [] := carried_some hs' i
  obtain ⟨es, hmoves, hproc, rfl⟩ := SemMonitor.moves_of_step hstep
  have haux : State.auxBuffer { s with mon := m } = s.auxBuffer := by
    unfold State.auxBuffer
    simp only
    rw [hproc, Function.update_of_ne (by simp)]
  by_cases hcleanup : ∃ st, s.mon.proc (some i) = .inside .cleanup st
  · obtain ⟨st, hst⟩ := hcleanup
    have hfile : s.file i = .releasing .cleanup := placed hs _ _ _ hst
    rw [hst] at hmoves
    obtain ⟨hdata, hremoved⟩ := cleanup_of_moves (some i) hmoves
    refine .discards (.inl (beq_iff_eq.mpr hfile)) ?_ (List.Sublist.refl _) hremoved
      (generated_of_monitor hmon)
    rw [State.front, haux]
    exact hdata.append_right _
  · have hflow := flow_of_moves (some i) hmoves ?_ (fun st hst => hcleanup ⟨st, hst⟩)
      (fun _ => hbefore)
    · rw [hbefore, hafter, List.append_nil, List.append_nil] at hflow
      refine .passes ?_ ?_ (overwritten_of_monitor hmon)
      · rw [State.front, haux, ← List.append_assoc]
        exact congrArg (· ++ s.auxBuffer) hflow
      · rw [generated_of_monitor hmon, List.append_nil]
        rfl
    · rintro aux copied rfl
      obtain ⟨_, _, _, _, -, hc, -⟩ := hallow _ _ rfl
      cases hc

theorem flow_of_worker {m : Monitor ι} {b : SemMonitor.Act (Call ι)}
    (hs : (machine vector hz msecsToJiffies ι).Reachable s) (hallow : s.Allows none b)
    (hstep : (monitor ι).step s.mon (none, b) = some (m, es)) :
    Flow s { s with mon := m } (.mon none b) es := by
  have hmon (x : Option ι × Event) (hx : x ∈ es) : x.2.ofMonitor = true := ofMonitor_of_mem hstep hx
  obtain ⟨es, hmoves, hproc, rfl⟩ := SemMonitor.moves_of_step hstep
  have hadd (aux : List UInt32) (copied : Bool) : b ≠ .call (.add aux) copied := by
    rintro rfl
    obtain ⟨i, _, _, _, hi, -⟩ := hallow _ _ rfl
    cases hi
  cases hp : s.mon.proc none with
  | user x =>
    rw [hp] at hmoves
    generalize m.toShared = sh', m.proc none = p' at hmoves
    cases hmoves with
    | enter | refuse =>
      obtain ⟨i, _, _, _, hi, -⟩ := hallow _ _ rfl
      cases hi
  | inside f st =>
    have hplaced := placed hs _ _ _ hp
    cases f with
    | read | cleanup => exact absurd hplaced id
    | add aux copied =>
      have hworker : s.worker = .adding := hplaced
      have hbefore : s.auxBuffer = carried (s.mon.proc none) := by
        rw [State.auxBuffer, hworker]
      have hafter : State.auxBuffer { s with mon := m } = carried (m.proc none) := by
        rw [State.auxBuffer]
        simp only [hworker]
      by_cases hintr : b = .intr
      · subst hintr
        obtain ⟨hsh, hcarried, hremoved⟩ := intr_of_moves none hmoves
        have hdata : m.data = s.mon.data := congrArg Shared.data hsh
        refine .discards (.inr rfl) ?_ (List.Sublist.refl _) hremoved (generated_of_monitor hmon)
        rw [State.front, hafter, hcarried, hdata, List.append_nil]
        exact List.sublist_append_left _ _
      · have hflow := flow_of_moves none hmoves hadd (by simp [hp]) (absurd · hintr)
        refine .passes ?_ ?_ (overwritten_of_monitor hmon)
        · rw [State.front, State.front, hafter, hbefore, ← List.append_assoc]
          exact hflow
        · rw [generated_of_monitor hmon, List.append_nil]
          rfl

omit [Fintype ι] in
/-- The worker takes its numbers into `my_list_add`. -/
theorem flow_of_add {m : Monitor ι} {aux : List UInt32} (hworker : s.worker = .testEmpty aux)
    (hstep : (monitor ι).step s.mon (none, .call (.add aux) true) = some (m, es)) :
    Flow s { s with mon := m, worker := .adding } .work es := by
  obtain ⟨es, hmoves, hproc, rfl⟩ := SemMonitor.moves_of_step hstep
  have hdata : m.data = s.mon.data := congrArg Shared.data hmoves.shared_of_call
  have hcarried : carried (m.proc none) = aux ∧ es = [] := by
    generalize s.mon.proc none = p, m.toShared = sh', m.proc none = p' at hmoves
    cases hmoves with
    | enter hcall =>
      cases hcall
      exact ⟨rfl, rfl⟩
    | refuse hcall => cases hcall
  obtain ⟨hcarried, rfl⟩ := hcarried
  refine flow_of_eq hdata ?_ rfl rfl rfl rfl
  simp only [State.auxBuffer, hworker]
  exact hcarried

omit [Fintype ι] in
theorem flow_of_clear {m : Monitor ι} {i : ι} (hfile : s.file i = .releasing .clear)
    (hstep : (monitor ι).step s.mon (some i, .call .cleanup true) = some (m, es)) :
    Flow s { s.setFile i (.releasing .cleanup) with mon := m, cbuf := s.cbuf.clearCbufferT }
      (.file i) ((some i, .discarded (s.cbuf.contents.map Int32.toUInt32)) :: es) := by
  obtain ⟨es, hmoves, hproc, rfl⟩ := SemMonitor.moves_of_step hstep
  have hdata : m.data = s.mon.data := congrArg Shared.data hmoves.shared_of_call
  have hes : es = [] := by
    generalize s.mon.proc (some i) = p, m.toShared = sh', m.proc (some i) = p' at hmoves
    cases hmoves with
    | enter => rfl
    | refuse hcall => cases hcall
  subst hes
  refine .discards (.inl (beq_iff_eq.mpr hfile)) ?_ ?_ rfl rfl
  · simp only [State.front, State.auxBuffer, State.setFile, hdata]
    rw [hproc, Function.update_of_ne (by simp)]
  · have hnil : s.cbuf.clearCbufferT.contents = [] :=
      List.length_eq_zero_iff.mp (Cbuffer.length_contents _)
    simp only [State.back, State.numbers, hnil, List.map_nil, List.nil_append]
    exact List.sublist_append_right _ _

theorem flow_of_step (hs : (machine vector hz msecsToJiffies ι).Reachable s) (hready : s.Ready)
    (hstep : step msecsToJiffies s a = some (s', es)) : Flow s s' a es := by
  have hs' := hs.step hstep
  have hbuf := buffered hs
  cases moves_of_step hstep with
  | config | refuse | accept | addTimer | release | delTimer | flush | cleanup =>
    exact flow_of_eq rfl rfl rfl rfl rfl rfl
  | expire _ hfire _ =>
    refine .passes rfl ?_ rfl
    simp [State.back, State.inHand, hfire, generated, State.numbers]
  | insert hfire hes =>
    subst hes
    exact flow_of_insert hbuf hfire
  | isPending hfire _ | notPending hfire _ | sizeEq hfire _ | sizeNe hfire _ | schedule hfire
  | modTimer hfire =>
    refine flow_of_eq rfl rfl ?_ rfl rfl rfl
    simp [State.back, State.inHand, hfire, State.numbers]
  | startWork hworker _ | notEmpty hworker _ =>
    refine flow_of_eq rfl ?_ rfl rfl rfl rfl
    simp [State.auxBuffer, hworker]
  | isEmpty hworker _ hmon => exact flow_of_add hworker hmon
  | remove hworker => exact flow_of_remove hbuf hworker (hready _ hworker)
  | endWork hworker hinside =>
    refine flow_of_eq rfl ?_ rfl rfl rfl rfl
    simp only [State.auxBuffer, hworker]
    cases hp : s.mon.proc none with
    | user => rfl
    | inside f st => exact absurd (inside_of_inside hp) (by simp [hinside])
  | clear hfile hmon => exact flow_of_clear hfile hmon
  | @mon p b _ _ hallow hmon =>
    cases p with
    | none => exact flow_of_worker hs hallow hmon
    | some i => exact flow_of_user hs hs' hallow hmon

end Step

end LinuxInternals.Modtimer
