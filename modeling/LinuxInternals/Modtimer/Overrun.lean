import LinuxInternals.Modtimer.Flush

/-!
# The auxiliary buffer of the worker

`copy_items_into_list_func` empties the circular buffer into an array of ten numbers on its
stack, and stops when it finds the buffer empty. What it has taken and what is still in the
buffer come to ten numbers at most, until `fire_timer` puts one in the place of one taken.
-/

namespace LinuxInternals.Modtimer

open CData SemMonitor Text

/-- `count` of `copy_items_into_list_func` while it is in its loop. -/
def Worker.count : Worker → Nat
  | .testEmpty aux | .remove aux => aux.length
  | .idle | .adding => 0

def Fire.inserting : Fire → Bool
  | .insert _ => true
  | .idle | .testPending | .testSize | .schedule _ | .modTimer => false

variable {ι : Type} [DecidableEq ι] {msecsToJiffies : UInt32 → UInt64}

namespace State

/-- The store into `aux_buffer` that comes next, if one does, is at an index below
`MAX_ITEMS_CBUFFER`. -/
def StoreInside (s : State ι) : Prop := ∀ aux, s.worker = .remove aux → aux.length < 10

/-- The state after `n` steps of the worker alone. -/
def workOn (s : State ι) : Nat → Option (State ι)
  | 0 => some s
  | n + 1 => (copyItemsIntoListFunc s).bind fun r => workOn r.1 n

/-- So are the stores that follow when the worker goes on alone. -/
def DrainsInside (s : State ι) : Prop := ∀ n s', s.workOn n = some s' → s'.StoreInside

/-- `fire_timer` adds a number to the buffer while the worker empties it and has the room in
`aux_buffer` for those already there only. -/
def Refills (s : State ι) : Act ι → Prop
  | .fire => s.fire.inserting = true ∧ s.worker.draining = true ∧ s.cbuf.size < 10 ∧
      10 ≤ s.worker.count + s.cbuf.size
  | _ => False

instance Refills.decidable (s : State ι) : (a : Act ι) → Decidable (s.Refills a)
  | .fire => inferInstanceAs (Decidable (_ ∧ _))
  | .config _ _ _ | .expire _ | .work | .open _ | .release _ | .file _ | .mon _ _ => isFalse id

/-- The worker has room for what it is about to take. -/
def Room (s : State ι) : Prop :=
  match s.worker with
  | .testEmpty aux => aux.length + s.cbuf.size ≤ 10
  | .remove aux => aux.length + max 1 s.cbuf.size ≤ 10
  | .idle | .adding => True

end State

open State

variable {s s' : State ι} {a : Act ι} {es : List (Option ι × Event)}

omit [DecidableEq ι] in
theorem State.Room.storeInside (h : s.Room) : s.StoreInside := by
  intro aux hworker
  simp only [State.Room, hworker] at h
  omega

omit [DecidableEq ι] in
theorem State.Room.of_size_le (h : s.Room) (hworker : s'.worker = s.worker)
    (hsize : s'.cbuf.size ≤ s.cbuf.size) : s'.Room := by
  unfold State.Room at h ⊢
  rw [hworker]
  cases hw : s.worker with
  | idle | adding => trivial
  | testEmpty aux | remove aux =>
    simp only [hw] at h ⊢
    omega

omit [DecidableEq ι] in
theorem room_insert (h : s.Room) (hbuf : Buffered s.cbuf) {n : UInt32}
    (hfire : s.fire = .insert n) (hrefill : ¬s.Refills .fire) :
    State.Room { s with cbuf := (s.cbuf.insertCbufferT n.toInt32).1, fire := .testPending } := by
  have hno : s.worker.draining = true → s.cbuf.size < 10 →
      s.worker.count + s.cbuf.size < 10 := by
    intro hdraining hlt
    by_contra hfull
    exact hrefill ⟨by rw [hfire]; rfl, hdraining, hlt, not_lt.mp hfull⟩
  have hsize := hbuf.size_insert n.toInt32
  unfold State.Room at h ⊢
  cases hw : s.worker with
  | idle | adding => trivial
  | testEmpty aux | remove aux =>
    simp only [hw, Worker.draining, Worker.count, forall_const] at h hno ⊢
    omega

theorem State.Room.step (h : s.Room) (hbuf : Buffered s.cbuf) (hrefill : ¬s.Refills a)
    (hmoves : Moves msecsToJiffies s a s' es) : s'.Room := by
  cases hmoves with
  | config | expire | isPending | notPending | sizeEq | sizeNe | schedule | modTimer | refuse
  | accept | addTimer | release | delTimer | flush | cleanup | mon =>
    exact h.of_size_le rfl le_rfl
  | insert hfire _ => exact room_insert h hbuf hfire hrefill
  | startWork =>
    have hsize := hbuf.size_le
    rw [hbuf.maxSize_eq] at hsize
    simpa [State.Room] using hsize
  | isEmpty | endWork => trivial
  | @notEmpty aux hworker hempty =>
    have hne : s.cbuf.size ≠ 0 := by simpa [Cbuffer.isEmptyCbufferT] using hempty
    simp only [State.Room, hworker] at h ⊢
    omega
  | @remove aux hworker =>
    have hsize := Cbuffer.size_remove hbuf.toDocumented hbuf.bound
    simp only [State.Room, hworker, hsize, List.length_append, List.length_singleton] at h ⊢
    omega
  | clear => exact h.of_size_le rfl (Nat.zero_le _)

theorem workOn_add {n m : Nat} {u : State ι} (h : s.workOn n = some s')
    (h' : s'.workOn m = some u) : s.workOn (n + m) = some u := by
  induction n generalizing s with
  | zero =>
    cases h
    rwa [Nat.zero_add]
  | succ n ih =>
    obtain ⟨r, hr, h⟩ := Option.bind_eq_some_iff.mp h
    rw [Nat.add_right_comm, State.workOn, hr]
    exact ih h

theorem workOn_of_testEmpty {aux : List UInt32} {k : Nat} (hworker : s.worker = .testEmpty aux)
    (hsize : s.cbuf.size = k + 1) : s.workOn 1 = some { s with worker := .remove aux } := by
  have hempty : s.cbuf.isEmptyCbufferT = false := by simp [Cbuffer.isEmptyCbufferT, hsize]
  simp [State.workOn, copyItemsIntoListFunc, hworker, hempty]

theorem workOn_of_remove (hbuf : Buffered s.cbuf) {aux : List UInt32}
    (hworker : s.worker = .remove aux) :
    ∃ s' x, s.workOn 1 = some s' ∧ Buffered s'.cbuf ∧ s'.worker = .testEmpty (aux ++ [x]) ∧
      s'.cbuf.size = s.cbuf.size - 1 := by
  refine ⟨{ s with
      cbuf := s.cbuf.removeCbufferT.1
      worker := .testEmpty (aux ++ [(headCbufferT s.cbuf).toUInt32]) },
    (headCbufferT s.cbuf).toUInt32, ?_, hbuf.remove, rfl,
    Cbuffer.size_remove hbuf.toDocumented hbuf.bound⟩
  simp [State.workOn, copyItemsIntoListFunc, hworker]

theorem takes_all (hbuf : Buffered s.cbuf) {aux : List UInt32} {k : Nat}
    (hworker : s.worker = .testEmpty aux) (hsize : s.cbuf.size = k + 1) :
    ∃ n s' aux', s.workOn n = some s' ∧ s'.worker = .remove aux' ∧
      aux'.length = aux.length + k := by
  induction k generalizing s aux with
  | zero =>
    exact ⟨1, _, aux, workOn_of_testEmpty hworker hsize, rfl, rfl⟩
  | succ k ih =>
    have htest := workOn_of_testEmpty hworker hsize
    obtain ⟨s₁, x, hturn, hbuf', hworker', hsize'⟩ :=
      workOn_of_remove (s := { s with worker := .remove aux }) hbuf rfl
    obtain ⟨n, s₂, aux', hrest, hlast, hlen⟩ :=
      ih hbuf' hworker' (hsize'.trans (by simp only [hsize, Nat.add_sub_cancel]))
    refine ⟨1 + (1 + n), s₂, aux', workOn_add htest (workOn_add hturn hrest), hlast, ?_⟩
    rw [hlen, List.length_append, List.length_singleton]
    omega

theorem not_drainsInside_of_refill (h : s.Room) (hbuf : Buffered s.cbuf)
    (hrefill : s.Refills a) (hmoves : Moves msecsToJiffies s a s' es) : ¬s'.DrainsInside := by
  cases a with
  | config | expire | work | «open» | release | file | mon => exact hrefill.elim
  | fire =>
    obtain ⟨hfire, hdraining, hlt, hfull⟩ := hrefill
    cases hmoves with
    | isPending hfire' | notPending hfire' | sizeEq hfire' | sizeNe hfire' | schedule hfire'
    | modTimer hfire' =>
      rw [hfire'] at hfire
      cases hfire
    | @insert n' es hfire' _ =>
      intro hall
      have hbuf' := hbuf.insert n'.toInt32
      have hsize : (s.cbuf.insertCbufferT n'.toInt32).1.size = s.cbuf.size + 1 := by
        have hcases := hbuf.size_insert n'.toInt32
        omega
      cases hworker : s.worker with
      | idle | adding =>
        rw [hworker] at hdraining
        cases hdraining
      | testEmpty aux =>
        simp only [State.Room, hworker, Worker.count] at h hfull
        obtain ⟨m, u, aux', hon, hremove, hlen⟩ := takes_all (s := { s with
          cbuf := (s.cbuf.insertCbufferT n'.toInt32).1, fire := .testPending }) hbuf' hworker hsize
        have hlast := hall m u hon aux' hremove
        omega
      | remove aux =>
        simp only [State.Room, hworker, Worker.count] at h hfull
        obtain ⟨s₁, x, hturn, hbuf₁, hworker₁, hsize₁⟩ := workOn_of_remove (s := { s with
          cbuf := (s.cbuf.insertCbufferT n'.toInt32).1, fire := .testPending }) hbuf' hworker
        obtain ⟨k, hk⟩ : ∃ k, s.cbuf.size = k + 1 := ⟨s.cbuf.size - 1, by omega⟩
        obtain ⟨m, u, aux', hon, hremove, hlen⟩ := takes_all hbuf₁ hworker₁
          (hsize₁.trans (show _ - 1 = k + 1 by rw [hsize, hk, Nat.add_sub_cancel]))
        have hlast := hall (1 + m) u (workOn_add hturn hon) aux' hremove
        rw [List.length_append, List.length_singleton] at hlen
        omega

variable [Fintype ι] {vector : Nat → Int32} {hz : Int64}

theorem State.Room.drainsInside (h : s.Room)
    (hs : (machine vector hz msecsToJiffies ι).Reachable s) : s.DrainsInside := by
  intro n
  induction n generalizing s with
  | zero =>
    intro s' hon
    cases hon
    exact h.storeInside
  | succ n ih =>
    intro s' hon
    obtain ⟨⟨s₁, es⟩, hwork, hon⟩ := Option.bind_eq_some_iff.mp hon
    have hmoves : Moves msecsToJiffies s .work s₁ es := moves_of_work hwork
    have hroom : s₁.Room := h.step (buffered hs) id hmoves
    exact ih hroom (hs.step (a := .work) hwork) s' hon

/-- In a run without refills every store into `aux_buffer` is inside. A run stays clear of
overruns, also when the worker goes on alone, exactly when it has no refill. -/
theorem stores_inside_iff_no_refill {as : List (Act ι)} {tr : List (Option ι × Event)}
    (hrun : (machine vector hz msecsToJiffies ι).Run as s tr) :
    ((machine vector hz msecsToJiffies ι).Along (fun s a => ¬s.Refills a)
        (machine vector hz msecsToJiffies ι).init as →
      (machine vector hz msecsToJiffies ι).Always (fun s _ => s.StoreInside) as) ∧
    ((machine vector hz msecsToJiffies ι).Always (fun s _ => s.DrainsInside) as ↔
      (machine vector hz msecsToJiffies ι).Along (fun s a => ¬s.Refills a)
        (machine vector hz msecsToJiffies ι).init as) := by
  have hiff : (machine vector hz msecsToJiffies ι).Always (fun s _ => s.DrainsInside) as ↔
      (machine vector hz msecsToJiffies ι).Along (fun s a => ¬s.Refills a)
        (machine vector hz msecsToJiffies ι).init as := by
    refine hrun.always_iff_along_of_invariant (C := fun s a => ¬s.Refills a)
      (I := fun s _ => (machine vector hz msecsToJiffies ι).Reachable s ∧ s.Room)
      ⟨Machine.run_nil.reachable, trivial⟩ ?_ (fun s t h => h.2.drainsInside h.1) ?_
    · rintro s t a s' es ⟨hs, hroom⟩ hrefill hstep
      exact ⟨hs.step hstep, hroom.step (buffered hs) hrefill (moves_of_step hstep)⟩
    · rintro s t a s' es ⟨hs, hroom⟩ hrefill hstep
      exact not_drainsInside_of_refill hroom (buffered hs) (not_not.mp hrefill)
        (moves_of_step hstep)
  refine ⟨fun hwrites pre hpre u t hu => ?_, hiff⟩
  exact hiff.mpr hwrites pre hpre u t hu 0 u rfl

/-- The eighth number schedules the transfer, two more come before it starts, and one when it
has taken the first. -/
def refilled : List (Act Unit) :=
  [.open (), .file ()] ++
    (List.replicate 8 [Act.expire 7, .fire, .fire, .fire, .fire]).flatten ++ [.fire] ++
    (List.replicate 2 [Act.expire 7, .fire, .fire, .fire]).flatten ++
    [.work, .work, .work, .expire 7, .fire]

theorem stores_inside_iff_no_refill_prefix :
    ∃ s tr, (machine (fun _ => 0) 250 (fun _ => 1) Unit).Run (refilled.dropLast) s tr ∧
      (machine (fun _ => 0) 250 (fun _ => 1) Unit).Always (fun s _ => s.StoreInside)
        refilled.dropLast := by
  have heval : ((machine (fun _ => 0) 250 (fun _ => 1) Unit).exec
      (machine (fun _ => 0) 250 (fun _ => 1) Unit).init refilled.dropLast).map
        (fun r => r.1.fire) = some (.insert 7) := by
    decide +kernel
  obtain ⟨s, tr, hrun, -⟩ := Machine.exists_run_of_eval heval
  exact ⟨s, tr, hrun, (stores_inside_iff_no_refill hrun).1 (by decide +kernel)⟩

/-- The last number of `refilled` makes eleven. -/
theorem refilled_overruns :
    ∃ s tr aux, (machine (fun _ => 0) 250 (fun _ => 1) Unit).Run
        (refilled ++ List.replicate 19 .work) s tr ∧
      s.worker = .remove aux ∧ aux.length = 10 := by
  have heval : ((machine (fun _ => 0) 250 (fun _ => 1) Unit).exec
      (machine (fun _ => 0) 250 (fun _ => 1) Unit).init
        (refilled ++ List.replicate 19 .work)).map (fun r => r.1.worker) =
      some (.remove (List.replicate 10 7)) := by
    decide +kernel
  obtain ⟨s, tr, hrun, hs⟩ := Machine.exists_run_of_eval heval
  exact ⟨s, tr, _, hrun, hs, by simp⟩

end LinuxInternals.Modtimer
