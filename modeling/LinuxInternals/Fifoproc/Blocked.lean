import LinuxInternals.Fifoproc.Waiting

/-!
# Blocked processes

What becomes of the processes asleep in the four wait loops: the semaphores lose no unit
and no waiter, and yet a process can be left asleep although its loop condition has ended,
because another one of its queue took the unit, or because the condition came back before
it got `mtx`.
-/

namespace LinuxInternals.Fifoproc

open SemMonitor Client

variable {β ι : Type} {D : Device β}

variable [Fintype ι] [DecidableEq ι] {s : State β ι}

/-- `mtx` is in one place, and each queue's counter and semaphore together number its
waiters, interruptions included. -/
theorem semaphores_conserved (h : (machine D ι).Reachable s) :
    s.mtx + headcount Proc.holds s.proc = 1 ∧
    (∀ i j, (s.proc i).holds = true → (s.proc j).holds = true → i = j) ∧
    ((∀ i, ∃ x, s.proc i = .user x) → s.mtx = 1) ∧
    ∀ r, s.nrWaiting r + s.sem r = headcount (Proc.pending r) s.proc := by
  refine ⟨mtx_conserved h, fun i j => holder_unique h, fun houtside => ?_, waiting_conserved h⟩
  have hone := mtx_conserved h
  have hnone : headcount Proc.holds s.proc = 0 := by
    rw [headcount_eq_zero_iff]
    intro i
    obtain ⟨x, hx⟩ := houtside i
    rw [hx]
    rfl
  omega

theorem semaphores_conserved_bothOpen :
    ∃ s tr, (machine (parteB fun _ => 0) (Fin 2)).Run bothOpen s tr ∧
      s.mtx + headcount Proc.holds s.proc = 1 := by
  have heval : ((machine (parteB fun _ => 0) (Fin 2)).exec
      (machine (parteB fun _ => 0) (Fin 2)).init bothOpen).map (fun r => r.1.mtx) = some 1 := by
    decide +kernel
  obtain ⟨s, tr, hrun, -⟩ := Machine.exists_run_of_eval heval
  exact ⟨s, tr, hrun, (semaphores_conserved hrun.reachable).1⟩

/-- A blocked process in a quiescent state still has its loop condition, unless some step has
robbed it since it last did not wait in vain. -/
theorem waits_of_unrobbed {vector : Nat → UInt8} {s₀ s : State (Cbuffer UInt8) ι} {c : ι}
    (hs₀ : (machine (parteB vector) ι).Reachable s₀)
    (hserved : ∀ q, (s₀.proc c).unserved (Frame.waits (parteB vector)) s₀.data q = false)
    {as : List (ι × Act Call)} {tr : List (ι × Event)}
    (hrobs : (machine (parteB vector) ι).Along
      (fun s ia => robs (Frame.waits (parteB vector)) c s ia = false) s₀ as)
    (hexec : (machine (parteB vector) ι).exec s₀ as = some (s, tr)) (hquiet : Quiescent s)
    {f : Frame} {q : Role} (hc : s.proc c = .inside f (.sleep q)) :
    f.waits (parteB vector) s.data = true :=
  cond_of_quiescent (waits (parteBLawful vector)) hs₀ hserved hrobs hexec hquiet hc

def loopTest (D : Device β) (s : State β ι) (i : ι) : Option Bool :=
  match s.proc i with
  | .inside f (.sleep _) => some (f.waits D s.data)
  | _ => none

omit [Fintype ι] [DecidableEq ι] in
theorem loopTest_eq_some {i : ι} {b : Bool} (h : loopTest D s i = some b) :
    ∃ f q, s.proc i = .inside f (.sleep q) ∧ f.waits D s.data = b := by
  unfold loopTest at h
  split at h
  · exact ⟨_, _, ‹_›, Option.some.inj h⟩
  · cases h

/-- Two readers open and wait, then a writer opens: it wakes one of them. -/
def twoReaders : List (Fin 3 × Act Call) :=
  [(0, .call (.open .rdonly) true), (0, .run true), (0, .run true),
    (1, .call (.open .rdonly) true), (1, .run true), (1, .run true),
    (2, .call (.open .wronly) true), (2, .run true), (2, .run true), (2, .run true),
    (0, .run true), (0, .run true), (0, .run true)]

/-- The second reader sleeps on although a writer is there. -/
theorem twoReaders_stranded :
    ∃ s tr f q, (machine (parteB fun _ => 0) (Fin 3)).Run twoReaders s tr ∧ Quiescent s ∧
      s.proc 1 = .inside f (.sleep q) ∧ f.waits (parteB fun _ => 0) s.data = false := by
  have heval : ((machine (parteB fun _ => 0) (Fin 3)).exec
      (machine (parteB fun _ => 0) (Fin 3)).init twoReaders).map
        (fun r => (decide (Quiescent r.1), loopTest (parteB fun _ => 0) r.1 1)) =
      some (true, some false) := by
    decide +kernel
  obtain ⟨s, tr, hrun, hs⟩ := Machine.exists_run_of_eval heval
  obtain ⟨hquiet, hasleep⟩ := Prod.mk.inj hs
  obtain ⟨f, q, hf, hwaits⟩ := loopTest_eq_some hasleep
  exact ⟨s, tr, f, q, hrun, of_decide_eq_true hquiet, hf, hwaits⟩

/-- The role in which a process is asleep inside `fifoproc_open`. -/
def opening (s : State β ι) (i : ι) : Option Role :=
  match s.proc i with
  | .inside (.open m) (.sleep _) => some m.role
  | _ => none

omit [Fintype ι] [DecidableEq ι] in
theorem opening_eq_some {i : ι} {r : Role} (h : opening s i = some r) :
    ∃ m q, s.proc i = .inside (.open m) (.sleep q) ∧ m.role = r := by
  unfold opening at h
  split at h
  · exact ⟨_, _, ‹_›, Option.some.inj h⟩
  · cases h

/-- The second reader, once robbed, returns `-EINTR`. -/
def robbedOnce : List (Fin 3 × Act Call) :=
  twoReaders ++ [(1, .intr), (1, .run true), (1, .run true)]

/-- The writer closes, and the second reader opens again. -/
def opensAgain : List (Fin 3 × Act Call) :=
  [(2, .call .release true), (2, .run true), (2, .run true),
    (1, .call (.open .rdonly) true), (1, .run true), (1, .run true)]

theorem exists_opensAgain :
    ∃ s₀ t s tr m q, (machine (parteB fun _ => 0) (Fin 3)).Run robbedOnce s₀ t ∧
      (∀ q, (s₀.proc 1).unserved (Frame.waits (parteB fun _ => 0)) s₀.data q = false) ∧
      (machine (parteB fun _ => 0) (Fin 3)).Along
        (fun s ia => robs (Frame.waits (parteB fun _ => 0)) 1 s ia = false) s₀ opensAgain ∧
      (machine (parteB fun _ => 0) (Fin 3)).exec s₀ opensAgain = some (s, tr) ∧ Quiescent s ∧
      s.proc 1 = .inside (.open m) (.sleep q) := by
  have heval : ((machine (parteB fun _ => 0) (Fin 3)).exec
      (machine (parteB fun _ => 0) (Fin 3)).init robbedOnce).bind (fun r =>
        ((machine (parteB fun _ => 0) (Fin 3)).exec r.1 opensAgain).map fun u =>
          ([Role.prod, .cons].map
            ((r.1.proc 1).unserved (Frame.waits (parteB fun _ => 0)) r.1.data),
          decide ((machine (parteB fun _ => 0) (Fin 3)).Along
            (fun s ia => robs (Frame.waits (parteB fun _ => 0)) 1 s ia = false) r.1 opensAgain),
          decide (Quiescent u.1), opening u.1 1)) =
      some ([false, false], true, true, some .cons) := by
    decide +kernel
  obtain ⟨⟨s₀, t⟩, hrun, hrest⟩ := Option.bind_eq_some_iff.mp heval
  obtain ⟨⟨s, tr⟩, hexec, hs⟩ := Option.map_eq_some_iff.mp hrest
  simp only [List.map_cons, List.map_nil, Prod.mk.injEq, List.cons.injEq, and_true,
    decide_eq_true_eq] at hs
  obtain ⟨⟨hprod, hcons⟩, hrobs, hquiet, hopening⟩ := hs
  obtain ⟨m, q, hm, -⟩ := opening_eq_some hopening
  refine ⟨s₀, t, s, tr, m, q, hrun, fun r => ?_, hrobs, hexec, hquiet, hm⟩
  cases r with
  | prod => exact hprod
  | cons => exact hcons

/-- The reader was robbed in its first open, and waits for a writer again. -/
theorem waits_of_unrobbed_opensAgain :
    ¬ (machine (parteB fun _ => 0) (Fin 3)).Along
        (fun s ia => robs (Frame.waits (parteB fun _ => 0)) 1 s ia = false)
        (machine (parteB fun _ => 0) (Fin 3)).init robbedOnce ∧
    ∃ s₀ t s tr f q, (machine (parteB fun _ => 0) (Fin 3)).Run robbedOnce s₀ t ∧
      (machine (parteB fun _ => 0) (Fin 3)).exec s₀ opensAgain = some (s, tr) ∧ Quiescent s ∧
      s.proc 1 = .inside f (.sleep q) ∧ f.waits (parteB fun _ => 0) s.data = true := by
  refine ⟨by decide +kernel, ?_⟩
  obtain ⟨s₀, t, s, tr, m, q, hrun, hserved, hrobs, hexec, hquiet, hm⟩ := exists_opensAgain
  exact ⟨s₀, t, s, tr, .open m, q, hrun, hexec, hquiet, hm,
    waits_of_unrobbed hrun.reachable hserved hrobs hexec hquiet hm⟩

/-- A process that is left waiting in `fifoproc_open` waits for a role that nobody has,
unless some step has robbed it since it last did not wait in vain. -/
theorem nobody_open_of_unrobbed {vector : Nat → UInt8} {s₀ s : State (Cbuffer UInt8) ι} {c : ι}
    (hs₀ : (machine (parteB vector) ι).Reachable s₀)
    (hserved : ∀ q, (s₀.proc c).unserved (Frame.waits (parteB vector)) s₀.data q = false)
    {as : List (ι × Act Call)} {tr : List (ι × Event)}
    (hrobs : (machine (parteB vector) ι).Along
      (fun s ia => robs (Frame.waits (parteB vector)) c s ia = false) s₀ as)
    (hexec : (machine (parteB vector) ι).exec s₀ as = some (s, tr)) (hquiet : Quiescent s)
    {m : FMode} {q : Role} (hc : s.proc c = .inside (.open m) (.sleep q)) :
    s.data.count m.role.other = 0 ∧ ∀ i, counted m.role.other (s.proc i) = false := by
  have hcount : s.data.count m.role.other = 0 := of_decide_eq_true
    (cond_of_quiescent (waits (parteBLawful vector)) hs₀ hserved hrobs hexec hquiet hc)
  have hle := headcount_le_count (hs₀.exec hexec) m.role.other
  exact ⟨hcount, headcount_eq_zero_iff.mp (by omega)⟩

theorem nobody_open_of_unrobbed_opensAgain :
    ∃ s₀ t s tr m q, (machine (parteB fun _ => 0) (Fin 3)).Run robbedOnce s₀ t ∧
      (machine (parteB fun _ => 0) (Fin 3)).exec s₀ opensAgain = some (s, tr) ∧ Quiescent s ∧
      s.proc 1 = .inside (.open m) (.sleep q) ∧ s.data.count m.role.other = 0 := by
  obtain ⟨s₀, t, s, tr, m, q, hrun, hserved, hrobs, hexec, hquiet, hm⟩ := exists_opensAgain
  exact ⟨s₀, t, s, tr, m, q, hrun, hexec, hquiet, hm,
    (nobody_open_of_unrobbed hrun.reachable hserved hrobs hexec hquiet hm).1⟩

/-- A reader waits in open; a writer opens, wakes it and closes before it gets `mtx`. -/
def hitAndRun : List (Fin 2 × Act Call) :=
  [(reader, .call (.open .rdonly) true), (reader, .run true), (reader, .run true),
    (writer, .call (.open .wronly) true), (writer, .run true), (writer, .run true),
    (writer, .run true), (writer, .call .release true), (writer, .run true), (writer, .run true),
    (reader, .run true), (reader, .run true), (reader, .run true)]

/-- The writer's open has returned 0 after the reader's increment, nobody was interrupted,
and the reader waits in open again. -/
theorem hitAndRun_misses :
    ∃ s, (machine (parteB fun _ => 0) (Fin 2)).Run hitAndRun s
        [(reader, .count .cons 1), (writer, .count .prod 1), (writer, .ret .open (.done 0) []),
          (writer, .count .prod (-1)), (writer, .ret .release (.done 0) [])] ∧
      (∀ ia ∈ hitAndRun, ia.2 ≠ .intr) ∧ Quiescent s ∧
      ∃ m q, s.proc reader = .inside (.open m) (.sleep q) ∧ m.role = .cons := by
  have heval : ((machine (parteB fun _ => 0) (Fin 2)).exec
      (machine (parteB fun _ => 0) (Fin 2)).init hitAndRun).map
        (fun r => (r.2, decide (Quiescent r.1), opening r.1 reader)) =
      some ([(reader, .count .cons 1), (writer, .count .prod 1), (writer, .ret .open (.done 0) []),
        (writer, .count .prod (-1)), (writer, .ret .release (.done 0) [])], true, some .cons) := by
    decide +kernel
  obtain ⟨s, tr, hrun, hs⟩ := Machine.exists_run_of_eval heval
  obtain ⟨rfl, hrest⟩ := Prod.mk.inj hs
  obtain ⟨hquiet, hopening⟩ := Prod.mk.inj hrest
  exact ⟨s, hrun, by decide, of_decide_eq_true hquiet, opening_eq_some hopening⟩

end LinuxInternals.Fifoproc
