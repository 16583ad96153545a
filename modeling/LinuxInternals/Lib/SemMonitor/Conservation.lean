import LinuxInternals.Lib.SemMonitor.Basic

/-!
# Conservation laws of a semaphore monitor

Exactly one unit of `mtx` exists, in the semaphore or with a process. Each announced
wait is matched by a unit in the queue's semaphore or by the counter, whichever of the
waker and an interrupted sleeper gets to it first; the counter may go below zero.
-/

namespace LinuxInternals.SemMonitor

variable {δ κ φ μ γ ρ ε ι : Type} [DecidableEq κ]

namespace Proc

/-- Between taking `mtx` and releasing it. -/
def holds : Proc μ φ κ ρ → Bool
  | .inside _ (.signal _) | .inside _ (.wait _) | .inside _ (.unlock _) => true
  | _ => false

/-- Has raised `nrWaiting q`, and has neither taken a unit nor lowered it again. -/
def pending (q : κ) : Proc μ φ κ ρ → Bool
  | .inside _ (.wait r) | .inside _ (.sleep r) | .inside _ (.abort r) => r == q
  | _ => false

end Proc

namespace Client

variable {C : Client δ κ φ μ γ ρ ε} {sh sh' : Shared δ κ} {p p' : Proc μ φ κ ρ} {a : Act γ}
  {es : List ε}

omit [DecidableEq κ] in
theorem holds_segment (g : Segment δ φ κ ρ ε) : (g.proc : Proc μ φ κ ρ).holds = true := by
  unfold Segment.proc
  cases g.next <;> rfl

@[simp] theorem commit_mtx (g : Segment δ φ κ ρ ε) : (sh.commit g).mtx = sh.mtx := by
  unfold Shared.commit
  cases g.next <;> rfl

@[simp] theorem commit_sem (g : Segment δ φ κ ρ ε) : (sh.commit g).sem = sh.sem := by
  unfold Shared.commit
  cases g.next <;> rfl

@[simp] theorem commit_data (g : Segment δ φ κ ρ ε) : (sh.commit g).data = g.data := by
  unfold Shared.commit
  cases g.next <;> rfl

theorem commit_nrWaiting (g : Segment δ φ κ ρ ε) (q : κ) :
    (sh.commit g).nrWaiting q = sh.nrWaiting q + ((g.proc : Proc μ φ κ ρ).pending q).toNat := by
  unfold Shared.commit Segment.proc
  cases g.next with
  | block r =>
    by_cases hrq : r = q
    · subst hrq
      simp [Shared.addWaiting, Next.stage, Proc.pending]
    · simp [Shared.addWaiting, Next.stage, Proc.pending, hrq, Ne.symm hrq]
  | signal r => simp [Next.stage, Proc.pending]
  | unlock r => simp [Next.stage, Proc.pending]

theorem post_addWaiting_sum (sh : Shared δ κ) (r q : κ) :
    ((sh.post r).addWaiting r (-1)).nrWaiting q + ((sh.post r).addWaiting r (-1)).sem q =
      sh.nrWaiting q + sh.sem q := by
  by_cases hrq : q = r
  · subst hrq
    simp only [Shared.addWaiting, Shared.post, Function.update_self]
    omega
  · simp [Shared.addWaiting, Shared.post, hrq]

theorem Moves.mtx_balance (h : C.Moves sh p a sh' p' es) :
    sh'.mtx + p'.holds.toNat = sh.mtx + p.holds.toNat := by
  cases h with
  | enter | refuse | lockIntr | sleepIntr | relockIntr | take => rfl
  | lock hm | relock hm =>
    rw [holds_segment, commit_mtx]
    simp only [Shared.down, Proc.holds, Bool.toNat_true, Bool.toNat_false]
    omega
  | signal hg => rw [holds_segment, commit_mtx]; rfl
  | wait | unlock => rfl
  | abort hm =>
    simp only [Shared.down, Shared.addWaiting, Proc.holds, Bool.toNat_true, Bool.toNat_false]
    omega

theorem Moves.waiting_balance (h : C.Moves sh p a sh' p' es) (q : κ) :
    sh'.nrWaiting q + sh'.sem q + (p.pending q).toNat =
      sh.nrWaiting q + sh.sem q + (p'.pending q).toNat := by
  cases h with
  | enter | refuse | lockIntr | sleepIntr | relockIntr | wait | unlock => rfl
  | lock | relock =>
    rw [commit_nrWaiting (μ := μ), commit_sem]
    simp only [Shared.down, Proc.pending, Bool.toNat_false]
    omega
  | @signal _ r _ _ _ =>
    have hsum := post_addWaiting_sum sh r q
    rw [commit_nrWaiting (μ := μ), commit_sem]
    simp only [Proc.pending, Bool.toNat_false]
    omega
  | @take _ r _ hs =>
    by_cases hrq : r = q
    · subst hrq
      simp only [Shared.take, Proc.pending, Function.update_self, beq_self_eq_true,
        Bool.toNat_true, Bool.toNat_false]
      omega
    · simp [Shared.take, Proc.pending, hrq, Ne.symm hrq]
  | @abort _ r _ hm =>
    by_cases hrq : r = q
    · subst hrq
      simp only [Shared.addWaiting, Shared.down, Proc.pending, Function.update_self,
        beq_self_eq_true, Bool.toNat_true, Bool.toNat_false]
      omega
    · simp [Shared.addWaiting, Shared.down, Proc.pending, hrq, Ne.symm hrq]

end Client

variable [Fintype ι] [DecidableEq ι] {C : Client δ κ φ μ γ ρ ε} {s : State δ κ φ μ ρ ι}

theorem mtx_conserved (h : (machine C ι).Reachable s) :
    s.mtx + headcount Proc.holds s.proc = 1 := by
  refine h.invariant (I := fun s => s.mtx + headcount Proc.holds s.proc = 1) ?_ ?_
  · rw [machine, headcount_const _ _ rfl]
  · rintro s ⟨i, a⟩ s' tr hI hstep
    obtain ⟨es, hmoves, hproc, -⟩ := moves_of_step hstep
    have hbalance := hmoves.mtx_balance
    have hcount := headcount_update Proc.holds s.proc i (s'.proc i)
    rw [hproc]
    omega

/-- The counter and the units of a queue together number its pending processes. -/
theorem waiting_conserved (h : (machine C ι).Reachable s) (q : κ) :
    s.nrWaiting q + s.sem q = headcount (Proc.pending q) s.proc := by
  refine h.invariant
    (I := fun s : State δ κ φ μ ρ ι =>
      s.nrWaiting q + s.sem q = headcount (Proc.pending q) s.proc) ?_ ?_
  · rw [machine, headcount_const _ _ rfl]
    rfl
  · rintro s ⟨i, a⟩ s' tr hI hstep
    obtain ⟨es, hmoves, hproc, -⟩ := moves_of_step hstep
    have hbalance := hmoves.waiting_balance q
    have hcount := headcount_update (Proc.pending q) s.proc i (s'.proc i)
    rw [hproc]
    omega

theorem holder_unique (h : (machine C ι).Reachable s) {i j : ι}
    (hi : (s.proc i).holds = true) (hj : (s.proc j).holds = true) : i = j := by
  have hone := mtx_conserved h
  exact eq_of_headcount_le_one (by omega) hi hj

end LinuxInternals.SemMonitor
