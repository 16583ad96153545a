import LinuxInternals.Lib.SemMonitor.Conservation

/-!
# The sign of a waiting counter

Client code that posts to a queue only where its counter is positive keeps the counter from
going below zero, except for one step: a sleeper that was interrupted lowers the counter
although the semaphore already holds a unit for everybody who is announced.
-/

namespace LinuxInternals.SemMonitor

variable {δ κ φ μ γ ρ ε ι : Type} [DecidableEq κ]

def Client.PostsToWaiting (C : Client δ κ φ μ γ ρ ε) : Prop :=
  ∀ f pt d nr q, (C.body f pt d nr).next = .signal q → 0 < nr q

/-- The step lowers `nrWaiting q` although `sem q` already holds a unit for everybody. -/
def overdraws [Fintype ι] (q : κ) (s : State δ κ φ μ ρ ι) (ia : ι × Act γ) : Bool :=
  match s.proc ia.1, ia.2 with
  | .inside _ (.abort r), .run _ =>
    r == q && decide (headcount (Proc.pending q) s.proc ≤ s.sem q)
  | _, _ => false

variable {C : Client δ κ φ μ γ ρ ε}

namespace Client

variable {sh sh' : Shared δ κ} {p p' : Proc μ φ κ ρ} {a : Act γ} {es : List ε}

theorem pos_of_commit (hC : C.PostsToWaiting) {f : φ} {pt : Point} {g : Segment δ φ κ ρ ε}
    (hg : C.runBody sh f pt = g) {f' : φ} {q : κ}
    (hp : (g.proc : Proc μ φ κ ρ) = .inside f' (.signal q)) : 0 < (sh.commit g).nrWaiting q := by
  have hnext : g.next = .signal q := by
    simp only [Segment.proc, Proc.inside.injEq] at hp
    cases hg' : g.next <;> simp [hg', Next.stage] at hp
    rw [hp.2]
  have hpos : 0 < sh.nrWaiting q := by
    subst hg
    exact hC _ _ _ _ _ hnext
  rw [commit_nrWaiting (μ := μ)]
  omega

theorem Moves.pos_of_signal (hC : C.PostsToWaiting) {f : φ} {q : κ}
    (h : C.Moves sh p a sh' (.inside f (.signal q)) es) : 0 < sh'.nrWaiting q := by
  generalize hp : (Proc.inside f (.signal q) : Proc μ φ κ ρ) = p' at h
  cases h with
  | lock _ hg | relock _ hg | signal hg => exact pos_of_commit hC hg hp.symm
  | enter | refuse | wait | take | abort | unlock | lockIntr | sleepIntr | relockIntr => cases hp

theorem Moves.shared_of_call {c : γ} {copied : Bool}
    (h : C.Moves sh p (.call c copied) sh' p' es) : sh' = sh := by
  cases h with
  | enter | refuse => rfl

/-- Only the holder of `mtx` or a process that finds it free changes a counter. -/
theorem Moves.nrWaiting_eq (h : C.Moves sh p a sh' p' es) (hp : p.holds = false)
    (hm : sh.mtx = 0) : sh'.nrWaiting = sh.nrWaiting := by
  cases h with
  | enter | refuse | lockIntr | sleepIntr | relockIntr | take => rfl
  | lock hm' | relock hm' | abort hm' => omega
  | signal | wait | unlock => cases hp

theorem Moves.nrWaiting_nonneg_iff (h : C.Moves sh p a sh' p' es) (q : κ)
    (hsignal : ∀ f, p = .inside f (.signal q) → 0 < sh.nrWaiting q) (hnr : 0 ≤ sh.nrWaiting q) :
    0 ≤ sh'.nrWaiting q ↔ ∀ f copied, p = .inside f (.abort q) → a = .run copied →
      0 < sh.nrWaiting q := by
  cases h with
  | enter | refuse | lockIntr | sleepIntr | relockIntr | wait | take | unlock =>
    exact iff_of_true hnr (by simp)
  | lock | relock =>
    rw [commit_nrWaiting (μ := μ)]
    refine iff_of_true ?_ (by simp)
    simp only [Shared.down]
    omega
  | @signal f r _ g _ =>
    rw [commit_nrWaiting (μ := μ)]
    refine iff_of_true ?_ (by simp)
    rcases eq_or_ne q r with rfl | hqr
    · have hpos := hsignal f rfl
      simp only [Shared.addWaiting, Shared.post, Function.update_self]
      omega
    · simp only [Shared.addWaiting, Shared.post, Function.update_of_ne hqr]
      omega
  | @abort f r copied _ =>
    rcases eq_or_ne q r with rfl | hqr
    · simp only [Shared.addWaiting, Shared.down, Function.update_self]
      constructor
      · intro hle _ _ _ _
        omega
      · intro hpos
        have := hpos f copied rfl rfl
        omega
    · simp only [Shared.addWaiting, Shared.down, Function.update_of_ne hqr]
      apply iff_of_true hnr
      rintro f' copied' hf
      cases hf
      exact absurd rfl hqr

end Client

variable [Fintype ι] [DecidableEq ι] {s s' : State δ κ φ μ ρ ι}

theorem nrWaiting_pos_of_signal (hC : C.PostsToWaiting) (h : (machine C ι).Reachable s) {i : ι}
    {f : φ} {q : κ} (hi : s.proc i = .inside f (.signal q)) : 0 < s.nrWaiting q := by
  have hinv : (machine C ι).Reachable s ∧
      ∀ i f q, s.proc i = .inside f (.signal q) → 0 < s.nrWaiting q := by
    obtain ⟨as, tr, hrun⟩ := h
    refine hrun.invariant (C := fun _ _ => True)
      (I := fun s _ => (machine C ι).Reachable s ∧
        ∀ i f q, s.proc i = .inside f (.signal q) → 0 < s.nrWaiting q)
      ⟨Machine.run_nil.reachable, fun i f q hi => by cases hi⟩ ?_ (Machine.along_true _ _)
    rintro s t ⟨j, a⟩ s' es ⟨hs, hI⟩ - hstep
    refine ⟨hs.step hstep, fun i f q hi => ?_⟩
    obtain ⟨es, hmoves, hproc, -⟩ := moves_of_step hstep
    rcases eq_or_ne i j with rfl | hij
    · rw [hi] at hmoves
      exact hmoves.pos_of_signal hC
    · rw [hproc, Function.update_of_ne hij] at hi
      -- `i` holds `mtx`, so the step of `j` leaves the counters alone
      have hholds : (s.proc i).holds = true := by rw [hi]; rfl
      have hone := mtx_conserved hs
      have hpos := headcount_pos i hholds
      have hj : (s.proc j).holds = false :=
        Bool.eq_false_iff.mpr fun hj => hij (holder_unique hs hholds hj)
      rw [hmoves.nrWaiting_eq hj (by omega)]
      exact hI i f q hi
  exact hinv.2 i f q hi

/-- A counter stays at zero or above exactly when no step overdraws it. -/
theorem nrWaiting_nonneg_step (hC : C.PostsToWaiting) (h : (machine C ι).Reachable s) {q : κ}
    (hnr : 0 ≤ s.nrWaiting q) {ia : ι × Act γ} {es : List (ι × ε)}
    (hstep : (machine C ι).step s ia = some (s', es)) :
    0 ≤ s'.nrWaiting q ↔ overdraws q s ia = false := by
  obtain ⟨i, a⟩ := ia
  obtain ⟨es, hmoves, -, -⟩ := moves_of_step hstep
  have hsum := waiting_conserved h q
  rw [hmoves.nrWaiting_nonneg_iff q (fun f hf => nrWaiting_pos_of_signal hC h hf) hnr]
  unfold overdraws
  split
  case h_1 f r copied hp ha =>
    simp only at hp ha
    subst ha
    simp only [hp, Proc.inside.injEq, Stage.abort.injEq, Act.run.injEq, Bool.and_eq_false_imp,
      beq_iff_eq, decide_eq_false_iff_not]
    constructor
    · rintro hpos rfl
      have := hpos f copied ⟨rfl, rfl⟩ rfl
      omega
    · rintro hle f' copied' ⟨rfl, rfl⟩ -
      have := hle rfl
      omega
  case h_2 hne =>
    refine iff_of_true ?_ rfl
    rintro f copied hp rfl
    exact absurd rfl (hne f q copied hp)

end LinuxInternals.SemMonitor
