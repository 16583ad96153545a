import LinuxInternals.Lib.SemMonitor.Wakeups

/-!
# Wake-ups in transit

In a monitor whose processes wait for units of a resource, each new unit wakes one
process. A newcomer may take the unit before the woken process gets `mtx`. Nevertheless,
while somebody is announced on a queue, there are no more units than wake-ups on their way:
posted, about to be posted, or taken by a process that does not have `mtx` yet. Only a
process that is interrupted after it took its wake-up breaks this.
-/

namespace LinuxInternals.SemMonitor

variable {δ κ φ μ γ ρ ε ι : Type} [DecidableEq κ]

/-- Has taken a wake-up from `q`, and is about to ask for `mtx`. -/
def Proc.woken (queue : φ → κ) (q : κ) : Proc μ φ κ ρ → Bool
  | .inside f .relock => decide (queue f = q)
  | _ => false

/-- Client code that waits for units: `units q` says how many of them the data hold for
those that wait on `q`. -/
structure Client.Supplies (C : Client δ κ φ μ γ ρ ε) (ok : φ → Prop) (valid : δ → Prop)
    (queue : φ → κ) (cond : φ → δ → Bool) (units : κ → δ → Nat) : Prop
    extends C.Waits ok valid queue cond where
  blocked : ∀ f pt d nr q, ok f → valid d → (C.body f pt d nr).next = .block q →
    units q (C.body f pt d nr).data = 0
  supplies : ∀ f pt d nr q, ok f → valid d → 0 < nr q →
    units q (C.body f pt d nr).data ≤ units q d ∨
      (C.body f pt d nr).next = .signal q ∧ units q (C.body f pt d nr).data ≤ units q d + 1
  uses : ∀ f d nr, ok f → valid d → (C.body f .relocked d nr).next = .block (queue f) ∨
    units (queue f) (C.body f .relocked d nr).data + 1 ≤ units (queue f) d

variable {C : Client δ κ φ μ γ ρ ε} {ok : φ → Prop} {valid : δ → Prop} {queue : φ → κ}
  {cond : φ → δ → Bool} {units : κ → δ → Nat}

section Step

variable {sh sh' : Shared δ κ} {p p' : Proc μ φ κ ρ} {a : Act γ} {es : List ε}

/-- One process's share of the wake-ups on their way to `q`. -/
def Proc.carries (queue : φ → κ) (q : κ) (p : Proc μ φ κ ρ) : Nat :=
  (p.signalling q).toNat + (p.woken queue q).toNat

theorem carries_of_signal {g : Segment δ φ κ ρ ε} {q : κ} (h : g.next = .signal q) :
    Proc.carries queue q (g.proc : Proc μ φ κ ρ) = 1 := by
  simp [Proc.carries, Segment.proc, h, Next.stage, Proc.signalling, Proc.woken]

theorem pending_of_ne_block {g : Segment δ φ κ ρ ε} {q : κ} (h : g.next ≠ .block q) :
    (g.proc : Proc μ φ κ ρ).pending q = false := by
  rw [Segment.proc]
  cases hnext : g.next with
  | signal | unlock => rfl
  | block r =>
    have hrq : r ≠ q := fun hrq => h (by rw [hnext, hrq])
    simp [Next.stage, Proc.pending, hrq]

/-- What a piece of client code does to the units that somebody announced waits for. -/
theorem Client.Supplies.segment (hC : C.Supplies ok valid queue cond units) {f : φ} {pt : Point}
    {g : Segment δ φ κ ρ ε} (hok : ok f) (hvalid : valid sh.data)
    (hg : C.runBody sh f pt = g) (q : κ) (hnr : 0 < (sh.commit g).nrWaiting q) :
    units q g.data = 0 ∨ 0 < sh.nrWaiting q ∧
      units q g.data ≤ units q sh.data + Proc.carries queue q (g.proc : Proc μ φ κ ρ) := by
  subst hg
  by_cases hblock : (C.runBody sh f pt).next = .block q
  · exact .inl (hC.blocked f pt sh.data sh.nrWaiting q hok hvalid hblock)
  · right
    rw [commit_nrWaiting (μ := μ), pending_of_ne_block hblock, Bool.toNat_false, Int.natCast_zero,
      Int.add_zero] at hnr
    refine ⟨hnr, ?_⟩
    rcases hC.supplies f pt sh.data sh.nrWaiting q hok hvalid hnr with hle | ⟨hnext, hle⟩
    · exact hle.trans (Nat.le_add_right _ _)
    · rw [carries_of_signal (g := C.runBody sh f pt) hnext]
      exact hle

/-- A step keeps the number of units below that of the wake-ups in transit; `others` are
those of the other processes. -/
theorem Client.Moves.transit (hC : C.Supplies ok valid queue cond units)
    (h : C.Moves sh p a sh' p' es) (hp : ∀ f st, p = .inside f st → ok f)
    (hvalid : valid sh.data) (hqueue : ∀ f r, p = .inside f (.sleep r) → queue f = r)
    (hkeeps : ∀ f, p = .inside f .relock → a ≠ .intr) (q : κ) (others : Nat)
    (hbefore : 0 < sh.nrWaiting q →
      units q sh.data ≤ sh.sem q + p.carries queue q + others)
    (hafter : 0 < sh'.nrWaiting q) :
    units q sh'.data ≤ sh'.sem q + p'.carries queue q + others := by
  cases h with
  | enter | refuse | wait | unlock | lockIntr | sleepIntr => exact hbefore hafter
  | relockIntr => exact absurd rfl (hkeeps _ rfl)
  | @abort f r _ hm =>
    have hnr : 0 < sh.nrWaiting q := by
      simp only [Shared.addWaiting, Shared.down] at hafter
      by_cases hq : q = r
      · subst hq
        rw [Function.update_self] at hafter
        omega
      · rwa [Function.update_of_ne hq] at hafter
    exact hbefore hnr
  | lock hm hg =>
    rcases hC.segment (μ := μ) (hp _ _ rfl) (show valid sh.down.data from hvalid) hg q
        hafter with
      hzero | ⟨hnr, hle⟩
    · rw [commit_data, hzero]
      exact Nat.zero_le _
    · have hle₀ := hbefore hnr
      rw [commit_data, commit_sem]
      simp only [Proc.carries, Proc.signalling, Proc.woken, Bool.toNat_false] at hle₀
      simp only [Shared.down] at hle ⊢
      omega
  | @relock f _ g hm hg =>
    rcases hC.segment (μ := μ) (hp _ _ rfl) (show valid sh.down.data from hvalid) hg q
        hafter with
      hzero | ⟨hnr, hle⟩
    · rw [commit_data, hzero]
      exact Nat.zero_le _
    · have hle₀ := hbefore hnr
      have huses := hC.uses f sh.data sh.nrWaiting (hp _ _ rfl) hvalid
      rw [commit_data, commit_sem]
      simp only [Shared.down] at hle hnr ⊢
      by_cases hfq : queue f = q
      · subst hfq
        rcases huses with hblock | hused
        · have hzero := hC.blocked _ _ _ _ _ (hp _ _ rfl) hvalid hblock
          rw [← hg]
          exact hzero.trans_le (Nat.zero_le _)
        · simp only [Proc.carries, Proc.signalling, Proc.woken, decide_true, Bool.toNat_true,
            Bool.toNat_false] at hle₀
          have hused' : units (queue f) g.data + 1 ≤ units (queue f) sh.data := by
            rw [← hg]
            exact hused
          omega
      · simp only [Proc.carries, Proc.signalling, Proc.woken, hfq, decide_false,
          Bool.toNat_false] at hle₀
        omega
  | @signal f r _ g hg =>
    rcases hC.segment (μ := μ) (hp _ _ rfl)
        (show valid ((sh.post r).addWaiting r (-1)).data from hvalid) hg q hafter with
      hzero | ⟨hnr, hle⟩
    · rw [commit_data, hzero]
      exact Nat.zero_le _
    · rw [commit_data, commit_sem]
      by_cases hrq : q = r
      · subst hrq
        simp only [Shared.addWaiting, Shared.post, Function.update_self] at hle hnr ⊢
        have hle₀ := hbefore (by omega)
        simp only [Proc.carries, Proc.signalling, Proc.woken, beq_self_eq_true, Bool.toNat_true,
          Bool.toNat_false] at hle₀
        omega
      · have hne : (r == q) = false := beq_false_of_ne (Ne.symm hrq)
        simp only [Shared.addWaiting, Shared.post, Function.update_of_ne hrq] at hle hnr ⊢
        have hle₀ := hbefore hnr
        simp only [Proc.carries, Proc.signalling, Proc.woken, hne, Bool.toNat_false] at hle₀
        omega
  | @take f r _ hs =>
    have hle₀ := hbefore hafter
    have hfr := hqueue f r rfl
    subst hfr
    by_cases hq : q = queue f
    · subst hq
      simp only [Proc.carries, Proc.signalling, Proc.woken, Bool.toNat_false, Shared.take,
        Function.update_self, decide_true, Bool.toNat_true] at hle₀ ⊢
      omega
    · have hne : decide (queue f = q) = false := decide_eq_false (Ne.symm hq)
      simp only [Proc.carries, Proc.signalling, Proc.woken, Bool.toNat_false, Shared.take,
        Function.update_of_ne hq, hne] at hle₀ ⊢
      omega

end Step

variable [Fintype ι] [DecidableEq ι] {s s' : State δ κ φ μ ρ ι}

/-- The wake-ups on their way to `q`. -/
def transit (queue : φ → κ) (s : State δ κ φ μ ρ ι) (q : κ) : Nat :=
  s.sem q + headcount (Proc.signalling q) s.proc + headcount (Proc.woken queue q) s.proc

/-- The step interrupts a process between its wake-up and `mtx`. -/
def spoils (s : State δ κ φ μ ρ ι) (ia : ι × Act γ) : Bool :=
  match s.proc ia.1, ia.2 with
  | .inside _ .relock, .intr => true
  | _, _ => false

/-- While somebody is announced on a queue, its units are matched by wake-ups in transit. -/
theorem units_le_transit (hC : C.Supplies ok valid queue cond units) {as : List (ι × Act γ)}
    {tr : List (ι × ε)} (hspoils : (machine C ι).Along (fun s ia => spoils s ia = false)
      (machine C ι).init as) (hrun : (machine C ι).Run as s tr) (q : κ)
    (hnr : 0 < s.nrWaiting q) : units q s.data ≤ transit queue s q := by
  have hinv : (machine C ι).Reachable s ∧
      (0 < s.nrWaiting q → units q s.data ≤ transit queue s q) := by
    refine hrun.invariant (C := fun s ia => spoils s ia = false)
      (I := fun s _ => (machine C ι).Reachable s ∧
        (0 < s.nrWaiting q → units q s.data ≤ transit queue s q)) ?_ ?_ hspoils
    · refine ⟨Machine.run_nil.reachable, fun hpos => ?_⟩
      simp [machine] at hpos
    · rintro s t ⟨i, a⟩ s' es ⟨hs, hI⟩ hspoil hstep
      refine ⟨hs.step hstep, fun hpos => ?_⟩
      obtain ⟨es, hmoves, hproc, -⟩ := moves_of_step hstep
      have hsignalling := headcount_update (Proc.signalling q) s.proc i (s'.proc i)
      have hwoken := headcount_update (Proc.woken queue q) s.proc i (s'.proc i)
      rw [← hproc] at hsignalling hwoken
      have hle := toNat_le_headcount (Proc.signalling q) s.proc i
      have hle' := toNat_le_headcount (Proc.woken queue q) s.proc i
      have hmove := hmoves.transit hC (fun _ _ hf => reachable_frame hC.toFrames hs hf)
        (reachable_valid hC.toKeeps hs)
        (fun f r hf => queue_of_pending hC.toWaits hs i (.inr hf)) ?_ q
        (headcount (Proc.signalling q) s.proc - ((s.proc i).signalling q).toNat +
          (headcount (Proc.woken queue q) s.proc - ((s.proc i).woken queue q).toNat)) ?_ hpos
      · rw [transit]
        rw [Proc.carries] at hmove
        omega
      · rintro f hf rfl
        simp [spoils, hf] at hspoil
      · intro hnr
        have hle₀ := hI hnr
        rw [transit] at hle₀
        rw [Proc.carries]
        omega
  exact hinv.2 hnr

/-- In a quiescent state nothing is left for a process that sleeps. -/
theorem units_of_quiescent (hC : C.Supplies ok valid queue cond units) {as : List (ι × Act γ)}
    {tr : List (ι × ε)} (hspoils : (machine C ι).Along (fun s ia => spoils s ia = false)
      (machine C ι).init as) (hrun : (machine C ι).Run as s tr) (hquiet : Quiescent s) {i : ι}
    {f : φ} {q : κ} (hi : s.proc i = .inside f (.sleep q)) : units q s.data = 0 := by
  have hsem : s.sem q = 0 := by
    have hrest := hquiet.2 i
    rw [hi] at hrest
    exact beq_iff_eq.mp hrest
  have hnobody (P : Proc μ φ κ ρ → Bool) (hP : ∀ sem p, p.resting sem = true → P p = false) :
      headcount P s.proc = 0 := headcount_eq_zero_iff.mpr fun j => hP s.sem _ (hquiet.2 j)
  have hsignalling : headcount (Proc.signalling q) s.proc = 0 := by
    apply hnobody
    intro sem p hp
    unfold Proc.signalling
    split
    · cases hp
    · rfl
  have hwoken : headcount (Proc.woken queue q) s.proc = 0 := by
    apply hnobody
    intro sem p hp
    unfold Proc.woken
    split
    · cases hp
    · rfl
  have hpending := headcount_pos (P := Proc.pending q) (f := s.proc) i (by simp [hi, Proc.pending])
  have hsum := waiting_conserved hrun.reachable q
  have hle := units_le_transit hC hspoils hrun q (by omega)
  rw [transit] at hle
  omega

end LinuxInternals.SemMonitor
