import LinuxInternals.Lib.SemMonitor.Invariant

/-!
# Lost wake-ups of a semaphore monitor

A wake-up on offer for a queue is a unit of its semaphore, or a process about to post
one. If client code posts whenever it ends the wait condition of somebody in the queue,
a process waits in vain only after another one of its queue took the last wake-up on
offer. `robs` is that step.
-/

namespace LinuxInternals.SemMonitor

variable {δ κ φ μ γ ρ ε ι : Type} [DecidableEq κ]

namespace Proc

/-- About to post a unit to `q`. -/
def signalling (q : κ) : Proc μ φ κ ρ → Bool
  | .inside _ (.signal r) => r == q
  | _ => false

/-- Waiting on `q` although its wait condition has ended. -/
def unserved (cond : φ → δ → Bool) (d : δ) (q : κ) : Proc μ φ κ ρ → Bool
  | .inside f (.wait r) | .inside f (.sleep r) => r == q && !cond f d
  | _ => false

/-- Outside, or asleep with no unit to take. -/
def resting (sem : κ → Nat) : Proc μ φ κ ρ → Bool
  | .user _ => true
  | .inside _ (.sleep q) => sem q == 0
  | _ => false

theorem unserved_iff {cond : φ → δ → Bool} {d : δ} {q : κ} {p : Proc μ φ κ ρ} :
    p.unserved cond d q = true ↔
      ∃ f, (p = .inside f (.wait q) ∨ p = .inside f (.sleep q)) ∧ cond f d = false := by
  constructor
  · intro h
    unfold unserved at h
    split at h
    · simp only [Bool.and_eq_true, beq_iff_eq, Bool.not_eq_true'] at h
      obtain ⟨rfl, hcond⟩ := h
      exact ⟨_, .inl rfl, hcond⟩
    · simp only [Bool.and_eq_true, beq_iff_eq, Bool.not_eq_true'] at h
      obtain ⟨rfl, hcond⟩ := h
      exact ⟨_, .inr rfl, hcond⟩
    · cases h
  · rintro ⟨f, rfl | rfl, hcond⟩ <;> simp [unserved, hcond]

theorem pending_of_unserved {cond : φ → δ → Bool} {d : δ} {q : κ} {p : Proc μ φ κ ρ}
    (h : p.unserved cond d q = true) : p.pending q = true := by
  obtain ⟨f, rfl | rfl, -⟩ := unserved_iff.mp h <;> simp [pending]

end Proc

/-- Wait conditions that the client observes. `valid` is what its data satisfy. -/
structure Client.Waits (C : Client δ κ φ μ γ ρ ε) (ok : φ → Prop) (valid : δ → Prop)
    (queue : φ → κ) (cond : φ → δ → Bool) : Prop extends C.Keeps ok valid where
  blocks : ∀ f pt d nr q, (C.body f pt d nr).next = .block q →
    cond (C.body f pt d nr).frame (C.body f pt d nr).data = true
  queues : ∀ f pt d nr q, (C.body f pt d nr).next = .block q →
    queue (C.body f pt d nr).frame = q
  posts : ∀ f pt d nr w, ok f → valid d → cond w d = true →
    cond w (C.body f pt d nr).data = false →
    (C.body f pt d nr).next = .signal (queue w) ∨ nr (queue w) ≤ 0

section Offers

variable [Fintype ι]

def offers (s : State δ κ φ μ ρ ι) (q : κ) : Nat :=
  s.sem q + headcount (Proc.signalling q) s.proc

/-- The step takes the last wake-up on offer although `c` waits in the same queue and
its wait condition has ended. -/
def robs [DecidableEq ι] (cond : φ → δ → Bool) (c : ι) (s : State δ κ φ μ ρ ι) (ia : ι × Act γ) :
    Bool :=
  match s.proc ia.1, ia.2 with
  | .inside _ (.sleep q), .run _ =>
    ia.1 ≠ c && decide (offers s q ≤ 1) && (s.proc c).unserved cond s.data q
  | _, _ => false

/-- `mtx` is free and every process is outside or asleep. -/
def Quiescent (s : State δ κ φ μ ρ ι) : Prop :=
  s.mtx = 1 ∧ ∀ i, (s.proc i).resting s.sem = true

instance (s : State δ κ φ μ ρ ι) : Decidable (Quiescent s) :=
  inferInstanceAs (Decidable (_ ∧ _))

end Offers

variable {C : Client δ κ φ μ γ ρ ε} {ok : φ → Prop} {valid : δ → Prop} {queue : φ → κ}
  {cond : φ → δ → Bool}

namespace Client

variable {sh sh' : Shared δ κ} {p p' : Proc μ φ κ ρ} {a : Act γ} {es : List ε}

theorem signalling_segment {g : Segment δ φ κ ρ ε} {q : κ}
    (h : g.next = .signal q) : (g.proc : Proc μ φ κ ρ).signalling q = true := by
  simp [Segment.proc, h, Next.stage, Proc.signalling]

theorem Moves.of_sleep {f : φ} {q : κ} (h : C.Moves sh (.inside f (.sleep q)) a sh' p' es) :
    (∃ copied, a = .run copied) ∧ 0 < sh.sem q ∧ sh' = sh.take q ∧ p' = .inside f .relock ∨
      a = .intr ∧ sh' = sh ∧ p' = .inside f (.abort q) := by
  cases h with
  | take hs => exact .inl ⟨⟨_, rfl⟩, hs, rfl, rfl⟩
  | sleepIntr => exact .inr ⟨rfl, rfl, rfl⟩

theorem Moves.offers_le (h : C.Moves sh p a sh' p' es) (q : κ)
    (htake : ∀ f, p ≠ .inside f (.sleep q)) :
    sh.sem q + (p.signalling q).toNat ≤ sh'.sem q + (p'.signalling q).toNat := by
  cases h with
  | enter | refuse | lockIntr | sleepIntr | relockIntr | wait | unlock | abort => exact le_rfl
  | lock | relock =>
    rw [commit_sem]
    exact Nat.le_add_right _ _
  | @signal f r _ _ _ =>
    rw [commit_sem]
    by_cases hrq : r = q
    · subst hrq
      simp [Shared.addWaiting, Shared.post, Proc.signalling]
    · have hother : (Proc.inside f (.signal r) : Proc μ φ κ ρ).signalling q = false :=
        beq_false_of_ne hrq
      simp [Shared.addWaiting, Shared.post, hother, Ne.symm hrq]
  | @take f r _ hs =>
    have hrq : r ≠ q := fun hrq => htake f (by rw [hrq])
    simp [Shared.take, Proc.signalling, Ne.symm hrq]

/-- Code that makes an end of a wait condition goes on to signal it, unless nobody is announced. -/
theorem Waits.segment (hC : C.Waits ok valid queue cond) {f : φ} {pt : Point}
    {g : Segment δ φ κ ρ ε} (hok : ok f) (hvalid : valid sh.data)
    (hg : C.runBody sh f pt = g) {w : φ} (hbefore : cond w sh.data = true)
    (hafter : cond w (sh.commit g).data = false) :
    (g.proc : Proc μ φ κ ρ).signalling (queue w) = true ∨ sh.nrWaiting (queue w) ≤ 0 := by
  subst hg
  rw [commit_data] at hafter
  rcases hC.posts f pt sh.data sh.nrWaiting w hok hvalid hbefore hafter with hnext | hnr
  · exact .inl (signalling_segment hnext)
  · exact .inr hnr

/-- The data change only in client code, which then posts to the queues it must. -/
theorem Moves.posts (hC : C.Waits ok valid queue cond) (h : C.Moves sh p a sh' p' es)
    (hp : ∀ f st, p = .inside f st → ok f) (hvalid : valid sh.data) {w : φ}
    (hbefore : cond w sh.data = true) (hafter : cond w sh'.data = false)
    (hpending : 1 ≤ sh.nrWaiting (queue w) + sh.sem (queue w)) :
    p'.signalling (queue w) = true ∨ 0 < sh'.sem (queue w) := by
  cases h with
  | enter | refuse | lockIntr | sleepIntr | relockIntr | wait | take | unlock | abort =>
    exact absurd (hbefore.symm.trans hafter) (by decide)
  | lock _ hg | relock _ hg =>
    apply (hC.segment (hp _ _ rfl) (show valid sh.down.data from hvalid) hg hbefore
      hafter).imp_right
    intro hnr
    rw [commit_sem]
    simp only [Shared.down] at hnr ⊢
    omega
  | @signal _ r _ _ hg =>
    have hsum := post_addWaiting_sum sh r (queue w)
    apply (hC.segment (hp _ _ rfl)
      (show valid ((sh.post r).addWaiting r (-1)).data from hvalid) hg hbefore hafter).imp_right
    intro hnr
    rw [commit_sem]
    omega

theorem Moves.unserved_before (hC : C.Waits ok valid queue cond) (h : C.Moves sh p a sh' p' es)
    {q : κ} (hp' : p'.unserved cond sh'.data q = true) :
    p.unserved cond sh.data q = true ∧ (∀ f, p ≠ .inside f (.sleep q)) := by
  have hsegment (f : φ) (pt : Point) (sh₁ : Shared δ κ) (g : Segment δ φ κ ρ ε)
      (hg : C.runBody sh₁ f pt = g) :
      (g.proc : Proc μ φ κ ρ).unserved cond g.data q = false := by
    subst hg
    unfold Segment.proc
    cases hnext : (C.runBody sh₁ f pt).next with
    | block r =>
      have hcond := hC.blocks f pt sh₁.data sh₁.nrWaiting r hnext
      simp [Next.stage, Proc.unserved, runBody, hcond]
    | signal | unlock => rfl
  cases h with
  | enter | refuse | lockIntr | sleepIntr | relockIntr | take | unlock | abort => cases hp'
  | lock _ hg | relock _ hg | signal hg =>
    rw [commit_data, hsegment _ _ _ _ hg] at hp'
    cases hp'
  | wait => exact ⟨hp', fun f => by simp⟩

end Client

variable [DecidableEq ι] {s s' : State δ κ φ μ ρ ι}

theorem queue_of_pending (hC : C.Waits ok valid queue cond) (h : (machine C ι).Reachable s)
    (i : ι) {f : φ} {q : κ}
    (hi : s.proc i = .inside f (.wait q) ∨ s.proc i = .inside f (.sleep q)) :
    queue f = q := by
  rcases hi with hi | hi
  · exact pending_frame (R := fun f q => queue f = q) hC.queues h hi (by simp [hi, Proc.pending])
  · exact pending_frame (R := fun f q => queue f = q) hC.queues h hi (by simp [hi, Proc.pending])

variable [Fintype ι]

theorem offers_update {i : ι} (hproc : s'.proc = Function.update s.proc i (s'.proc i)) (q : κ) :
    headcount (Proc.signalling q) s'.proc + ((s.proc i).signalling q).toNat =
      headcount (Proc.signalling q) s.proc + ((s'.proc i).signalling q).toNat := by
  rw [hproc, headcount_update, Function.update_self]

theorem offers_pos_of_not_robs {c i : ι} {a : Act γ} {es : List ε} (hci : c ≠ i)
    (hmoves : C.Moves s.toShared (s.proc i) a s'.toShared (s'.proc i) es)
    (hproc : s'.proc = Function.update s.proc i (s'.proc i))
    (hrobs : robs cond c s (i, a) = false) {q : κ}
    (hc : (s.proc c).unserved cond s.data q = true) (hoffers : 0 < offers s q) :
    0 < offers s' q := by
  have hupdate := offers_update hproc q
  unfold offers at hoffers ⊢
  by_cases htake : ∀ f, s.proc i ≠ .inside f (.sleep q)
  · have hle := hmoves.offers_le q htake
    omega
  · push Not at htake
    obtain ⟨f, hi⟩ := htake
    rw [hi] at hmoves hupdate
    rcases hmoves.of_sleep with ⟨⟨copied, rfl⟩, hs, hsh, hp'⟩ | ⟨rfl, hsh, hp'⟩
    · have hmany : 1 < offers s q := by
        simpa [robs, hi, hci.symm, hc] using hrobs
      have hsem : s'.sem q = s.sem q - 1 := by
        simp [hsh, Shared.take]
      unfold offers at hmany
      rw [hp'] at hupdate
      simp only [Proc.signalling, Bool.toNat_false] at hupdate
      omega
    · rw [hp'] at hupdate
      simp only [Proc.signalling, Bool.toNat_false] at hupdate
      rw [hsh]
      omega

theorem offers_pos_of_served (hC : C.Waits ok valid queue cond) (hs : (machine C ι).Reachable s)
    {c i : ι} {a : Act γ} {es : List ε}
    (hmoves : C.Moves s.toShared (s.proc i) a s'.toShared (s'.proc i) es) {q : κ}
    (hbefore : (s.proc c).unserved cond s.data q = false)
    (hafter : (s.proc c).unserved cond s'.data q = true) : 0 < offers s' q := by
  have hcpending := Proc.pending_of_unserved hafter
  have hpending := headcount_pos (P := Proc.pending q) (f := s.proc) c hcpending
  have hsum := waiting_conserved hs q
  obtain ⟨w, hcw, hcond'⟩ := Proc.unserved_iff.mp hafter
  have hcond : cond w s.data = true := by
    by_contra hfalse
    rw [Proc.unserved_iff.mpr ⟨w, hcw, by simpa using hfalse⟩] at hbefore
    cases hbefore
  obtain rfl := queue_of_pending hC hs c hcw
  rcases hmoves.posts hC (fun _ _ hf => reachable_frame hC.toFrames hs hf)
      (reachable_valid hC.toKeeps hs) hcond hcond' (by omega) with hsignal | hsem
  · have := headcount_pos (P := Proc.signalling (queue w)) (f := s'.proc) i hsignal
    unfold offers
    omega
  · unfold offers
    omega

/-- Once `c` does not wait in vain, and as long as nobody robs it from then on, a wake-up is on
offer whenever it waits in vain. -/
theorem offered_of_unserved (hC : C.Waits ok valid queue cond) {c : ι} {s₀ : State δ κ φ μ ρ ι}
    (hs₀ : (machine C ι).Reachable s₀)
    (hserved : ∀ q, (s₀.proc c).unserved cond s₀.data q = false) {as : List (ι × Act γ)}
    {tr : List (ι × ε)} (hrobs : (machine C ι).Along (fun s ia => robs cond c s ia = false) s₀ as)
    (hexec : (machine C ι).exec s₀ as = some (s, tr)) {q : κ}
    (hc : (s.proc c).unserved cond s.data q = true) : 0 < offers s q := by
  have hinv : (machine C ι).Reachable s ∧
      ∀ q, (s.proc c).unserved cond s.data q = true → 0 < offers s q := by
    refine Machine.exec_invariant (C := fun s ia => robs cond c s ia = false)
      (I := fun s _ => (machine C ι).Reachable s ∧
        ∀ q, (s.proc c).unserved cond s.data q = true → 0 < offers s q) ?_
      (t := []) ⟨hs₀, fun q hq => ?_⟩ hrobs hexec
    · rintro s t ⟨i, a⟩ s' es ⟨hs, hI⟩ hrob hstep
      refine ⟨hs.step hstep, fun q hq => ?_⟩
      obtain ⟨es, hmoves, hproc, -⟩ := moves_of_step hstep
      by_cases hci : c = i
      · subst hci
        obtain ⟨hbefore, htake⟩ := hmoves.unserved_before hC hq
        have hle := hmoves.offers_le q htake
        have hupdate := offers_update hproc q
        have hpos := hI q hbefore
        unfold offers at hpos ⊢
        omega
      · have hsame : s'.proc c = s.proc c := by rw [hproc, Function.update_of_ne hci]
        rw [hsame] at hq
        cases hbefore : (s.proc c).unserved cond s.data q with
        | true => exact offers_pos_of_not_robs hci hmoves hproc hrob hbefore (hI q hbefore)
        | false => exact offers_pos_of_served hC hs hmoves hbefore hq
    · rw [hserved q] at hq
      cases hq
  exact hinv.2 q hc

/-- Nothing can move without a new system call or an interruption. -/
theorem quiescent_iff (h : (machine C ι).Reachable s) :
    Quiescent s ↔ ∀ i copied, (machine C ι).step s (i, .run copied) = none := by
  constructor
  · rintro ⟨-, hrest⟩ i copied
    have hi := hrest i
    simp only [machine]
    cases hp : s.proc i with
    | user x => rfl
    | inside f st =>
      rw [hp] at hi
      cases st with
      | sleep q =>
        have hsem : s.sem q = 0 := beq_iff_eq.mp hi
        simp [Client.act, hsem]
      | lock | signal | wait | relock | abort | unlock => cases hi
  · intro hstuck
    have hact (i : ι) (copied : Bool) : C.act s.toShared (s.proc i) (.run copied) = none := by
      have hstep := hstuck i copied
      simp only [machine] at hstep
      cases hact : C.act s.toShared (s.proc i) (.run copied) with
      | none => rfl
      | some r =>
        rw [hact] at hstep
        cases hstep
    have hfree : s.mtx = 1 := by
      have hnone : headcount Proc.holds s.proc = 0 := by
        rw [headcount_eq_zero_iff]
        intro i
        have hi := hact i true
        unfold Proc.holds
        split <;> simp_all [Client.act]
      have hone := mtx_conserved h
      omega
    refine ⟨hfree, fun i => ?_⟩
    have hi := hact i true
    cases hp : s.proc i with
    | user x => rfl
    | inside f st =>
      rw [hp] at hi
      cases st <;> simp [Client.act, Client.quit, hfree] at hi
      exact beq_iff_eq.mpr hi

/-- In a quiescent state a sleeper has its wait condition, unless it has been robbed since it
last did not wait in vain. -/
theorem cond_of_quiescent (hC : C.Waits ok valid queue cond) {c : ι} {s₀ : State δ κ φ μ ρ ι}
    (hs₀ : (machine C ι).Reachable s₀)
    (hserved : ∀ q, (s₀.proc c).unserved cond s₀.data q = false) {as : List (ι × Act γ)}
    {tr : List (ι × ε)} (hrobs : (machine C ι).Along (fun s ia => robs cond c s ia = false) s₀ as)
    (hexec : (machine C ι).exec s₀ as = some (s, tr)) (hquiet : Quiescent s) {f : φ}
    {q : κ} (hc : s.proc c = .inside f (.sleep q)) : cond f s.data = true := by
  by_contra hcond
  have hunserved : (s.proc c).unserved cond s.data q = true := by
    simpa [hc, Proc.unserved] using hcond
  have hoffers := offered_of_unserved hC hs₀ hserved hrobs hexec hunserved
  have hsem : s.sem q = 0 := by
    have hrest := hquiet.2 c
    rw [hc] at hrest
    exact beq_iff_eq.mp hrest
  have hsignal : headcount (Proc.signalling q) s.proc = 0 := by
    rw [headcount_eq_zero_iff]
    intro i
    have hrest := hquiet.2 i
    unfold Proc.signalling
    split
    · rw [‹s.proc i = _›] at hrest
      cases hrest
    · rfl
  unfold offers at hoffers
  omega

end LinuxInternals.SemMonitor
