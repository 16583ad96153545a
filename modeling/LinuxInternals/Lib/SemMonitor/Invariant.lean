import LinuxInternals.Lib.SemMonitor.Conservation

/-!
# The invariant rule of a semaphore monitor

A monitor invariant has two sides: `free` holds of the data while nobody holds `mtx`, and
`held` relates them to the process that does. Client code that gives back `free` wherever
it gives up `mtx` keeps both, whatever the other processes do. Both sides may look at the
events so far.
-/

namespace LinuxInternals.SemMonitor

variable {δ κ φ μ γ ρ ε ι : Type} [DecidableEq κ]

/-- A fact about local variables that holds from the call on. -/
structure Client.Frames (C : Client δ κ φ μ γ ρ ε) (ok : φ → Prop) : Prop where
  enter : ∀ x c copied f, C.syscall x c copied = some (.enter f) → ok f
  keeps : ∀ f pt d nr, ok f → ok (C.body f pt d nr).frame

/-- A fact about the data that every piece of client code keeps. -/
structure Client.Keeps (C : Client δ κ φ μ γ ρ ε) (ok : φ → Prop) (valid : δ → Prop) : Prop
    extends C.Frames ok where
  init : valid C.data₀
  code : ∀ f pt d nr, ok f → valid d → valid (C.body f pt d nr).data

/-- Events of a step that does not touch `mtx`. -/
def Client.Outside (C : Client δ κ φ μ γ ρ ε) (es : List ε) : Prop :=
  es = [] ∨ (∃ x c copied y, C.syscall x c copied = some (.done y es)) ∨
    ∃ f, (C.leave f C.eintr true).2 = es

/-- The obligations of client code, for runs whose steps satisfy `allow`. -/
structure Client.Guards (C : Client δ κ φ μ γ ρ ε) (ok : φ → Prop)
    (allow : δ → Proc μ φ κ ρ → Act γ → Prop) (free : δ → List (ι × ε) → Prop)
    (held : Proc μ φ κ ρ → δ → List (ι × ε) → Prop) : Prop where
  init : free C.data₀ []
  lock : ∀ i f copied d nr tr, ok f → allow d (.inside f .lock) (.run copied) → free d tr →
    held (C.body f .entered d nr).proc (C.body f .entered d nr).data
      (tr ++ (C.body f .entered d nr).effects.map (Prod.mk i))
  relock : ∀ i f copied d nr tr, ok f → allow d (.inside f .relock) (.run copied) → free d tr →
    held (C.body f .relocked d nr).proc (C.body f .relocked d nr).data
      (tr ++ (C.body f .relocked d nr).effects.map (Prod.mk i))
  signal : ∀ i f q copied d nr tr, ok f → allow d (.inside f (.signal q)) (.run copied) →
    held (.inside f (.signal q)) d tr →
    held (C.body f .signalled d nr).proc (C.body f .signalled d nr).data
      (tr ++ (C.body f .signalled d nr).effects.map (Prod.mk i))
  wait : ∀ f q d tr, held (.inside f (.wait q)) d tr → free d tr
  abort : ∀ f d tr, free d tr → held (.inside f (.unlock C.eintr)) d tr
  unlock : ∀ i f r copied d tr, ok f → allow d (.inside f (.unlock r)) (.run copied) →
    held (.inside f (.unlock r)) d tr → free d (tr ++ (C.leave f r copied).2.map (Prod.mk i))
  free_outside : ∀ i es d tr, C.Outside es → free d tr → free d (tr ++ es.map (Prod.mk i))
  held_outside : ∀ i es p d tr, C.Outside es → held p d tr → held p d (tr ++ es.map (Prod.mk i))

def Stage.point : Stage κ ρ → Option Point
  | .lock => some .entered
  | .signal _ => some .signalled
  | .relock => some .relocked
  | .wait _ | .sleep _ | .abort _ | .unlock _ => none

/-- Committed to a wait, and not yet past it. -/
def Stage.parked : Stage κ ρ → Bool
  | .wait _ | .sleep _ | .abort _ => true
  | .lock | .signal _ | .relock | .unlock _ => false

section Step

variable {C : Client δ κ φ μ γ ρ ε} {ok : φ → Prop} {sh sh' : Shared δ κ}
  {p p' : Proc μ φ κ ρ} {a : Act γ} {es : List ε}

/-- A process inside a call makes its way to the next piece of code, runs one, or leaves. -/
theorem Client.Moves.inside_cases {f : φ} {st : Stage κ ρ}
    (h : C.Moves sh (.inside f st) a sh' p' es) :
    (∃ st', st.parked = true ∧ (st'.parked = true ∨ st' = .relock ∨ st' = .unlock C.eintr) ∧
      p' = .inside f st' ∧ sh'.data = sh.data ∧ es = []) ∨
    (∃ pt nr, st.point = some pt ∧ (pt ≠ .signalled → 0 < sh.mtx) ∧
      p' = (C.body f pt sh.data nr).proc ∧ sh'.data = (C.body f pt sh.data nr).data ∧
      es = (C.body f pt sh.data nr).effects) ∨
    ∃ r copied, (st = .unlock r ∧ a = .run copied ∨ r = C.eintr ∧ copied = true) ∧
      p' = .user (C.leave f r copied).1 ∧ sh'.data = sh.data ∧ es = (C.leave f r copied).2 := by
  cases h with
  | lock hm hg | relock hm hg =>
    subst hg
    exact .inr (.inl ⟨_, _, rfl, fun _ => hm, rfl, commit_data _, rfl⟩)
  | signal hg =>
    subst hg
    exact .inr (.inl ⟨_, _, rfl, fun hpt => absurd rfl hpt, rfl, commit_data _, rfl⟩)
  | wait | sleepIntr => exact .inl ⟨_, rfl, .inl rfl, rfl, rfl, rfl⟩
  | take => exact .inl ⟨_, rfl, .inr (.inl rfl), rfl, rfl, rfl⟩
  | abort => exact .inl ⟨_, rfl, .inr (.inr rfl), rfl, rfl, rfl⟩
  | unlock hleave =>
    refine .inr (.inr ⟨_, _, .inl ⟨rfl, rfl⟩, ?_⟩)
    rw [hleave]
    exact ⟨rfl, rfl, rfl⟩
  | lockIntr hleave | relockIntr hleave =>
    refine .inr (.inr ⟨_, true, .inr ⟨rfl, rfl⟩, ?_⟩)
    rw [hleave]
    exact ⟨rfl, rfl, rfl⟩

/-- A frame comes from a system call, or from the frame that was there before. -/
theorem Client.Moves.frame_cases {f' : φ} {st' : Stage κ ρ}
    (h : C.Moves sh p a sh' (.inside f' st') es) :
    (∃ x c copied, p = .user x ∧ a = .call c copied ∧
      C.syscall x c copied = some (.enter f')) ∨
    ∃ f st, p = .inside f st ∧ (f' = f ∨ ∃ pt d nr, f' = (C.body f pt d nr).frame) := by
  cases p with
  | user x =>
    cases h with
    | enter hcall => exact .inl ⟨_, _, _, rfl, rfl, hcall⟩
  | inside f st =>
    refine .inr ⟨f, st, rfl, ?_⟩
    rcases h.inside_cases with ⟨st'', -, -, hp, -⟩ | ⟨pt, nr, -, -, hp, -⟩ | ⟨r, copied, -, hp, -⟩
    · cases hp
      exact .inl rfl
    · cases hp
      exact .inr ⟨pt, _, nr, rfl⟩
    · cases hp

theorem Client.Moves.keeps_valid {valid : δ → Prop} (hC : C.Keeps ok valid)
    (h : C.Moves sh p a sh' p' es) (hp : ∀ f st, p = .inside f st → ok f)
    (hvalid : valid sh.data) : valid sh'.data := by
  cases h with
  | enter | refuse | lockIntr | sleepIntr | relockIntr | wait | take | unlock | abort =>
    exact hvalid
  | lock _ hg | relock _ hg | signal hg =>
    rw [commit_data, ← hg]
    exact hC.code _ _ _ _ (hp _ _ rfl) hvalid

/-- A process is pending on a queue only with a frame that its code has chosen to block. -/
theorem Client.Moves.pending_frame {R : φ → κ → Prop}
    (hC : ∀ f pt d nr q, (C.body f pt d nr).next = .block q → R (C.body f pt d nr).frame q)
    (h : C.Moves sh p a sh' p' es) {q : κ}
    (hp : ∀ f st, p = .inside f st → p.pending q = true → R f q) :
    ∀ f st, p' = .inside f st → p'.pending q = true → R f q := by
  rintro f' st' rfl hq
  cases h with
  | enter => cases hq
  | take | abort => cases hq
  | wait | sleepIntr => exact hp _ _ rfl hq
  | lock _ hg | relock _ hg | signal hg =>
    subst hg
    cases hnext : (C.runBody _ _ _).next with
    | block r =>
      rw [hnext] at hq
      obtain rfl := beq_iff_eq.mp hq
      exact hC _ _ _ _ _ hnext
    | signal | unlock =>
      rw [hnext] at hq
      cases hq

variable {allow : δ → Proc μ φ κ ρ → Act γ → Prop} {free : δ → List (ι × ε) → Prop}
  {held : Proc μ φ κ ρ → δ → List (ι × ε) → Prop}

/-- A step leaves `mtx` alone, takes it, keeps it or gives it back. -/
theorem Client.Guards.step_cases (hC : C.Guards ok allow free held)
    (h : C.Moves sh p a sh' p' es) (hp : ∀ f st, p = .inside f st → ok f)
    (hallow : allow sh.data p a) (i : ι) (tr : List (ι × ε)) :
    (p.holds = false ∧ p'.holds = false ∧ sh'.mtx = sh.mtx ∧ sh'.data = sh.data ∧
      C.Outside es) ∨
    (0 < sh.mtx ∧ p'.holds = true ∧ sh'.mtx = sh.mtx - 1 ∧
      (free sh.data tr → held p' sh'.data (tr ++ es.map (Prod.mk i)))) ∨
    (p.holds = true ∧ p'.holds = true ∧ sh'.mtx = sh.mtx ∧
      (held p sh.data tr → held p' sh'.data (tr ++ es.map (Prod.mk i)))) ∨
    (p.holds = true ∧ p'.holds = false ∧
      (held p sh.data tr → free sh'.data (tr ++ es.map (Prod.mk i)))) := by
  cases h with
  | enter | take | sleepIntr => exact .inl ⟨rfl, rfl, rfl, rfl, .inl rfl⟩
  | refuse hcall => exact .inl ⟨rfl, rfl, rfl, rfl, .inr (.inl ⟨_, _, _, _, hcall⟩)⟩
  | lockIntr hleave | relockIntr hleave =>
    exact .inl ⟨rfl, rfl, rfl, rfl, .inr (.inr ⟨_, congrArg Prod.snd hleave⟩)⟩
  | lock hm hg =>
    refine .inr (.inl ⟨hm, holds_segment _, commit_mtx _, fun hfree => ?_⟩)
    rw [commit_data, ← hg]
    exact hC.lock i _ _ _ _ tr (hp _ _ rfl) hallow hfree
  | relock hm hg =>
    refine .inr (.inl ⟨hm, holds_segment _, commit_mtx _, fun hfree => ?_⟩)
    rw [commit_data, ← hg]
    exact hC.relock i _ _ _ _ tr (hp _ _ rfl) hallow hfree
  | signal hg =>
    refine .inr (.inr (.inl ⟨rfl, holds_segment _, commit_mtx _, fun hheld => ?_⟩))
    rw [commit_data, ← hg]
    exact hC.signal i _ _ _ _ _ tr (hp _ _ rfl) hallow hheld
  | wait =>
    refine .inr (.inr (.inr ⟨rfl, rfl, fun hheld => ?_⟩))
    rw [List.map_nil, List.append_nil]
    exact hC.wait _ _ _ tr hheld
  | abort hm =>
    refine .inr (.inl ⟨hm, rfl, rfl, fun hfree => ?_⟩)
    rw [List.map_nil, List.append_nil]
    exact hC.abort _ _ tr hfree
  | unlock hleave =>
    refine .inr (.inr (.inr ⟨rfl, rfl, fun hheld => ?_⟩))
    obtain rfl := congrArg Prod.snd hleave
    exact hC.unlock i _ _ _ _ tr (hp _ _ rfl) hallow hheld

end Step

variable [DecidableEq ι] {C : Client δ κ φ μ γ ρ ε} {ok : φ → Prop} {s s' : State δ κ φ μ ρ ι}

/-- A fact about each process and its frame survives a step if client code keeps it and a
new frame has it. -/
theorem frames_of_step {R : ι → φ → Prop}
    (hbody : ∀ i f pt d nr, R i f → R i (C.body f pt d nr).frame)
    (hI : ∀ i f st, s.proc i = .inside f st → R i f) {i : ι} {a : Act γ} {es : List (ι × ε)}
    (hstep : (machine C ι).step s (i, a) = some (s', es))
    (hcall : ∀ x c copied f, a = .call c copied → C.syscall x c copied = some (.enter f) → R i f) :
    ∀ j f st, s'.proc j = .inside f st → R j f := by
  intro j f st hj
  obtain ⟨es, hmoves, hproc, -⟩ := moves_of_step hstep
  rcases eq_or_ne j i with rfl | hji
  · rw [hj] at hmoves
    rcases hmoves.frame_cases with ⟨x, c, copied, -, ha, hnew⟩ |
      ⟨f', st', hf, rfl | ⟨pt, d, nr, rfl⟩⟩
    · exact hcall x c copied f ha hnew
    · exact hI _ _ _ hf
    · exact hbody _ _ _ _ _ (hI _ _ _ hf)
  · rw [hproc, Function.update_of_ne hji] at hj
    exact hI j f st hj

theorem reachable_frame (hC : C.Frames ok) (h : (machine C ι).Reachable s) {i : ι} {f : φ}
    {st : Stage κ ρ} (hi : s.proc i = .inside f st) : ok f := by
  have hinv : ∀ i f st, s.proc i = .inside f st → ok f := by
    refine h.invariant
      (I := fun s : State δ κ φ μ ρ ι => ∀ i f st, s.proc i = .inside f st → ok f) ?_ ?_
    · intro i f st hi
      cases hi
    · rintro s ⟨j, a⟩ s' tr hI hstep
      exact frames_of_step (R := fun _ => ok) (fun _ => hC.keeps) hI hstep
        (fun x c copied f _ => hC.enter x c copied f)
  exact hinv i f st hi

theorem pending_frame {R : φ → κ → Prop}
    (hC : ∀ f pt d nr q, (C.body f pt d nr).next = .block q → R (C.body f pt d nr).frame q)
    (h : (machine C ι).Reachable s) {i : ι} {f : φ} {st : Stage κ ρ} {q : κ}
    (hi : s.proc i = .inside f st) (hq : (s.proc i).pending q = true) : R f q := by
  have hinv : ∀ i f st, s.proc i = .inside f st → (s.proc i).pending q = true → R f q := by
    refine h.invariant (I := fun s : State δ κ φ μ ρ ι =>
      ∀ i f st, s.proc i = .inside f st → (s.proc i).pending q = true → R f q) ?_ ?_
    · intro i f st hi
      cases hi
    · rintro s ⟨j, a⟩ s' tr hI hstep i f st hi hq
      obtain ⟨es, hmoves, hproc, -⟩ := moves_of_step hstep
      rcases eq_or_ne i j with rfl | hij
      · exact hmoves.pending_frame hC (hI i) f st hi hq
      · rw [hproc, Function.update_of_ne hij] at hi hq
        exact hI i f st hi hq
  exact hinv i f st hi hq

theorem reachable_valid {valid : δ → Prop} (hC : C.Keeps ok valid)
    (h : (machine C ι).Reachable s) : valid s.data := by
  have hinv : (machine C ι).Reachable s ∧ valid s.data := by
    obtain ⟨as, tr, hrun⟩ := h
    refine hrun.invariant (C := fun _ _ => True)
      (I := fun s _ => (machine C ι).Reachable s ∧ valid s.data) ?_ ?_ (Machine.along_true _ _)
    · exact ⟨Machine.run_nil.reachable, hC.init⟩
    · rintro s t ⟨i, a⟩ s' es ⟨hs, hvalid⟩ - hstep
      obtain ⟨_, hmoves, -⟩ := moves_of_step hstep
      exact ⟨hs.step hstep, hmoves.keeps_valid hC
        (fun _ _ hf => reachable_frame hC.toFrames hs hf) hvalid⟩
  exact hinv.2

variable [Fintype ι] {allow : δ → Proc μ φ κ ρ → Act γ → Prop} {free : δ → List (ι × ε) → Prop}
  {held : Proc μ φ κ ρ → δ → List (ι × ε) → Prop} {tr : List (ι × ε)}

structure Guarded (free : δ → List (ι × ε) → Prop)
    (held : Proc μ φ κ ρ → δ → List (ι × ε) → Prop) (s : State δ κ φ μ ρ ι)
    (tr : List (ι × ε)) : Prop where
  free : 0 < s.mtx → free s.data tr
  held : ∀ i, (s.proc i).holds = true → held (s.proc i) s.data tr

theorem Guarded.free_or_held (h : Guarded free held s tr) (hs : (machine C ι).Reachable s) :
    free s.data tr ∨ ∃ i, (s.proc i).holds = true ∧ held (s.proc i) s.data tr := by
  have hone := mtx_conserved hs
  rcases Nat.eq_zero_or_pos s.mtx with hm | hm
  · obtain ⟨i, hi⟩ := exists_of_headcount_pos (P := Proc.holds) (f := s.proc) (by omega)
    exact .inr ⟨i, hi, h.held i hi⟩
  · exact .inl (h.free hm)

theorem Guarded.step (hF : C.Frames ok) (hC : C.Guards ok allow free held)
    (hs : (machine C ι).Reachable s) {i : ι} {a : Act γ} {es : List (ι × ε)}
    (hstep : (machine C ι).step s (i, a) = some (s', es)) (hallow : allow s.data (s.proc i) a)
    (h : Guarded free held s tr) : Guarded free held s' (tr ++ es) := by
  have hs' := hs.step hstep
  obtain ⟨es, hmoves, hproc, rfl⟩ := moves_of_step hstep
  have hother (j : ι) (hji : j ≠ i) : s'.proc j = s.proc j := by
    rw [hproc, Function.update_of_ne hji]
  rcases hC.step_cases hmoves (fun f st hf => reachable_frame hF hs hf) hallow i tr with
    ⟨-, hnot, hmtx, hdata, hout⟩ | ⟨hm, hholds, hmtx, hheld⟩ | ⟨hi, hholds, hmtx, hheld⟩ |
    ⟨hi, hnot, hfree⟩
  · constructor
    · intro hm
      rw [hdata]
      exact hC.free_outside i es _ tr hout (h.free (hmtx ▸ hm))
    · intro j hj
      rcases eq_or_ne j i with rfl | hji
      · rw [hnot] at hj
        cases hj
      · rw [hother j hji] at hj ⊢
        rw [hdata]
        exact hC.held_outside i es _ _ tr hout (h.held j hj)
  · have hone := mtx_conserved hs
    constructor
    · intro hm'
      omega
    · intro j hj
      obtain rfl := holder_unique hs' hj hholds
      exact hheld (h.free hm)
  · have hone := mtx_conserved hs
    have hpos := headcount_pos i hi
    constructor
    · intro hm'
      omega
    · intro j hj
      obtain rfl := holder_unique hs' hj hholds
      exact hheld (h.held j hi)
  · constructor
    · intro _
      exact hfree (h.held i hi)
    · intro j hj
      rcases eq_or_ne j i with rfl | hji
      · rw [hnot] at hj
        cases hj
      · rw [hother j hji] at hj
        exact absurd (holder_unique hs hj hi) hji

theorem guarded_of_run (hF : C.Frames ok) (hC : C.Guards ok allow free held)
    {as : List (ι × Act γ)}
    (hallow : (machine C ι).Along (fun s ia => allow s.data (s.proc ia.1) ia.2)
      (machine C ι).init as)
    (hrun : (machine C ι).Run as s tr) : Guarded free held s tr := by
  have hinv : (machine C ι).Reachable s ∧ Guarded free held s tr := by
    refine hrun.invariant (C := fun s ia => allow s.data (s.proc ia.1) ia.2)
      (I := fun s tr => (machine C ι).Reachable s ∧ Guarded free held s tr) ?_ ?_ hallow
    · exact ⟨Machine.run_nil.reachable, fun _ => hC.init, fun i hi => by cases hi⟩
    · rintro s t ⟨i, a⟩ s' es ⟨hs, h⟩ hstepAllow hstep
      exact ⟨hs.step hstep, h.step hF hC hs hstep hstepAllow⟩
  exact hinv.2

end LinuxInternals.SemMonitor
