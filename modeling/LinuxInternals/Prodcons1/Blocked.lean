import LinuxInternals.Prodcons1.Accounting

/-!
# `prodcons1` does not get stuck

Whatever is interrupted, a process that no longer moves waits at its first semaphore, a
producer over a full buffer or a consumer over an empty one, and a consumer that comes out of
the critical section has an item.
-/

namespace LinuxInternals.Prodcons1

open Prodcons

/-- A consumer that has been in the critical section has taken an item out of it. -/
def Proc.Supplied : Proc → Prop
  | .inside (.read _ _ item) .exit | .inside (.read _ _ item) .post => item.isSome
  | _ => True

theorem Moves.supplied {sh sh' : Shared} {p p' : Proc} {a : Act} {es : List Event}
    (h : Moves sh p a sh' p' es)
    (hitem : p.claims .elementos = true → 0 < sh.cbuf.size) (hp : p.Supplied) :
    p'.Supplied := by
  cases h with
  | read hmtx =>
    have hpos := hitem rfl
    show (headCbufferT sh.cbuf).isSome = true
    rw [headCbufferT, if_pos hpos.ne']
    rfl
  | exit =>
    rename_i f copied
    cases f with
    | write off len item => trivial
    | read off len item => exact hp
  | @call c copied f es hins hrem => cases f <;> trivial
  | @take f copied hsem => cases f <;> trivial
  | @enterIntr f => cases f <;> trivial
  | refuse | takeIntr | write | giveBack | post => trivial

variable {ι : Type} [Fintype ι] [DecidableEq ι] {vector : Nat → Int32} {s : State ι}

theorem supplied_of_reachable (h : (machine vector ι).Reachable s) (i : ι) :
    (s.proc i).Supplied := by
  have hinv : (machine vector ι).Reachable s ∧ ∀ i, (s.proc i).Supplied := by
    obtain ⟨as, tr, hrun⟩ := h
    refine hrun.invariant (C := fun _ _ => True)
      (I := fun s _ => (machine vector ι).Reachable s ∧ ∀ i, (s.proc i).Supplied) ?_ ?_
      (Machine.along_true _ _)
    · exact ⟨Machine.run_nil.reachable, fun _ => trivial⟩
    · rintro s t ⟨i, a⟩ s' es ⟨hs, hI⟩ - hstep
      refine ⟨hs.step hstep, fun j => ?_⟩
      have hbal := balanced_of_reachable hs
      obtain ⟨es, hmoves, hproc, -⟩ := moves_of_step hstep
      rw [hproc]
      by_cases hj : j = i
      · subst hj
        rw [Function.update_self]
        exact hmoves.supplied hbal.item (hI j)
      · rw [Function.update_of_ne hj]
        exact hI j
  exact hinv.2 i

/-- No process can go on. -/
def Stuck (vector : Nat → Int32) (s : State ι) : Prop :=
  ∀ i copied, (machine vector ι).step s (i, .run copied) = none

omit [Fintype ι] in
theorem act_of_stuck (h : Stuck vector s) (i : ι) (copied : Bool) :
    act s.toShared (s.proc i) (.run copied) = none := by
  have hstep := h i copied
  simp only [machine] at hstep
  cases hact : act s.toShared (s.proc i) (.run copied) with
  | none => rfl
  | some r => simp [hact] at hstep

/-- A consumer at the end of its call has a value to return. -/
theorem post_returns (h : (machine vector ι).Reachable s) {i : ι} {f : Frame}
    (hi : s.proc i = .inside f .post) (copied : Bool) :
    act s.toShared (s.proc i) (.run copied) ≠ none := by
  have hsupplied := supplied_of_reachable h i
  rw [hi] at hsupplied ⊢
  cases f with
  | write off len item => simp [act, Frame.return]
  | read off len item =>
    obtain ⟨x, rfl⟩ := Option.isSome_iff_exists.mp hsupplied
    simp [act, Frame.return]

/-- Where nobody can go on, everybody is outside of the module or waits for its first unit. -/
theorem take_of_stuck (hs : (machine vector ι).Reachable s) (h : Stuck vector s) (i : ι) :
    s.proc i = .user ∨ ∃ f, s.proc i = .inside f .take ∧ s.sem f.takes = 0 := by
  have hnobody : ∀ j f, s.proc j ≠ .inside f .exit := by
    intro j f hj
    have hstuck := act_of_stuck h j true
    simp [hj, act] at hstuck
  have hmtx : s.sem .mtx = 1 := by
    have hbal := (balanced_of_reachable hs).mtx
    have hnone : headcount Proc.inSection s.proc = 0 := by
      rw [headcount_eq_zero_iff]
      intro j
      have hj := hnobody j
      unfold Proc.inSection
      split
      · rename_i f hf
        exact absurd hf (hj f)
      · rfl
    omega
  have hstuck := act_of_stuck h i true
  cases hi : s.proc i with
  | user => exact Or.inl rfl
  | inside f st =>
    rw [hi] at hstuck
    cases st with
    | take =>
      refine Or.inr ⟨f, rfl, ?_⟩
      by_contra hsem
      simp [act, Nat.pos_of_ne_zero hsem] at hstuck
    | enter => simp [act, hmtx] at hstuck
    | giveBack => simp [act] at hstuck
    | exit => exact absurd hi (hnobody i f)
    | post =>
      rw [← hi] at hstuck
      exact absurd hstuck (post_returns hs hi true)

/-- Whatever was interrupted, where nobody can go on nobody holds `mtx`, a waiting producer has a
full buffer before it and a waiting consumer an empty one, so that they never wait for each
other; and no consumer ever comes to its end without an item. -/
theorem stuck_only_at_bounds (hs : (machine vector ι).Reachable s) :
    (Stuck vector s → s.sem .mtx = 1 ∧
      (∀ i off len item st, s.proc i = .inside (.write off len item) st →
        st = .take ∧ s.cbuf.size = s.cbuf.maxSize) ∧
      (∀ i off len item st, s.proc i = .inside (.read off len item) st →
        st = .take ∧ s.cbuf.contents = []) ∧
      ∀ i j off len item off' len' item' st st',
        s.proc i = .inside (.write off len item) st →
        s.proc j ≠ .inside (.read off' len' item') st') ∧
    ∀ i f copied, s.proc i = .inside f .post →
      act s.toShared (s.proc i) (.run copied) ≠ none := by
  refine ⟨fun h => ?_, fun i f copied hi => post_returns hs hi copied⟩
  have hbal := balanced_of_reachable hs
  have htake := take_of_stuck hs h
  have hzero : ∀ P : Proc → Bool, P .user = false → (∀ f, P (.inside f .take) = false) →
      headcount P s.proc = 0 := by
    intro P huser hinside
    rw [headcount_eq_zero_iff]
    intro i
    rcases htake i with hi | ⟨f, hi, -⟩
    · rw [hi]
      exact huser
    · rw [hi]
      exact hinside f
  have hmtx := hbal.mtx
  have hunits := hbal.units
  have hitems := hbal.items
  rw [hzero Proc.inSection rfl fun _ => rfl] at hmtx
  rw [hzero (Proc.claims .huecos) rfl fun _ => rfl, hzero (Proc.owes .huecos) rfl fun _ => rfl,
    hzero (Proc.claims .elementos) rfl fun _ => rfl,
    hzero (Proc.owes .elementos) rfl fun _ => rfl] at hunits
  rw [hzero (Proc.claims .elementos) rfl fun _ => rfl,
    hzero (Proc.owes .huecos) rfl fun _ => rfl] at hitems
  have hwaits : ∀ i f st, s.proc i = .inside f st → st = .take ∧ s.sem f.takes = 0 := by
    intro i f st hi
    rcases htake i with hi' | ⟨g, hi', hsem⟩
    · rw [hi] at hi'
      cases hi'
    · rw [hi] at hi'
      cases hi'
      exact ⟨rfl, hsem⟩
  have hwriter : ∀ i off len item st, s.proc i = .inside (.write off len item) st →
      st = .take ∧ s.cbuf.size = s.cbuf.maxSize := by
    intro i off len item st hi
    obtain ⟨hst, hsem⟩ := hwaits i _ st hi
    have hhuecos : s.sem .huecos = 0 := hsem
    refine ⟨hst, ?_⟩
    rw [hbal.maxSize]
    omega
  have hreader : ∀ i off len item st, s.proc i = .inside (.read off len item) st →
      st = .take ∧ s.cbuf.contents = [] := by
    intro i off len item st hi
    obtain ⟨hst, hsem⟩ := hwaits i _ st hi
    have helementos : s.sem .elementos = 0 := hsem
    refine ⟨hst, ?_⟩
    rw [← List.length_eq_zero_iff, Cbuffer.length_contents]
    omega
  refine ⟨by omega, hwriter, hreader, ?_⟩
  intro i j off len item off' len' item' st st' hi hj
  have hfull := (hwriter i off len item st hi).2
  have hempty := (hreader j off' len' item' st' hj).2
  rw [← List.length_eq_zero_iff, Cbuffer.length_contents] at hempty
  rw [hbal.maxSize] at hfull
  omega

/-- A consumer that was interrupted calls again, and waits over the empty buffer. -/
theorem stuck_only_at_bounds_empty :
    ∃ (s : State Bool) (tr : List (Bool × Event)),
      (machine (fun _ => 0) Bool).Run [(false, .call (.read 0 9) true), (false, .intr),
        (false, .call (.read 0 9) true)] s tr ∧ Stuck (fun _ => 0) s ∧
      s.proc false = .inside (.read 0 9 none) .take ∧ s.cbuf.contents = [] := by
  have hrun : ∃ (s : State Bool) (tr : List (Bool × Event)),
      (machine (fun _ => 0) Bool).Run [(false, .call (.read 0 9) true), (false, .intr),
        (false, .call (.read 0 9) true)] s tr ∧
      s.proc false = .inside (.read 0 9 none) .take ∧ Stuck (fun _ => 0) s := by
    refine ⟨_, _, rfl, rfl, ?_⟩
    rintro (_ | _) copied <;> rfl
  obtain ⟨s, tr, hrun, hi, hstuck⟩ := hrun
  obtain ⟨-, -, hreader, -⟩ := (stuck_only_at_bounds hrun.reachable).1 hstuck
  exact ⟨s, tr, hrun, hstuck, hi, (hreader false 0 9 none .take hi).2⟩

end LinuxInternals.Prodcons1
