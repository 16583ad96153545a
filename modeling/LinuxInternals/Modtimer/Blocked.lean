import LinuxInternals.Lib.SemMonitor.Transit
import LinuxInternals.Modtimer.Waiting

/-!
# Readers of `modtimer` that sleep

`my_list_add` wakes one reader, and that reader takes the whole list. So a reader is left asleep
only over an empty list, although a newcomer may have taken the numbers that a reader was woken
for; only a reader that is interrupted on its way from the wake-up to `list_mtx` breaks this.
-/

namespace LinuxInternals.Modtimer

open SemMonitor Text

variable {ι : Type}

/-- The process is to wake a reader, or has been woken. -/
def wakes (x : Proc Unit (Frame ι) Queue Exit) : Prop :=
  ∃ f, x = .inside f (.signal .semList) ∨ x = .inside f .relock

/-- A wake-up of a reader is on its way. -/
def Waking (m : Monitor ι) : Prop := 0 < m.sem .semList ∨ ∃ p, wakes (m.proc p)

/-- While a reader is announced and the list has numbers, somebody is being woken. -/
def Served (m : Monitor ι) : Prop := 0 < m.nrWaiting .semList → m.data ≠ [] → Waking m

def State.spoils (s : State ι) : Act ι → Bool
  | .mon p a => SemMonitor.spoils s.mon (p, a)
  | _ => false

/-- Who takes `list_mtx` first leaves an empty list, or wakes a reader if one is announced. -/
theorem body_entered (f : Frame ι) (list : List UInt32) (nr : Queue → Int) :
    (body f .entered list nr).data = [] ∨ (body f .entered list nr).next = .signal .semList ∨
      nr .semList ≤ 0 ∧ (body f .entered list nr).next = .unlock .ok := by
  cases f with
  | read file off len out => cases list <;> exact .inl rfl
  | cleanup => exact .inl rfl
  | add aux copied =>
    simp only [body, myListAdd]
    by_cases hlist : list ++ aux.drop copied = []
    · exact .inl hlist
    · by_cases hnr : 0 < nr .semList
      · exact .inr (.inl (if_pos ⟨hlist, hnr⟩))
      · exact .inr (.inr ⟨not_lt.mp hnr, if_neg fun h => hnr h.2⟩)

section Step

variable {sh sh' : Shared (List UInt32) Queue} {x x' : Proc Unit (Frame ι) Queue Exit}
  {a : SemMonitor.Act (Call ι)} {es : List Event}

theorem sleep_of_relock (h : (client ι).Moves sh x a sh' x' es) {f : Frame ι}
    (hx' : x' = .inside f .relock) : x = .inside f (.sleep .semList) := by
  cases h with
  | @take g q =>
    obtain ⟨rfl, -⟩ := Proc.inside.inj hx'
    cases q
    rfl
  | enter | refuse | wait | abort | unlock | lockIntr | sleepIntr | relockIntr => cases hx'
  | lock _ hg | relock _ hg | signal hg =>
    rw [Segment.proc] at hx'
    generalize Segment.next _ = next at hx'
    cases next <;> cases hx'

/-- A step wakes somebody, or leaves the wake-ups as they are. -/
theorem wakes_of_moves (h : (client ι).Moves sh x a sh' x' es)
    (hread : ∀ f, x = .inside f .relock → ∃ file off len out, f = .read file off len out)
    (hspoils : ∀ f, x = .inside f .relock → a ≠ .intr) (hnr : 0 < sh'.nrWaiting .semList)
    (hdata : sh'.data ≠ []) :
    0 < sh'.sem .semList ∨ wakes x' ∨
      0 < sh.nrWaiting .semList ∧ sh.data ≠ [] ∧ sh'.sem = sh.sem ∧ ¬wakes x := by
  cases h with
  | enter | refuse | wait | unlock | lockIntr | sleepIntr =>
    refine .inr (.inr ⟨hnr, hdata, rfl, ?_⟩)
    rintro ⟨f, h | h⟩ <;> cases h
  | take => exact .inr (.inl ⟨_, .inr rfl⟩)
  | @abort f q =>
    cases q
    refine .inr (.inr ⟨?_, hdata, rfl, ?_⟩)
    · simp only [Shared.addWaiting, Shared.down, Function.update_self] at hnr
      omega
    · rintro ⟨f, h | h⟩ <;> cases h
  | relockIntr => exact absurd rfl (hspoils _ rfl)
  | @signal f q _ g hg =>
    cases q
    left
    simp [Shared.post, Shared.addWaiting]
  | @lock f copied g _ hg =>
    subst hg
    rw [Client.commit_data] at hdata
    rcases body_entered f sh.down.data sh.down.nrWaiting with hnil | hsignal | ⟨hle, hunlock⟩
    · exact absurd hnil hdata
    · refine .inr (.inl ⟨(body f .entered sh.down.data sh.down.nrWaiting).frame, .inl ?_⟩)
      exact congrArg (fun next : Next Queue Exit => Proc.inside _ next.stage) hsignal
    · have hpending : (((client ι).runBody sh.down f .entered).proc :
          Proc Unit (Frame ι) Queue Exit).pending .semList = false := by
        apply pending_of_ne_block
        intro hblock
        cases hunlock.symm.trans hblock
      rw [Client.commit_nrWaiting (μ := Unit), hpending] at hnr
      simp only [Bool.toNat_false, Int.natCast_zero, Int.add_zero] at hnr
      exact absurd hnr (not_lt.mpr hle)
  | @relock f copied g _ hg =>
    subst hg
    obtain ⟨file, off, len, out, rfl⟩ := hread _ rfl
    rw [Client.commit_data] at hdata
    refine absurd ?_ hdata
    show (modtimerRead file off len out .relocked sh.data).data = []
    cases sh.data <;> rfl

end Step

section Run

variable [DecidableEq ι] {m m' : Monitor ι} {p : Option ι} {a : SemMonitor.Act (Call ι)}
  {es : List (Option ι × Event)}

/-- Only readers come back from a wait. -/
theorem read_of_relock (h : (monitor ι).Reachable m) {f : Frame ι}
    (hp : m.proc p = .inside f .relock) : ∃ file off len out, f = .read file off len out := by
  have hinv : (monitor ι).Reachable m ∧ ∀ p f, m.proc p = .inside f .relock →
      ∃ file off len out, f = .read file off len out := by
    refine h.invariant (I := fun m : Monitor ι => (monitor ι).Reachable m ∧ ∀ p f,
      m.proc p = .inside f .relock → ∃ file off len out, f = .read file off len out) ?_ ?_
    · constructor
      · exact Machine.run_nil.reachable
      · rintro p f ⟨⟩
    · rintro m ⟨i, a⟩ m' es ⟨hm, hI⟩ hstep
      refine ⟨hm.step hstep, ?_⟩
      intro j f hj
      obtain ⟨es, hmoves, hproc, -⟩ := SemMonitor.moves_of_step hstep
      rcases eq_or_ne j i with rfl | hji
      · have hsleep := sleep_of_relock hmoves hj
        have hpending : (m.proc j).pending .semList = true := by simp [hsleep, Proc.pending]
        exact pending_frame (R := fun f _ => ∃ file off len out, f = .read file off len out)
          (fun _ _ _ _ _ hnext => frame_of_block hnext) hm hsleep hpending
      · rw [hproc, Function.update_of_ne hji] at hj
        exact hI j f hj
  exact hinv.2 p f hp

theorem served_step (hm : (monitor ι).Reachable m) (h : Served m)
    (hstep : (monitor ι).step m (p, a) = some (m', es))
    (hspoils : SemMonitor.spoils m (p, a) = false) : Served m' := by
  intro hnr hdata
  obtain ⟨es, hmoves, hproc, -⟩ := SemMonitor.moves_of_step hstep
  have hkept : ∀ f, m.proc p = .inside f .relock → a ≠ .intr := by
    rintro f hf rfl
    simp [SemMonitor.spoils, hf] at hspoils
  rcases wakes_of_moves hmoves (fun f hf => read_of_relock hm hf) hkept hnr hdata with
    hpos | hwakes | ⟨hnr₀, hdata₀, hsem, hp⟩
  · exact .inl hpos
  · exact .inr ⟨p, hwakes⟩
  · rcases h hnr₀ hdata₀ with hpos | ⟨q, hq⟩
    · left
      rwa [hsem]
    · refine .inr ⟨q, ?_⟩
      have hqp : q ≠ p := by
        rintro rfl
        exact hp hq
      rwa [hproc, Function.update_of_ne hqp]

end Run

section Main

variable [Fintype ι] [DecidableEq ι] {msecsToJiffies : UInt32 → UInt64} {vector : Nat → Int32}
  {hz : Int64} {s : State ι} {as : List (Act ι)} {tr : List (Option ι × Event)}

theorem served_of_run (h : (machine vector hz msecsToJiffies ι).Run as s tr)
    (hspoils : (machine vector hz msecsToJiffies ι).Along (fun s a => s.spoils a = false)
      (machine vector hz msecsToJiffies ι).init as) : Served s.mon := by
  have hinv : (monitor ι).Reachable s.mon ∧ Served s.mon := by
    refine h.invariant (C := fun s a => s.spoils a = false)
      (I := fun s _ => (monitor ι).Reachable s.mon ∧ Served s.mon) ?_ ?_ hspoils
    · exact ⟨Machine.run_nil.reachable, fun _ hdata => absurd rfl hdata⟩
    · rintro s t a s' es ⟨hm, hI⟩ hspoil hstep
      cases moves_of_step hstep with
      | config | expire | insert | isPending | notPending | sizeEq | sizeNe | schedule | modTimer
      | startWork | notEmpty | remove | endWork | refuse | accept | addTimer | release | delTimer
      | flush | cleanup => exact ⟨hm, hI⟩
      | isEmpty _ _ hmon | clear _ hmon =>
        refine ⟨hm.step hmon, served_step hm hI hmon ?_⟩
        unfold SemMonitor.spoils
        split
        · cases ‹SemMonitor.Act.call _ _ = _›
        · rfl
      | mon _ hmon => exact ⟨hm.step hmon, served_step hm hI hmon hspoil⟩
  exact hinv.2

/-- Throughout a run in which no woken reader is interrupted on its way to `list_mtx`, a reader that
sleeps over a list with numbers is going to be woken, or another one is; so where the monitor has
come to rest, the list is empty before every reader that sleeps. -/
theorem readers_sleep_over_empty (h : (machine vector hz msecsToJiffies ι).Run as s tr)
    (hspoils : (machine vector hz msecsToJiffies ι).Along (fun s a => s.spoils a = false)
      (machine vector hz msecsToJiffies ι).init as) {p : Option ι} {f : Frame ι} {q : Queue}
    (hp : s.mon.proc p = .inside f (.sleep q)) :
    (s.mon.data ≠ [] → Waking s.mon) ∧ (Quiescent s.mon → s.mon.data = []) := by
  cases q
  have hserved := served_of_run h hspoils
  have hwaking : s.mon.data ≠ [] → Waking s.mon := by
    intro hdata
    by_cases hsem : 0 < s.mon.sem .semList
    · exact .inl hsem
    · have hpending := headcount_pos (P := Proc.pending .semList) (f := s.mon.proc) p
        (by simp [hp, Proc.pending])
      have hsum := waiting_conserved (reachable_mon h.reachable) .semList
      exact hserved (by omega) hdata
  refine ⟨hwaking, fun hquiet => ?_⟩
  by_contra hdata
  rcases hwaking hdata with hpos | ⟨j, g, hj⟩
  · have hrest := hquiet.2 p
    rw [hp] at hrest
    exact absurd (beq_iff_eq.mp hrest) hpos.ne'
  · have hrest := hquiet.2 j
    rcases hj with hj | hj <;> rw [hj] at hrest <;> cases hrest

/-- Two readers sleep; the one that is woken takes the list, and the other sleeps on. -/
def twoReaders : List (Act Bool) :=
  [.config 0 (bytes "emergency_threshold 10") true, .open false, .file false,
    .mon (some false) (.call (.read false 0 64) true), .mon (some false) (.run true),
    .mon (some false) (.run true), .mon (some true) (.call (.read false 0 64) true),
    .mon (some true) (.run true), .mon (some true) (.run true), .expire 7, .fire, .fire, .fire,
    .fire, .work, .work, .work, .work, .mon none (.run true), .mon none (.run true),
    .mon none (.run true), .mon (some false) (.run true), .mon (some false) (.run true),
    .mon (some false) (.run true)]

theorem readers_sleep_over_empty_twoReaders :
    ∃ (s : State Bool) (tr : List (Option Bool × Event)) (f : Frame Bool),
      (machine (fun _ => 0) 250 (fun _ => 1) Bool).Run twoReaders s tr ∧
      s.mon.proc (some true) = .inside f (.sleep .semList) ∧ s.mon.data = [] := by
  have heval : ((machine (fun _ => 0) 250 (fun _ => 1) Bool).exec
      (machine (fun _ => 0) 250 (fun _ => 1) Bool).init twoReaders).map
        (fun r => (decide (Quiescent r.1.mon), (r.1.mon.proc (some true)).pending .semList)) =
      some (true, true) := by decide +kernel
  obtain ⟨s, tr, hrun, heq⟩ := Machine.exists_run_of_eval heval
  obtain ⟨hquiet, hpending⟩ := Prod.mk.inj heq
  have hquiet := of_decide_eq_true hquiet
  have hrest := hquiet.2 (some true)
  have hsleep : ∃ f, s.mon.proc (some true) = .inside f (.sleep .semList) := by
    cases hproc : s.mon.proc (some true) with
    | user x =>
      rw [hproc] at hpending
      cases hpending
    | inside f st =>
      rw [hproc] at hrest
      cases st with
      | sleep q => exact ⟨f, rfl⟩
      | lock | signal | wait | relock | abort | unlock => cases hrest
  obtain ⟨f, hf⟩ := hsleep
  exact ⟨s, tr, f, hrun, hf, (readers_sleep_over_empty hrun (by decide +kernel) hf).2 hquiet⟩

end Main

end LinuxInternals.Modtimer
