import LinuxInternals.Prodcons2.Basic
import LinuxInternals.Lib.SemMonitor.Transit

/-!
# The wait queues of `prodcons2`

Consumers wait for items and producers for gaps; a call that makes one of them wakes one
process that waits for it. So nobody is left asleep who could go on, although a newcomer
may have taken what the process was woken for.
-/

namespace LinuxInternals.Prodcons2

open Prodcons SemMonitor

def Frame.queue : Frame → Queue
  | .write _ _ _ => .prod
  | .read _ _ _ => .cons

/-- The test of the wait loop. -/
def Frame.waits : Frame → Cbuffer Int32 → Bool
  | .write _ _ _, c => c.isFullCbufferT
  | .read _ _ _, c => c.sizeCbufferT == 0

/-- Items for those in `cons_queue`, gaps for those in `prod_queue`. -/
def units : Queue → Cbuffer Int32 → Nat
  | .prod, c => c.maxSize - c.size
  | .cons, c => c.size

structure Valid (c : Cbuffer Int32) : Prop extends c.Documented where
  maxSize : c.maxSize = 5

theorem Valid.sizeCbufferT {c : Cbuffer Int32} (h : Valid c) : c.sizeCbufferT = c.size := by
  have hsize := h.size_le
  have hmax := h.maxSize
  rw [Cbuffer.sizeCbufferT, CData.i32_of_range (by omega) (by omega)]

theorem Valid.insert {c : Cbuffer Int32} (h : Valid c) (hfull : c.size ≠ c.maxSize)
    (item : Int32) :
    Valid (c.insertCbufferT item).1 ∧ (c.insertCbufferT item).1.size = c.size + 1 := by
  have hmax := h.maxSize
  have hsize := h.size_le
  obtain ⟨hmax', hdoc, -⟩ := Cbuffer.insertCbufferT_documented h.toDocumented (by omega) item
  exact ⟨⟨hdoc, hmax'.trans hmax⟩,
    Cbuffer.size_insert_of_lt h.toDocumented (by omega) (by omega) item⟩

theorem Valid.remove {c : Cbuffer Int32} (h : Valid c) :
    Valid c.removeCbufferT.1 ∧ c.removeCbufferT.1.size = c.size - 1 := by
  have hmax := h.maxSize
  obtain ⟨hmax', hdoc, -⟩ := Cbuffer.removeCbufferT_documented h.toDocumented (by omega)
  exact ⟨⟨hdoc, hmax'.trans hmax⟩, Cbuffer.size_remove h.toDocumented (by omega)⟩

/-- A piece of code waits, or does its work and wakes one process, or does nothing. -/
theorem body_cases (f : Frame) (pt : Point) {c : Cbuffer Int32} (h : Valid c)
    (nr : Queue → Int) :
    (body f pt c nr).frame.queue = f.queue ∧
    ((pt ≠ .signalled ∧ units f.queue c = 0 ∧ (body f pt c nr).data = c ∧
        (body f pt c nr).next = .block f.queue) ∨
      (pt ≠ .signalled ∧ Valid (body f pt c nr).data ∧
        units f.queue c = units f.queue (body f pt c nr).data + 1 ∧
        ∃ q, q ≠ f.queue ∧ units q (body f pt c nr).data = units q c + 1 ∧
          (body f pt c nr).next = if 0 < nr q then .signal q else .unlock .ok) ∨
      (pt = .signalled ∧ (body f pt c nr).data = c ∧
        (body f pt c nr).next = .unlock .ok)) := by
  have hsize := h.size_le
  have hmax := h.maxSize
  cases f with
  | write off len item =>
    cases pt with
    | signalled => exact ⟨rfl, .inr (.inr ⟨rfl, rfl, rfl⟩)⟩
    | entered | relocked =>
      simp only [body, prodconsWrite]
      split
      · have hfull : c.size = c.maxSize := beq_iff_eq.mp ‹_›
        refine ⟨rfl, .inl ⟨by decide, ?_, rfl, rfl⟩⟩
        simp only [Frame.queue, units]
        omega
      · have hfull : c.size ≠ c.maxSize := fun heq => ‹¬_› (beq_iff_eq.mpr heq)
        obtain ⟨hvalid, hins⟩ := h.insert hfull item
        have hmax' := hvalid.maxSize
        refine ⟨rfl, .inr (.inl ⟨by decide, hvalid, ?_, .cons, Queue.noConfusion, hins, rfl⟩)⟩
        simp only [Frame.queue, units, hins]
        omega
  | read off len item =>
    cases pt with
    | signalled => exact ⟨rfl, .inr (.inr ⟨rfl, rfl, rfl⟩)⟩
    | entered | relocked =>
      simp only [body, prodconsRead, h.sizeCbufferT]
      split
      · exact ⟨rfl, .inl ⟨by decide, Int.natCast_eq_zero.mp ‹_›, rfl, rfl⟩⟩
      · obtain ⟨hvalid, hrem⟩ := h.remove
        have hmax' := hvalid.maxSize
        refine ⟨rfl, .inr (.inl ⟨by decide, hvalid, ?_, .prod, Queue.noConfusion, ?_, rfl⟩)⟩
        · simp only [Frame.queue, units, hrem]
          omega
        · simp only [units, hrem]
          omega

theorem waits_iff {f : Frame} {c : Cbuffer Int32} (h : Valid c) :
    f.waits c = true ↔ units f.queue c = 0 := by
  have hsize := h.size_le
  cases f with
  | write off len item =>
    simp only [Frame.waits, Cbuffer.isFullCbufferT, Frame.queue, units, beq_iff_eq]
    omega
  | read off len item =>
    simp only [Frame.waits, h.sizeCbufferT, Frame.queue, units, beq_iff_eq]
    omega

theorem eq_of_ne_queue {q r : Queue} {f : Frame} (hq : q ≠ f.queue) (hr : r ≠ f.queue) :
    q = r := by
  cases hf : f.queue <;> cases q <;> cases r <;> simp [hf] at hq hr ⊢

/-- A process goes to sleep in its own queue, with its loop condition. -/
theorem body_block {f : Frame} {pt : Point} {c : Cbuffer Int32} {nr : Queue → Int} {q : Queue}
    (h : (body f pt c nr).next = .block q) :
    (body f pt c nr).frame.queue = q ∧
      (body f pt c nr).frame.waits (body f pt c nr).data = true := by
  cases f with
  | write off len item =>
    cases pt with
    | signalled => cases h
    | entered | relocked =>
      simp only [body, prodconsWrite] at h ⊢
      split at h
      · cases h
        rw [if_pos ‹_›]
        exact ⟨rfl, ‹_›⟩
      · split at h <;> cases h
  | read off len item =>
    cases pt with
    | signalled => cases h
    | entered | relocked =>
      simp only [body, prodconsRead] at h ⊢
      split at h
      · cases h
        rw [if_pos ‹_›]
        exact ⟨rfl, beq_iff_eq.mpr ‹_›⟩
      · split at h <;> cases h

theorem supplies (vector : Nat → Int32) :
    (client vector).Supplies (fun _ => True) Valid Frame.queue Frame.waits units where
  enter _ _ _ _ _ := trivial
  keeps _ _ _ _ _ := trivial
  init := by
    obtain ⟨hdoc, hmax, -⟩ := cbuf_documented vector
    exact ⟨hdoc, hmax⟩
  code f pt c nr _ h := by
    obtain ⟨-, ⟨-, -, heq, -⟩ | ⟨-, hvalid, -⟩ | ⟨-, heq, -⟩⟩ := body_cases f pt h nr
    · exact heq.symm ▸ h
    · exact hvalid
    · exact heq.symm ▸ h
  blocks f pt c nr q hnext := (body_block hnext).2
  queues f pt c nr q hnext := (body_block hnext).1
  posts f pt c nr w _ h hbefore hafter := by
    rw [waits_iff h] at hbefore
    obtain ⟨-, ⟨-, -, heq, -⟩ | ⟨-, hvalid, hunits, q, hq, -, hnext⟩ | ⟨-, heq, -⟩⟩ :=
      body_cases f pt h nr
    · rw [client, heq, ← Bool.not_eq_true, waits_iff h] at hafter
      exact absurd hbefore hafter
    · have hw : w.queue ≠ f.queue := fun heq => by
        rw [heq] at hbefore
        omega
      obtain rfl := eq_of_ne_queue hw hq
      by_cases hpos : 0 < nr w.queue
      · rw [if_pos hpos] at hnext
        exact .inl hnext
      · exact .inr (not_lt.mp hpos)
    · rw [client, heq, ← Bool.not_eq_true, waits_iff h] at hafter
      exact absurd hbefore hafter
  blocked f pt c nr q _ h hnext := by
    obtain ⟨-, ⟨-, hunits, heq, hblock⟩ | ⟨-, -, -, r, -, -, hother⟩ | ⟨-, -, hother⟩⟩ :=
      body_cases f pt h nr
    · obtain rfl : f.queue = q := Next.block.inj (hblock.symm.trans hnext)
      exact heq.symm ▸ hunits
    · rw [client, hother] at hnext
      split at hnext <;> cases hnext
    · rw [client, hother] at hnext
      cases hnext
  supplies f pt c nr q _ h hnr := by
    obtain ⟨-, ⟨-, -, heq, -⟩ | ⟨-, -, hunits, r, hr, hrise, hnext⟩ | ⟨-, heq, -⟩⟩ :=
      body_cases f pt h nr
    · exact .inl (heq.symm ▸ le_rfl)
    · by_cases hq : q = f.queue
      · subst hq
        have hle : units f.queue (body f pt c nr).data ≤ units f.queue c := by omega
        exact .inl hle
      · obtain rfl := eq_of_ne_queue hq hr
        rw [if_pos hnr] at hnext
        exact .inr ⟨hnext, hrise.le⟩
    · exact .inl (heq.symm ▸ le_rfl)
  uses f c nr _ h := by
    obtain ⟨-, ⟨-, -, -, hblock⟩ | ⟨-, -, hunits, -⟩ | ⟨hpt, -⟩⟩ := body_cases f .relocked h nr
    · exact .inl hblock
    · exact .inr hunits.ge
    · cases hpt

variable {ι : Type} [Fintype ι] [DecidableEq ι]

/-- A sleeper of a quiescent state finds nothing to go on with, unless somebody was
interrupted between being woken and getting `mtx`. -/
theorem units_eq_zero_of_sleep {vector : Nat → Int32} {s : State ι}
    {as : List (ι × SemMonitor.Act Call)} {tr : List (ι × Event)}
    (hrun : (machine vector ι).Run as s tr)
    (hspoils : (machine vector ι).Along (fun s ia => spoils s ia = false)
      (machine vector ι).init as)
    (hquiet : Quiescent s) {i : ι} {f : Frame} {q : Queue}
    (hi : s.proc i = .inside f (.sleep q)) : units f.queue s.data = 0 := by
  rw [queue_of_pending (supplies vector).toWaits hrun.reachable i (.inr hi)]
  exact units_of_quiescent (supplies vector) hspoils hrun hquiet hi

/-- In a run without interruptions, a consumer is left asleep only over an empty buffer and
a producer only over a full one, so never both. -/
theorem nobody_sleeps_in_vain {vector : Nat → Int32} {s : State ι}
    {as : List (ι × SemMonitor.Act Call)} {tr : List (ι × Event)}
    (hrun : (machine vector ι).Run as s tr) (hintr : ∀ ia ∈ as, ia.2 ≠ .intr)
    (hquiet : Quiescent s) :
    (∀ i off len item q, s.proc i = .inside (.read off len item) (.sleep q) →
      s.data.contents = []) ∧
    (∀ i off len item q, s.proc i = .inside (.write off len item) (.sleep q) →
      s.data.size = s.data.maxSize) ∧
    ∀ i j off len item off' len' item' q r,
      s.proc i = .inside (.read off len item) (.sleep q) →
      s.proc j ≠ .inside (.write off' len' item') (.sleep r) := by
  have hspoils : (machine vector ι).Along (fun s ia => spoils s ia = false)
      (machine vector ι).init as := by
    refine Machine.Along.mono_of_reachable ?_ hrun (Machine.along_of_forall hintr _)
    rintro s ⟨i, a⟩ - ha
    unfold spoils
    split
    · exact absurd ‹_› ha
    · rfl
  have hvalid : Valid s.data := reachable_valid (supplies vector).toKeeps hrun.reachable
  have hsize := hvalid.size_le
  have hmax := hvalid.maxSize
  have hempty : ∀ i off len item q, s.proc i = .inside (.read off len item) (.sleep q) →
      s.data.size = 0 :=
    fun i off len item q hi => units_eq_zero_of_sleep hrun hspoils hquiet hi
  have hfull : ∀ i off len item q, s.proc i = .inside (.write off len item) (.sleep q) →
      s.data.size = s.data.maxSize := by
    intro i off len item q hi
    have hgaps : s.data.maxSize - s.data.size = 0 :=
      units_eq_zero_of_sleep hrun hspoils hquiet hi
    omega
  refine ⟨?_, hfull, ?_⟩
  · intro i off len item q hi
    rw [← List.length_eq_zero_iff, Cbuffer.length_contents]
    exact hempty i off len item q hi
  · intro i j off len item off' len' item' q r hi hj
    have h0 := hempty i off len item q hi
    have h5 := hfull j off' len' item' r hj
    omega

/-- A consumer goes to sleep over the empty buffer. -/
def loneConsumer : List (Bool × SemMonitor.Act Call) :=
  [(false, .call (.read 0 9) true), (false, .run true), (false, .run true)]

theorem nobody_sleeps_in_vain_loneConsumer :
    ∃ s tr, (machine (fun _ => 0) Bool).Run loneConsumer s tr ∧ Quiescent s ∧
      ∀ i off len item q, s.proc i = .inside (.read off len item) (.sleep q) →
        s.data.contents = [] := by
  have heval : ((machine (fun _ => 0) Bool).exec (machine (fun _ => 0) Bool).init
      loneConsumer).map (fun r => decide (Quiescent r.1)) = some true := by
    decide +kernel
  obtain ⟨s, tr, hrun, hs⟩ := Machine.exists_run_of_eval heval
  exact ⟨s, tr, hrun, of_decide_eq_true hs,
    (nobody_sleeps_in_vain hrun (by decide) (of_decide_eq_true hs)).1⟩

end LinuxInternals.Prodcons2
