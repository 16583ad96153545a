import LinuxInternals.Prodcons2.Failures

/-!
# `prodcons2` is a bounded queue

Interruptions included, the items leave the buffer in the order in which they came, at most
five wait in it, and no consumer leaves the monitor without one.
-/

namespace LinuxInternals.Prodcons2

open Prodcons SemMonitor

section Moves

variable {vector : Nat → Int32} {sh sh' : Shared (Cbuffer Int32) Queue}
  {p p' : SemMonitor.Proc Unit Frame Queue Exit} {a : SemMonitor.Act Call} {es : List Event}

/-- A consumer that has not been interrupted has an item when it is through with the buffer. -/
def Supplied : SemMonitor.Proc Unit Frame Queue Exit → Prop
  | .inside (.read _ _ item) (.signal _) | .inside (.read _ _ item) (.unlock .ok) => item.isSome
  | _ => True

theorem supplied_body {f : Frame} {pt : Point} {c : Cbuffer Int32} {nr : Queue → Int}
    (hvalid : Valid c)
    (hf : pt = .signalled → ∀ off len item, f = .read off len item → item.isSome) :
    Supplied (body f pt c nr).proc := by
  cases f with
  | write off len item =>
    have hframe : (body (.write off len item) pt c nr).frame = .write off len item := by
      cases pt with
      | signalled => rfl
      | entered | relocked =>
        simp only [body, prodconsWrite]
        split <;> rfl
    rw [Segment.proc, hframe]
    trivial
  | read off len item =>
    cases pt with
    | signalled => exact hf rfl off len item rfl
    | entered | relocked =>
      simp only [body, prodconsRead]
      split
      · trivial
      · rename_i hsize
        rw [hvalid.sizeCbufferT] at hsize
        have hitem : (headCbufferT c).isSome = true := by
          rw [headCbufferT, if_pos (by omega)]
          rfl
        by_cases hnr : 0 < nr .prod
        · simp only [if_pos hnr]
          exact hitem
        · simp only [if_neg hnr]
          exact hitem

theorem supplied_of_moves (h : (client vector).Moves sh p a sh' p' es) (hvalid : Valid sh.data)
    (hp : Supplied p) : Supplied p' := by
  cases h with
  | @enter x c copied f hsyscall => cases f <;> trivial
  | lock hmtx hg | relock hmtx hg =>
    rw [← hg]
    exact supplied_body hvalid fun hpt => absurd hpt (by decide)
  | @signal f q copied g hg =>
    rw [← hg]
    apply supplied_body hvalid
    rintro - off len item rfl
    exact hp
  | @wait f q copied => cases f <;> trivial
  | @take f q copied hsem => cases f <;> trivial
  | @abort f q copied hmtx => cases f <;> trivial
  | @sleepIntr f q => cases f <;> trivial
  | refuse | unlock | lockIntr | relockIntr => trivial

end Moves

variable {ι : Type} [DecidableEq ι] {vector : Nat → Int32} {s : State ι}

theorem supplied_of_reachable (h : (machine vector ι).Reachable s) (i : ι) :
    Supplied (s.proc i) := by
  have hinv : (machine vector ι).Reachable s ∧ ∀ i, Supplied (s.proc i) := by
    obtain ⟨as, tr, hrun⟩ := h
    refine hrun.invariant (C := fun _ _ => True)
      (I := fun s _ => (machine vector ι).Reachable s ∧ ∀ i, Supplied (s.proc i)) ?_ ?_
      (Machine.along_true _ _)
    · exact ⟨Machine.run_nil.reachable, fun _ => trivial⟩
    · rintro s t ⟨i, a⟩ s' es ⟨hs, hI⟩ - hstep
      refine ⟨hs.step hstep, fun j => ?_⟩
      obtain ⟨fs, hmoves, hproc, -⟩ := moves_of_step hstep
      rw [hproc]
      by_cases hj : j = i
      · subst hj
        rw [Function.update_self]
        exact supplied_of_moves hmoves (reachable_valid (supplies vector).toKeeps hs) (hI j)
      · rw [Function.update_of_ne hj]
        exact hI j
  exact hinv.2 i

theorem contents_of_run {as : List (ι × SemMonitor.Act Call)} {tr : List (ι × Event)}
    (h : (machine vector ι).Run as s tr) :
    logged inserted tr = logged removed tr ++ s.data.contents := by
  have hinv : (machine vector ι).Reachable s ∧
      logged inserted tr = logged removed tr ++ s.data.contents := by
    refine h.invariant (C := fun _ _ => True)
      (I := fun s tr => (machine vector ι).Reachable s ∧
        logged inserted tr = logged removed tr ++ s.data.contents) ?_ ?_ (Machine.along_true _ _)
    · exact ⟨Machine.run_nil.reachable, (cbuf_documented vector).2.2.symm⟩
    · rintro s t ⟨i, a⟩ s' es ⟨hs, hI⟩ - hstep
      refine ⟨hs.step hstep, ?_⟩
      obtain ⟨fs, hmoves, -, rfl⟩ := moves_of_step hstep
      have hcontents := contents_of_moves hmoves (reachable_valid (supplies vector).toKeeps hs)
      rw [logged_append, logged_append, hI, List.append_assoc, hcontents, List.append_assoc]
  exact hinv.2

/-- In every run, whatever is interrupted, what has been inserted is what has been removed
followed by what is in the buffer, which is never more than five items, and a consumer that
leaves in peace has an item to return. -/
theorem bounded_queue {as : List (ι × SemMonitor.Act Call)} {tr : List (ι × Event)}
    (h : (machine vector ι).Run as s tr) :
    logged inserted tr = logged removed tr ++ s.data.contents ∧ s.data.contents.length ≤ 5 ∧
      ∀ i off len item, s.proc i = .inside (.read off len item) (.unlock .ok) → item.isSome := by
  have hvalid : Valid s.data := reachable_valid (supplies vector).toKeeps h.reachable
  refine ⟨contents_of_run h, ?_, ?_⟩
  · rw [Cbuffer.length_contents, ← hvalid.maxSize]
    exact hvalid.size_le
  · intro i off len item hi
    have hsupplied := supplied_of_reachable h.reachable i
    rw [hi] at hsupplied
    exact hsupplied

/-- A consumer waits, is interrupted, and calls again once a producer has written `7`. -/
def consumerAgain : List (Bool × SemMonitor.Act Call) :=
  [(false, .call (.read 0 9) true), (false, .run true), (false, .run true), (false, .intr),
    (false, .run true), (false, .run true), (true, .call (.write 0 [55]) true),
    (true, .run true), (true, .run true), (false, .call (.read 0 9) true), (false, .run true)]

theorem bounded_queue_seven :
    ∃ s tr, (machine (fun _ => 0) Bool).Run consumerAgain s tr ∧ logged removed tr = [7] ∧
      logged inserted tr = [7] ++ s.data.contents := by
  have heval : ((machine (fun _ => 0) Bool).exec (machine (fun _ => 0) Bool).init
      consumerAgain).map (fun r => logged removed r.2) = some [7] := by
    decide +kernel
  obtain ⟨s, tr, hrun, hremoved⟩ := Machine.exists_run_of_eval heval
  exact ⟨s, tr, hrun, hremoved, hremoved ▸ (bounded_queue hrun).1⟩

end LinuxInternals.Prodcons2
