import LinuxInternals.Prodcons1.Failures
import LinuxInternals.Prodcons2.Queues

/-!
# Failures of `prodcons2`

A producer that is interrupted returns without freeing its item, whichever semaphore it was
waiting for. A consumer takes its item before it finds out that the text does not reach the
user, as in `prodcons1`.
-/

namespace LinuxInternals.Prodcons2

open Text Prodcons SemMonitor

/-- What a call has before it has been at the buffer. -/
def Frame.before : Frame → Hand
  | .write _ _ item => .holds item
  | .read _ _ _ => .empty

def Frame.after : Frame → Hand
  | .write _ _ item => .inserted item
  | .read _ _ none => .empty
  | .read _ _ (some item) => .taken item

abbrev Proc := SemMonitor.Proc Unit Frame Queue Exit

def hand : Proc → Hand
  | .user _ => .empty
  | .inside f (.signal _) | .inside f (.unlock .ok) => f.after
  | .inside f _ => f.before

/-- The end of a call that has not undone what it did. -/
def loses : Proc → SemMonitor.Act Call → Bool
  | .inside (.write _ _ _) .lock, .intr | .inside (.write _ _ _) .relock, .intr
  | .inside (.write _ _ _) (.unlock .eintr), .run _ => true
  | .inside (.read _ len (some item)) (.unlock .ok), .run copied =>
    decide (len < (line item).length) || !copied
  | _, _ => false

/-- The `vmalloc` of a write. -/
def vmalloc : SemMonitor.Act Call → List Event
  | .call (.write off buf) copied =>
    match writeEntry off buf copied with
    | .inl _ => []
    | .inr item => [.alloc item]
  | _ => []

/-- The module, with the allocations in the trace. -/
def allocating (vector : Nat → Int32) (ι : Type) [DecidableEq ι] :
    Machine (State ι) (ι × SemMonitor.Act Call) (ι × Event) :=
  (machine vector ι).noting fun ia => (vmalloc ia.2).map (Prod.mk ia.1)

section Body

variable {f : Frame} {pt : Point} {c : Cbuffer Int32} {nr : Queue → Int}

theorem follows_body (hpt : pt ≠ .signalled) :
    f.before.Follows (body f pt c nr).effects (hand (body f pt c nr).proc) := by
  cases f with
  | write off len item =>
    cases pt with
    | signalled => exact absurd rfl hpt
    | entered | relocked =>
      simp only [body, prodconsWrite]
      split
      · exact .nil
      · split <;> exact Hand.Next.insert.follows
  | read off len item =>
    cases pt with
    | signalled => exact absurd rfl hpt
    | entered | relocked =>
      simp only [body, prodconsRead]
      split
      · exact .nil
      · cases headCbufferT c with
        | none => split <;> exact .nil
        | some item => split <;> exact Hand.Next.remove.follows

theorem follows_signalled : f.after.Follows (body f .signalled c nr).effects
    (hand (body f .signalled c nr).proc) := by
  cases f <;> exact .nil

/-- What a piece of code inserts goes to the end of the buffer, what it removes comes from the
front. -/
theorem contents_body (h : Valid c) :
    c.contents ++ (body f pt c nr).effects.flatMap inserted =
      (body f pt c nr).effects.flatMap removed ++ (body f pt c nr).data.contents := by
  have hmax := h.maxSize
  have hsize := h.size_le
  cases f with
  | write off len item =>
    cases pt with
    | signalled => exact List.append_nil _
    | entered | relocked =>
      simp only [body, prodconsWrite]
      split
      · exact List.append_nil _
      · have hfull : c.size ≠ c.maxSize := fun heq => ‹¬_› (beq_iff_eq.mpr heq)
        rw [Cbuffer.contents_insert_of_lt h.toDocumented (by omega) (by omega)]
        rfl
  | read off len item =>
    cases pt with
    | signalled => exact List.append_nil _
    | entered | relocked =>
      simp only [body, prodconsRead]
      split
      · exact List.append_nil _
      · rw [Cbuffer.contents_remove h.toDocumented (by omega), headCbufferT_eq h.toDocumented]
        cases c.contents with
        | nil => rfl
        | cons x xs => simp [inserted, removed]

end Body

section Moves

variable {vector : Nat → Int32} {sh sh' : Shared (Cbuffer Int32) Queue} {p p' : Proc}
  {a : SemMonitor.Act Call} {es : List Event}

theorem follows_of_moves (h : (client vector).Moves sh p a sh' p' es) (hloses : loses p a = false) :
    (hand p).Follows (vmalloc a ++ es) (hand p') := by
  cases h with
  | @enter x c copied f hsyscall =>
    cases c with
    | write off buf =>
      simp only [client, syscall, vmalloc] at hsyscall ⊢
      cases hentry : writeEntry off buf copied <;> rw [hentry] at hsyscall <;> cases hsyscall
      exact Hand.Next.alloc.follows
    | read off len =>
      simp only [client, syscall] at hsyscall
      split at hsyscall <;> cases hsyscall
      exact .nil
  | @refuse x c copied y es hsyscall =>
    cases c with
    | write off buf =>
      simp only [client, syscall, vmalloc] at hsyscall ⊢
      cases hentry : writeEntry off buf copied <;> rw [hentry] at hsyscall <;> cases hsyscall
      exact Hand.Next.refuseWrite.follows
    | read off len =>
      simp only [client, syscall] at hsyscall
      split at hsyscall <;> cases hsyscall
      exact Hand.Next.endOfFile.follows
  | lock _ hg => exact hg ▸ follows_body (by decide)
  | relock _ hg => exact hg ▸ follows_body (by decide)
  | signal hg => exact hg ▸ follows_signalled
  | wait | take | abort | sleepIntr => exact .nil
  | @unlock f r copied x es hleave =>
    rcases f with ⟨off, len, item⟩ | ⟨off, len, _ | item⟩ <;> cases r <;> cases hleave
    · exact Hand.Next.wrote.follows
    · cases hloses
    · exact .nil
    · exact Hand.Next.refuseRead.follows
    · exact follows_readTail hloses
    · exact Hand.Next.refuseRead.follows
  | @lockIntr f x es hleave =>
    cases f <;> cases hleave
    · cases hloses
    · exact Hand.Next.refuseRead.follows
  | @relockIntr f x es hleave =>
    cases f <;> cases hleave
    · cases hloses
    · exact Hand.Next.refuseRead.follows

theorem es_of_loses (h : (client vector).Moves sh p a sh' p' es) (hloses : loses p a = true) :
    (∃ item v off, hand p = .holds item ∧ vmalloc a ++ es = [.wrote (.error v) off]) ∨
      ∃ item v out off, hand p = .taken item ∧
        vmalloc a ++ es = [.free item, .read (.error v) out off] := by
  unfold loses at hloses
  split at hloses
  case h_1 =>
    cases h with
    | lockIntr hleave =>
      cases hleave
      exact .inl ⟨_, _, _, rfl, rfl⟩
  case h_2 =>
    cases h with
    | relockIntr hleave =>
      cases hleave
      exact .inl ⟨_, _, _, rfl, rfl⟩
  case h_3 =>
    cases h with
    | unlock hleave =>
      cases hleave
      exact .inl ⟨_, _, _, rfl, rfl⟩
  case h_4 =>
    cases h with
    | unlock hleave =>
      cases hleave
      obtain ⟨v, hes⟩ := exists_readTail hloses
      exact .inr ⟨_, v, _, _, rfl, hes⟩
  case h_5 => cases hloses

/-- The events of a return neither insert nor remove. -/
theorem contents_leave {f : Frame} {r : Exit} {copied : Bool} {x : Unit}
    (h : leave f r copied = (x, es)) : es.flatMap inserted = [] ∧ es.flatMap removed = [] := by
  rcases f with ⟨off, len, item⟩ | ⟨off, len, _ | item⟩ <;> cases r <;> cases h
  case read.some.ok => exact (removed_readTail off len item copied).symm
  all_goals exact ⟨rfl, rfl⟩

theorem contents_vmalloc (a : SemMonitor.Act Call) :
    (vmalloc a).flatMap inserted = [] ∧ (vmalloc a).flatMap removed = [] := by
  unfold vmalloc
  split
  · split <;> exact ⟨rfl, rfl⟩
  · exact ⟨rfl, rfl⟩

theorem contents_of_moves (h : (client vector).Moves sh p a sh' p' es) (hvalid : Valid sh.data) :
    sh.data.contents ++ es.flatMap inserted = es.flatMap removed ++ sh'.data.contents := by
  cases h with
  | enter | wait | take | abort | sleepIntr => exact List.append_nil _
  | @refuse x c copied y es hsyscall =>
    have hes : es.flatMap inserted = [] ∧ es.flatMap removed = [] := by
      cases c with
      | write off buf =>
        simp only [client, syscall] at hsyscall
        split at hsyscall <;> cases hsyscall
        exact ⟨rfl, rfl⟩
      | read off len =>
        simp only [client, syscall] at hsyscall
        split at hsyscall <;> cases hsyscall
        exact ⟨rfl, rfl⟩
    rw [hes.1, hes.2, List.append_nil, List.nil_append]
  | lock _ hg | relock _ hg | signal hg =>
    rw [Client.commit_data, ← hg]
    exact contents_body hvalid
  | unlock hleave =>
    obtain ⟨hins, hrem⟩ := contents_leave hleave
    rw [hins, hrem, List.append_nil, List.nil_append]
    rfl
  | lockIntr hleave | relockIntr hleave =>
    obtain ⟨hins, hrem⟩ := contents_leave hleave
    rw [hins, hrem, List.append_nil, List.nil_append]

end Moves

variable {ι : Type} [Fintype ι] [DecidableEq ι]

/-- The calls of `prodcons2` fail without harm exactly throughout a run in which no producer
comes to its return from an interrupted wait, and no consumer whose text does not reach the
user. -/
theorem harmless_iff {vector : Nat → Int32} {s : State ι}
    {as : List (ι × SemMonitor.Act Call)} {tr : List (ι × Event)}
    (h : (allocating vector ι).Run as s tr) :
    (allocating vector ι).Always
        (fun s tr => Harmless (∀ i, s.proc i = .user ()) s.data.contents tr) as ↔
      (allocating vector ι).Along (fun s ia => loses (s.proc ia.1) ia.2 = false)
        (allocating vector ι).init as := by
  refine h.always_iff_along_of_invariant
    (I := fun s tr => (machine vector ι).Reachable s ∧ Hands (fun i => hand (s.proc i)) tr ∧
      logged inserted tr = logged removed tr ++ s.data.contents) ?_ ?_ ?_ ?_
  · exact ⟨Machine.run_nil.reachable, .nil, (cbuf_documented vector).2.2.symm⟩
  · rintro s t ⟨i, a⟩ s' es ⟨hs, hhand, hqueue⟩ hsafe hstep
    obtain ⟨fs, hinner, rfl⟩ := Machine.noting_step_eq_some.mp hstep
    obtain ⟨es, hmoves, hproc, rfl⟩ := moves_of_step hinner
    rw [← List.map_append]
    refine ⟨hs.step hinner, ?_, ?_⟩
    · have hhands : (fun j => hand (s'.proc j)) =
          Function.update (fun j => hand (s.proc j)) i (hand (s'.proc i)) := by
        have hupdate := Function.comp_update hand s.proc i (s'.proc i)
        rwa [← hproc] at hupdate
      rw [hhands]
      exact hhand.follow (follows_of_moves hmoves hsafe)
    · have hcontents := contents_of_moves hmoves (reachable_valid (supplies vector).toKeeps hs)
      obtain ⟨hins, hrem⟩ := contents_vmalloc a
      rw [logged_append, logged_append, hqueue, List.flatMap_append, List.flatMap_append, hins,
        hrem, List.nil_append, List.nil_append, List.append_assoc, hcontents, List.append_assoc]
  · rintro s t ⟨hs, hhand, hqueue⟩
    apply hhand.harmless hqueue
    intro hquiet i
    rw [hquiet i]
    rfl
  · rintro s t ⟨i, a⟩ s' es ⟨-, hhand, -⟩ hloses hstep
    obtain ⟨fs, hinner, rfl⟩ := Machine.noting_step_eq_some.mp hstep
    obtain ⟨es, hmoves, -, rfl⟩ := moves_of_step hinner
    rw [← List.map_append]
    rcases es_of_loses hmoves (Bool.of_not_eq_false hloses) with
      ⟨item, v, off, hi, hes⟩ | ⟨item, v, out, off, hi, hes⟩
    · rw [hes]
      exact hhand.not_harmless_of_wrote hi
    · rw [hes]
      exact hhand.not_harmless_of_read hi

/-- The calls that fail change nothing in the runs of either module in which nobody comes to the
end of a call that has not undone what it did. -/
theorem failed_calls_harmless_iff (vector : Nat → Int32) :
    (∀ (s : Prodcons1.State ι) as tr, (Prodcons1.machine vector ι).Run as s tr →
      ((Prodcons1.machine vector ι).Always
          (fun s tr => Harmless (∀ i, s.proc i = .user) s.cbuf.contents tr) as ↔
        (Prodcons1.machine vector ι).Along (fun s ia => (s.proc ia.1).loses ia.2 = false)
          (Prodcons1.machine vector ι).init as)) ∧
    ∀ (s : State ι) as tr, (allocating vector ι).Run as s tr →
      ((allocating vector ι).Always
          (fun s tr => Harmless (∀ i, s.proc i = .user ()) s.data.contents tr) as ↔
        (allocating vector ι).Along (fun s ia => loses (s.proc ia.1) ia.2 = false)
          (allocating vector ι).init as) :=
  ⟨fun _ _ _ h => Prodcons1.harmless_iff h, fun _ _ _ h => harmless_iff h⟩

/-- A producer writes `7`, and a consumer asks for one byte. -/
def shortRead : List (Bool × Prodcons1.Act) :=
  [(true, .call (.write 0 [55]) true), (true, .run true), (true, .run true), (true, .run true),
    (true, .run true), (false, .call (.read 0 1) true), (false, .run true), (false, .run true),
    (false, .run true), (false, .run true)]

/-- A producer is interrupted at `mtx`. -/
def interruptedWrite : List (Bool × SemMonitor.Act Call) :=
  [(true, .call (.write 0 [55]) true), (true, .intr)]

theorem failed_calls_harmless_iff_shortRead :
    ¬(Prodcons1.machine (fun _ => 0) Bool).Always
        (fun s tr => Harmless (∀ i, s.proc i = .user) s.cbuf.contents tr) shortRead ∧
      (Prodcons1.machine (fun _ => 0) Bool).Always
        (fun s tr => Harmless (∀ i, s.proc i = .user) s.cbuf.contents tr) (shortRead.take 9) := by
  have heval : ((Prodcons1.machine (fun _ => 0) Bool).exec
      (Prodcons1.machine (fun _ => 0) Bool).init shortRead).map (fun _ => true) = some true := by
    decide +kernel
  have heval' : ((Prodcons1.machine (fun _ => 0) Bool).exec
      (Prodcons1.machine (fun _ => 0) Bool).init (shortRead.take 9)).map (fun _ => true) =
        some true := by
    decide +kernel
  obtain ⟨s, tr, hrun, -⟩ := Machine.exists_run_of_eval heval
  obtain ⟨s', tr', hrun', -⟩ := Machine.exists_run_of_eval heval'
  have hiff := (failed_calls_harmless_iff (ι := Bool) fun _ => 0).1
  exact ⟨mt (hiff s _ tr hrun).mp (by decide +kernel),
    (hiff s' _ tr' hrun').mpr (by decide +kernel)⟩

/-- The read that fails takes the `7` with it, and the write that fails leaves its `7` behind. -/
theorem seven_lost :
    (∃ s tr, (Prodcons1.machine (fun _ => 0) Bool).Run shortRead s tr ∧
      ¬Harmless (∀ i, s.proc i = .user) s.cbuf.contents tr) ∧
    ∃ s tr, (allocating (fun _ => 0) Bool).Run interruptedWrite s tr ∧
      ¬Harmless (∀ i, s.proc i = .user ()) s.data.contents tr := by
  have hread : ((Prodcons1.machine (fun _ => 0) Bool).exec
      (Prodcons1.machine (fun _ => 0) Bool).init shortRead).map Prod.snd =
        some ([(true, .alloc 7), (true, .insert 7), (true, .wrote (.done 1) 1), (false, .remove 7),
          (false, .free 7)] ++ [(false, .read (.error .enospc) [] 0)]) := by
    decide +kernel
  have hwrite : ((allocating (fun _ => 0) Bool).exec (allocating (fun _ => 0) Bool).init
      interruptedWrite).map Prod.snd =
        some ([(true, .alloc 7)] ++ [(true, .wrote (.error .eintr) 1)]) := by
    decide +kernel
  obtain ⟨s, tr, hrun, rfl⟩ := Machine.exists_run_of_eval hread
  obtain ⟨s', tr', hrun', rfl⟩ := Machine.exists_run_of_eval hwrite
  refine ⟨⟨s, _, hrun, fun h => ?_⟩, s', _, hrun', fun h => ?_⟩
  · exact absurd (h.reads _ _ _ _ _ (List.prefix_refl _)) (by decide)
  · exact absurd (h.writes _ _ _ _ (List.prefix_refl _)).2 (by decide)

end LinuxInternals.Prodcons2
