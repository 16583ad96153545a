import LinuxInternals.Prodcons.Failures
import LinuxInternals.Prodcons1.Accounting

/-!
# Failures of `prodcons1`

A producer frees its item when it is interrupted while it waits for a gap, but not when it is
interrupted at `mtx`. A consumer takes its item before it finds out that the text does not reach
the user. All other calls that fail leave things as they were.
-/

namespace LinuxInternals.Prodcons1

open Text Prodcons

/-- What a call has before it has been in the critical section. -/
def Frame.before : Frame → Hand
  | .write _ _ item => .holds item
  | .read _ _ _ => .empty

def Frame.after : Frame → Hand
  | .write _ _ item => .inserted item
  | .read _ _ none => .empty
  | .read _ _ (some item) => .taken item

def Proc.hand : Proc → Hand
  | .user => .empty
  | .inside f .exit | .inside f .post => f.after
  | .inside f _ => f.before

/-- The end of a call that has not undone what it did. -/
def Proc.loses : Proc → Act → Bool
  | .inside (.write _ _ _) .giveBack, .run _ => true
  | .inside (.read _ len (some item)) .post, .run copied =>
    decide (len < (line item).length) || !copied
  | _, _ => false

theorem follows_of_act {sh sh' : Shared} {p p' : Proc} {a : Act} {es : List Event}
    (h : act sh p a = some (sh', p', es)) (hloses : p.loses a = false) :
    p.hand.Follows es p'.hand := by
  cases p with
  | user =>
    cases a with
    | call c copied =>
      cases c with
      | write off buf =>
        simp only [act] at h
        split at h <;> cases h
        · exact Hand.Next.refuseWrite.follows
        · exact Hand.Next.alloc.follows
      | read off len =>
        simp only [act] at h
        split at h <;> cases h
        · exact Hand.Next.endOfFile.follows
        · exact .nil
    | run copied => cases h
    | intr => cases h
  | inside f st =>
    cases moves_of_act h with
    | take | exit => exact .nil
    | takeIntr =>
      cases f with
      | write => exact .cons .drop Hand.Next.refuseDropped.follows
      | read => exact Hand.Next.refuseRead.follows
    | write => exact Hand.Next.insert.follows
    | read =>
      cases headCbufferT sh.cbuf with
      | none => exact .nil
      | some item => exact Hand.Next.remove.follows
    | enterIntr => exact .nil
    | giveBack =>
      cases f with
      | write => cases hloses
      | read => exact Hand.Next.refuseRead.follows
    | post hes =>
      rcases f with ⟨off, len, item⟩ | ⟨off, len, _ | item⟩ <;> cases hes
      · exact Hand.Next.wrote.follows
      · exact follows_readTail hloses

theorem act_of_loses {sh sh' : Shared} {p p' : Proc} {a : Act} {es : List Event}
    (h : act sh p a = some (sh', p', es)) (hloses : p.loses a = true) :
    (∃ item v off, p.hand = .holds item ∧ es = [.wrote (.error v) off]) ∨
      ∃ item v out off, p.hand = .taken item ∧ es = [.free item, .read (.error v) out off] := by
  unfold Proc.loses at hloses
  split at hloses
  · cases h
    exact .inl ⟨_, _, _, rfl, rfl⟩
  · simp only [act, Frame.return, Option.map_some, Option.some.injEq, Prod.mk.injEq] at h
    obtain ⟨v, hes⟩ := exists_readTail hloses
    exact .inr ⟨_, v, _, _, rfl, h.2.2 ▸ hes⟩
  · cases hloses

variable {ι : Type} [Fintype ι] [DecidableEq ι]

/-- The calls of `prodcons1` fail without harm throughout a run in which no producer that was
interrupted at `mtx` and no consumer whose text does not reach the user comes to its return. -/
theorem harmless_iff {vector : Nat → Int32} {s : State ι} {as : List (ι × Act)}
    {tr : List (ι × Event)} (h : (machine vector ι).Run as s tr) :
    (machine vector ι).Always
        (fun s tr => Harmless (∀ i, s.proc i = .user) s.cbuf.contents tr) as ↔
      (machine vector ι).Along (fun s ia => (s.proc ia.1).loses ia.2 = false)
        (machine vector ι).init as := by
  refine h.always_iff_along_of_invariant
    (I := fun s tr => (∃ as, (machine vector ι).Run as s tr) ∧
      Hands (fun i => (s.proc i).hand) tr) ?_ ?_ ?_ ?_
  · exact ⟨⟨[], Machine.run_nil⟩, .nil⟩
  · rintro s t ⟨i, a⟩ s' es ⟨⟨as, hs⟩, hhand⟩ hsafe hstep
    refine ⟨⟨as ++ [(i, a)], Machine.run_snoc_iff.mpr ⟨s, t, es, hs, hstep, rfl⟩⟩, ?_⟩
    obtain ⟨sh, p, es, hact, rfl, rfl⟩ := machine_step_iff.mp hstep
    have hproc : (fun j => (Function.update s.proc i p j).hand) =
        Function.update (fun j => (s.proc j).hand) i p.hand :=
      Function.comp_update Proc.hand s.proc i p
    simp only [hproc]
    exact hhand.follow (follows_of_act hact hsafe)
  · rintro s t ⟨⟨as, hs⟩, hhand⟩
    apply hhand.harmless (queue_of_run hs)
    intro hquiet i
    rw [hquiet i]
    rfl
  · rintro s t ⟨i, a⟩ s' es ⟨-, hhand⟩ hloses hstep
    obtain ⟨sh, p, es, hact, rfl, rfl⟩ := machine_step_iff.mp hstep
    rcases act_of_loses hact (Bool.of_not_eq_false hloses) with
      ⟨item, v, off, hi, rfl⟩ | ⟨item, v, out, off, hi, rfl⟩
    · exact hhand.not_harmless_of_wrote hi
    · exact hhand.not_harmless_of_read hi

end LinuxInternals.Prodcons1
