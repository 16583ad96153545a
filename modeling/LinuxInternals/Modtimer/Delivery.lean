import LinuxInternals.Lib.Interleaves
import LinuxInternals.Modtimer.Flow
import LinuxInternals.Modtimer.Lifecycle

/-!
# Delivery of the generated numbers

Laid end to end, the places that a number goes through hold the numbers in the order in which
they were generated. In a session of one open file a number gets lost only when it is
overwritten in a full buffer.
-/

namespace LinuxInternals.Modtimer

open SemMonitor Text

variable {ι : Type} [DecidableEq ι] [Fintype ι] {msecsToJiffies : UInt32 → UInt64}
  {vector : Nat → Int32} {hz : Int64} {s s' : State ι} {a : Act ι} {es : List (Option ι × Event)}

omit [DecidableEq ι] [Fintype ι] in
theorem Flow.sublist (h : Flow s s' a es) :
    (removed es ++ (s'.front ++ s'.back)).Sublist (s.front ++ s.back ++ generated es) := by
  cases h with
  | passes hfront hback _ =>
    rw [← List.append_assoc, hfront, hback, ← List.append_assoc]
  | takes x hback hfront hremoved hgenerated _ =>
    rw [hremoved, hgenerated, hback, hfront]
    simp
  | loses x hback hfront hremoved hgenerated _ =>
    rw [hremoved, hgenerated, hback, hfront, List.nil_append, List.append_nil]
    exact (List.Sublist.refl _).append (List.sublist_cons_self x _)
  | discards _ hfront hback hremoved hgenerated =>
    rw [hremoved, hgenerated, List.nil_append, List.append_nil]
    exact hfront.append hback

omit [DecidableEq ι] [Fintype ι] in
/-- Numbers in their order stay in their order. -/
theorem Flow.sublist_append (h : Flow s s' a es) {tr : List (Option ι × Event)}
    (hsub : (removed tr ++ (s.front ++ s.back)).Sublist (generated tr)) :
    (removed (tr ++ es) ++ (s'.front ++ s'.back)).Sublist (generated (tr ++ es)) := by
  have hsplit : removed (tr ++ es) ++ (s'.front ++ s'.back) =
      removed tr ++ (removed es ++ (s'.front ++ s'.back)) := by simp
  rw [hsplit, generated_append]
  refine ((List.Sublist.refl (removed tr)).append h.sublist).trans ?_
  rw [← List.append_assoc]
  exact hsub.append (List.Sublist.refl _)

omit [Fintype ι] in
theorem ready_step {f : File} (hf : Sole s f) (hready : s.Ready) (hbuf : Buffered s.cbuf)
    (hmoves : Moves msecsToJiffies s a s' es) : s'.Ready := by
  cases hmoves with
  | config | expire | isPending | notPending | sizeEq | sizeNe | schedule | modTimer | refuse
  | accept | addTimer | release | delTimer | flush | cleanup | mon =>
    exact hready
  | startWork | isEmpty | remove | endWork =>
    rintro aux ⟨⟩
  | notEmpty _ hempty =>
    rintro aux - hzero
    exact absurd (beq_iff_eq.mpr hzero) (by simpa [Cbuffer.isEmptyCbufferT] using hempty)
  | @insert n =>
    rintro aux hworker hzero
    have hsize := hbuf.size_insert n.toInt32
    rw [hzero] at hsize
    omega
  | clear hfile _ =>
    -- `flush_scheduled_work` has waited for the worker
    rintro aux hworker -
    have hworked := hf.worked (.inr (by rw [show s.worker = .remove aux from hworker]; simp))
    rw [← (hf.eq_of_ne (by rw [hfile]; decide)).1, hfile] at hworked
    cases hworked

/-- What runs without overlapping sessions keep. -/
structure Past (vector : Nat → Int32) (hz : Int64) (msecsToJiffies : UInt32 → UInt64) (s : State ι)
    (tr : List (Option ι × Event)) : Prop where
  reachable : (machine vector hz msecsToJiffies ι).Reachable s
  sole : ∃ f, Sole s f
  ready : s.Ready
  sublist : (removed tr ++ (s.front ++ s.back)).Sublist (generated tr)

theorem Past.step {tr : List (Option ι × Event)} (h : Past vector hz msecsToJiffies s tr)
    (hoverlaps : s.overlaps a = false) (hstep : step msecsToJiffies s a = some (s', es)) :
    Past vector hz msecsToJiffies s' (tr ++ es) := by
  obtain ⟨f, hf⟩ := h.sole
  have hmoves := moves_of_step hstep
  exact ⟨h.reachable.step hstep, hf.step hoverlaps hmoves,
    ready_step hf h.ready (buffered h.reachable) hmoves,
    (flow_of_step h.reachable h.ready hstep).sublist_append h.sublist⟩

theorem past_of_run {as : List (Act ι)} {tr : List (Option ι × Event)}
    (hoverlaps : (machine vector hz msecsToJiffies ι).Along (fun s a => s.overlaps a = false)
      (machine vector hz msecsToJiffies ι).init as)
    (hrun : (machine vector hz msecsToJiffies ι).Run as s tr) :
    Past vector hz msecsToJiffies s tr := by
  refine hrun.invariant (C := fun s a => s.overlaps a = false)
    (I := Past vector hz msecsToJiffies) ?_ ?_ hoverlaps
  · exact ⟨Machine.run_nil.reachable, ⟨.closed, sole_init⟩, by rintro aux ⟨⟩, List.Sublist.refl _⟩
  · exact fun s t a s' es hpast ha hstep => hpast.step ha hstep

omit [Fintype ι] in
/-- Between sessions all numbers that are left are in the list. -/
theorem Sole.back_of_closed {f : File} (h : Sole s f) (hclosed : ∀ i, s.file i = .closed) :
    s.auxBuffer = [] ∧ s.back = [] := by
  have hf : f = .closed := by
    rcases h.file with ⟨hf, -⟩ | ⟨i, hi⟩
    · exact hf
    · rw [← hclosed i, hi, Function.update_self]
  subst hf
  have hworker : s.worker = .idle := by
    by_contra hne
    cases h.worked (.inr hne)
  have hfire : s.fire = .idle := by
    by_contra hne
    cases h.timed.mp (.inr hne)
  have hsize : s.cbuf.size = 0 := by
    by_contra hne
    cases h.buffered hne
  have hnil : s.cbuf.contents = [] := by
    rw [← List.length_eq_zero_iff, Cbuffer.length_contents, hsize]
  constructor
  · rw [State.auxBuffer, hworker]
  · rw [State.back, State.numbers, hnil, State.inHand, hfire]
    rfl

/-- The numbers of a session that started with `stale` in the list, up to the trace `t`: those
that have left the buffer are older than the rest, and were either passed on or overwritten. -/
def Accounted (stale : List UInt32) (s : State ι) (t : List (Option ι × Event)) : Prop :=
  ∃ older, stale ++ generated t = older ++ s.back ∧
    Interleaves older (removed t ++ s.front) (overwritten t)

omit [DecidableEq ι] [Fintype ι] in
theorem Accounted.step {stale : List UInt32} {t : List (Option ι × Event)}
    (h : Accounted stale s t) (hflow : Flow s s' a es) (hends : s.ends a = false)
    (hintr : a.interruptsWorker = false) : Accounted stale s' (t ++ es) := by
  obtain ⟨older, holder, hpast⟩ := h
  rw [Accounted, generated_append, removed_append, overwritten_append, ← List.append_assoc, holder]
  cases hflow with
  | passes hfront hback hoverwritten =>
    refine ⟨older, ?_, ?_⟩
    · rw [hback, List.append_assoc]
    · rw [List.append_assoc, hfront, hoverwritten, List.append_nil]
      exact hpast
  | takes x hback hfront hremoved hgenerated hoverwritten =>
    refine ⟨older ++ [x], ?_, ?_⟩
    · rw [hback, hgenerated]
      simp
    · rw [hremoved, hoverwritten, hfront, List.append_nil, List.append_nil, ← List.append_assoc]
      exact hpast.append_left [x]
  | loses x hback hfront hremoved hgenerated hoverwritten =>
    refine ⟨older ++ [x], ?_, ?_⟩
    · rw [hback, hgenerated]
      simp
    · rw [hremoved, hoverwritten, hfront, List.append_nil]
      exact hpast.concat_right x
  | discards hdiscards =>
    rcases hdiscards with hdiscards | hdiscards
    · exact absurd (hends.symm.trans hdiscards) (by decide)
    · exact absurd (hintr.symm.trans hdiscards) (by decide)

/-- In a session of one open file the numbers already read, those in the list, in `aux_buffer`
and in the buffer, laid end to end, are numbers generated so far, in their order. Of those
generated in the session the others were overwritten in a full buffer, except for the one that
`fire_timer` is about to insert. -/
theorem numbers_in_order {as₀ as : List (Act ι)} {s₀ s : State ι}
    {tr₀ tr : List (Option ι × Event)}
    (hoverlaps : (machine vector hz msecsToJiffies ι).Along (fun s a => s.overlaps a = false)
      (machine vector hz msecsToJiffies ι).init as₀)
    (hrun₀ : (machine vector hz msecsToJiffies ι).Run as₀ s₀ tr₀)
    (hclosed : ∀ i, s₀.file i = .closed)
    (hsession : (machine vector hz msecsToJiffies ι).Along
      (fun s a => s.overlaps a = false ∧ s.ends a = false ∧ a.interruptsWorker = false) s₀ as)
    (hrun : (machine vector hz msecsToJiffies ι).exec s₀ as = some (s, tr)) :
    (removed tr ++ s.mon.data ++ s.auxBuffer ++ s.numbers).Sublist (generated (tr₀ ++ tr)) ∧
      Interleaves (s₀.mon.data ++ generated tr)
        (removed tr ++ s.mon.data ++ s.auxBuffer ++ s.numbers ++ s.inHand) (overwritten tr) := by
  have hpast₀ := past_of_run hoverlaps hrun₀
  obtain ⟨f, hf⟩ := hpast₀.sole
  obtain ⟨haux, hback⟩ := hf.back_of_closed hclosed
  have hstart : Accounted s₀.mon.data s₀ [] := by
    refine ⟨s₀.mon.data, by rw [hback]; rfl, ?_⟩
    rw [State.front, haux, List.append_nil]
    exact .refl_left _
  have hinv : Past vector hz msecsToJiffies s (tr₀ ++ tr) ∧ Accounted s₀.mon.data s tr := by
    refine Machine.exec_invariant (M := machine vector hz msecsToJiffies ι) (t := [])
      (C := fun s a => s.overlaps a = false ∧ s.ends a = false ∧ a.interruptsWorker = false)
      (I := fun s t => Past vector hz msecsToJiffies s (tr₀ ++ t) ∧ Accounted s₀.mon.data s t)
      ?_ ⟨by rwa [List.append_nil], hstart⟩ hsession hrun
    rintro s t a s' es ⟨hpast, hacc⟩ ⟨hsole, hends, hintr⟩ hstep
    rw [← List.append_assoc]
    exact ⟨hpast.step hsole hstep,
      hacc.step (flow_of_step hpast.reachable hpast.ready hstep) hends hintr⟩
  obtain ⟨hpast, older, holder, hinter⟩ := hinv
  constructor
  · have hsub := hpast.sublist
    rw [removed_append] at hsub
    simp only [State.front, State.back, List.append_assoc] at hsub ⊢
    refine List.Sublist.trans ?_ hsub
    refine List.Sublist.trans ?_ (List.sublist_append_right _ _)
    simp only [← List.append_assoc]
    exact List.sublist_append_left _ _
  · have hall := hinter.append_left s.back
    rw [← holder] at hall
    simpa only [State.front, State.back, List.append_assoc] using hall

/-- The tenth number fills the buffer and schedules the work. The eleventh overwrites the first
before the worker starts, and a reader takes the other ten away. -/
def oneSession : List (Act Unit) :=
  [.config 0 (bytes "emergency_threshold 100") true, .open (), .file ()] ++
    (List.range' 1 9).flatMap (fun n => .expire (UInt32.ofNat n) :: List.replicate 4 .fire) ++
    .expire 10 :: List.replicate 5 .fire ++ .expire 11 :: List.replicate 3 .fire ++
    List.replicate 22 .work ++
    [.mon none (.run true), .mon none (.run true), .mon (some ()) (.call (.read () 0 64) true),
      .mon (some ()) (.run true)]

theorem numbers_in_order_oneSession :
    ∃ s tr, (machine (fun _ => 0) 250 (fun _ => 1) Unit).Run oneSession s tr ∧
      removed tr = [2, 3, 4, 5, 6, 7, 8, 9, 10, 11] ∧ overwritten tr = [1] ∧
      (removed tr ++ s.mon.data ++ s.auxBuffer ++ s.numbers).Sublist (generated tr) ∧
      Interleaves (generated tr)
        (removed tr ++ s.mon.data ++ s.auxBuffer ++ s.numbers ++ s.inHand) (overwritten tr) := by
  have heval : ((machine (fun _ => 0) 250 (fun _ => 1) Unit).exec
      (machine (fun _ => 0) 250 (fun _ => 1) Unit).init oneSession).map
        (fun r => (removed r.2, overwritten r.2)) =
      some ([2, 3, 4, 5, 6, 7, 8, 9, 10, 11], [1]) := by
    decide +kernel
  obtain ⟨s, tr, hrun, htr⟩ := Machine.exists_run_of_eval heval
  obtain ⟨hremoved, hoverwritten⟩ := Prod.mk.inj htr
  have hempty : (machine (fun _ => 0) 250 (fun _ => 1) Unit).Along
      (fun s a => s.overlaps a = false) (machine (fun _ => 0) 250 (fun _ => 1) Unit).init [] :=
    trivial
  obtain ⟨hsub, hinter⟩ := numbers_in_order hempty Machine.run_nil (fun _ => rfl)
    (by decide +kernel) hrun
  exact ⟨s, tr, hrun, hremoved, hoverwritten, hsub, hinter⟩

end LinuxInternals.Modtimer
