import LinuxInternals.Fifotest.Steps
import LinuxInternals.Lib.Records

/-!
# Whole records

The invariant of all programs together: what the module keeps as a stream of bytes is a
stream of records.
-/

namespace LinuxInternals.Fifotest

open CData SemMonitor Client Fifoproc

variable {ι : Type}

def Prog.sends : Prog → Bool
  | .fifoSend _ _ _ => true
  | .fifoReceive _ _ _ => false

def Event.record : Event → Option (Flow (List UInt8))
  | .insert items => some (.accept [items])
  | .clear => some .discard
  | .ret .read (.done n) out => some (.deliver (if n = 0 then [] else [out]))
  | _ => none

/-- The stream in records: one for each insertion, one for each read that is not at the
end. -/
def records (tr : List (ι × Event)) : List (Flow (List UInt8)) :=
  tr.filterMap fun e => Event.record e.2

theorem records_append (tr es : List (ι × Event)) :
    records (tr ++ es) = records tr ++ records es := List.filterMap_append

section Step

variable {vector : Nat → UInt8} {sh : Shared (Data (Cbuffer UInt8)) Role} {prog prog' : Prog}
  {p p' : Process} {d : Data (Cbuffer UInt8)} {es : List Event}

theorem returned_sends (prog : Prog) (e : Event) : (prog.returned e).sends = prog.sends := by
  unfold Prog.returned
  split
  all_goals try rfl
  all_goals split
  all_goals try rfl
  all_goals split <;> rfl

theorem foldl_returned_sends (es : List Event) (prog : Prog) :
    (es.foldl Prog.returned prog).sends = prog.sends := by
  induction es generalizing prog with
  | nil => rfl
  | cons e es ih => rw [List.foldl_cons, ih, returned_sends]

theorem sends_of_moves (h : prog.Moves vector sh p d prog' p' es) : prog'.sends = prog.sends := by
  cases h with
  | user hlocal => cases hlocal <;> rfl
  | call hcalls => cases hcalls <;> rfl
  | idle | code => rfl
  | leave => exact foldl_returned_sends _ _

theorem orderly_of_aligned {a : Act Call} (hc : Coupled prog p) (hcopied : copied a = true)
    (hvalid : (parteBLawful vector).valid d.cbuffer) (hnonneg : ∀ r, 0 ≤ d.count r)
    (haligned : Aligned d.cbuffer) : Orderly (parteB vector) d p a where
  copied := hcopied
  enough := by
    have hsize := (parteBLawful vector).size_eq _ hvalid
    change _ = d.cbuffer.contents.length at hsize
    have hlen : ∀ m len kbuffer st, p = .inside (.read m len kbuffer) st →
        ¬(d.count .prod = 0 ∧ 0 < (parteB vector).size d.cbuffer ∧
          (parteB vector).size d.cbuffer < len) := by
      rintro m len kbuffer st rfl ⟨-, hpos, hlt⟩
      cases hc
      rcases haligned with hzero | hfull <;> omega
    unfold shortRead
    split
    · simpa using hlen _ _ _ _ rfl
    · simpa using hlen _ _ _ _ rfl
    · rfl
  nonneg := hnonneg

end Step

abbrev BytesKept [Fintype ι] (vector : Nat → UInt8) (s : State (Cbuffer UInt8) ι)
    (tr : List (ι × Event)) : Prop :=
  Guarded
    (fun d (tr : List (ι × Event)) => (parteBLawful vector).valid d.cbuffer ∧
      Account tr ((parteBLawful vector).contents d.cbuffer))
    (fun p d tr => (parteBLawful vector).valid d.cbuffer ∧
      Account tr (inHand p ++ (parteBLawful vector).contents d.cbuffer)) s tr

variable [Fintype ι] [DecidableEq ι] {vector : Nat → UInt8} {stack : ι → FifoMessage}
  {roles : ι → Option (List UInt8)} {w w' : World ι} {tr : List (ι × Event)}

structure Whole (vector : Nat → UInt8) (roles : ι → Option (List UInt8)) (w : World ι)
    (tr : List (ι × Event)) : Prop where
  reachable : (machine (parteB vector) ι).Reachable w.sys
  coupled : ∀ i, Coupled (w.prog i) (w.sys.proc i)
  sends : ∀ i, (w.prog i).sends = (roles i).isSome
  aligned : Aligned w.sys.data.cbuffer
  kept : BytesKept vector w.sys tr
  inserts : ∀ i xs, (i, .insert xs) ∈ tr → (roles i).isSome = true ∧
    ∃ m : FifoMessage, m.Proper ∧ xs = m.bytes
  reads : ∀ i n out, (i, .ret .read (.done n) out) ∈ tr → n = 0 ∨ n = FifoMessage.size

theorem whole_init : Whole vector roles (world vector stack roles).init [] where
  reachable := Machine.run_nil.reachable
  coupled i := by
    change Coupled (startProg (stack i) (roles i)) _
    cases roles i with
    | none => exact .recvStart
    | some inp => exact .sendStart
  sends i := by
    change (startProg (stack i) (roles i)).sends = _
    cases roles i <;> rfl
  aligned := .inl rfl
  kept := ⟨fun _ => (guards_stream (parteBLawful vector)).init, fun i hi => by cases hi⟩
  inserts := by simp
  reads := by simp

omit [Fintype ι] in
theorem moves_of_world_step {i : ι} {mv : Move} {es : List (ι × Event)}
    (hstep : (world vector stack roles).step w (i, mv) = some (w', es))
    (hcopied : mv.copied = true) :
    ∃ effects, (w.prog i).Moves vector w.sys.toShared (w.sys.proc i) w'.sys.data (w'.prog i)
        (w'.sys.proc i) effects ∧ es = effects.map (Prod.mk i) ∧
      ∀ j, j ≠ i → w'.prog j = w.prog j ∧ w'.sys.proc j = w.sys.proc j := by
  rcases world_step_cases hstep with ⟨hsys, rfl, p, hlocal, hprog⟩ |
    ⟨a, p, rfl, hissue, hsys, hprog⟩
  · refine ⟨[], ?_, rfl, fun j hj => ⟨?_, ?_⟩⟩
    · rw [hsys, hprog, Function.update_self]
      exact .user hlocal
    · rw [hprog, Function.update_of_ne hj]
    · rw [hsys]
  · obtain ⟨effects, hmoves, hproc, rfl⟩ := moves_of_step hsys
    refine ⟨effects, ?_, rfl, fun j hj => ⟨?_, ?_⟩⟩
    · have heffects : (effects.map (Prod.mk i)).map Prod.snd = effects := by simp
      rw [hprog, heffects, Function.update_self]
      exact moves_of_issue hmoves hissue hcopied
    · rw [hprog, Function.update_of_ne hj]
    · rw [hproc, Function.update_of_ne hj]

theorem Whole.valid (h : Whole vector roles w tr) :
    (parteBLawful vector).valid w.sys.data.cbuffer :=
  reachable_valid (keeps_device (parteBLawful vector)) h.reachable

theorem Whole.step (h : Whole vector roles w tr) {i : ι} {mv : Move} {es : List (ι × Event)}
    (hstep : (world vector stack roles).step w (i, mv) = some (w', es))
    (hcopied : mv.copied = true) : Whole vector roles w' (tr ++ es) := by
  obtain ⟨effects, hmoves, hes, hother⟩ := moves_of_world_step hstep hcopied
  have hnonneg := count_nonneg h.reachable
  constructor
  · rcases world_step_cases hstep with ⟨hsys, -⟩ | ⟨a, p, -, -, hsys, -⟩
    · rw [hsys]
      exact h.reachable
    · exact h.reachable.step hsys
  · intro j
    rcases eq_or_ne j i with rfl | hj
    · exact coupled_of_moves hmoves (h.coupled j)
    · rw [(hother j hj).1, (hother j hj).2]
      exact h.coupled j
  · intro j
    rcases eq_or_ne j i with rfl | hj
    · rw [sends_of_moves hmoves, h.sends j]
    · rw [(hother j hj).1, h.sends j]
  · exact aligned_of_moves hmoves (h.coupled i) h.valid hnonneg h.aligned
  · rcases world_step_cases hstep with ⟨hsys, rfl, -⟩ | ⟨a, p, rfl, -, hsys, -⟩
    · rw [hsys, List.append_nil]
      exact h.kept
    · exact h.kept.step (frames_small _) (guards_stream (parteBLawful vector)) h.reachable hsys
        (orderly_of_aligned (h.coupled i) hcopied h.valid hnonneg h.aligned)
  · intro j xs hmem
    rcases List.mem_append.mp hmem with hmem | hmem
    · exact h.inserts j xs hmem
    · rw [hes] at hmem
      obtain ⟨e, he, heq⟩ := List.mem_map.mp hmem
      cases heq
      obtain ⟨m, inp, hprog, -, hm, hxs, -⟩ := insert_of_moves hmoves (h.coupled i) he
      refine ⟨?_, m, hm, hxs⟩
      rw [← h.sends i, hprog]
      rfl
  · intro j n out hmem
    rcases List.mem_append.mp hmem with hmem | hmem
    · exact h.reads j n out hmem
    · rw [hes] at hmem
      obtain ⟨e, he, heq⟩ := List.mem_map.mp hmem
      cases heq
      obtain ⟨m, o, kbuffer, x, -, -, -, hcases⟩ := read_of_moves hmoves (h.coupled i) he
      exact hcases.imp And.left And.left

theorem whole_of_run {ms : List (ι × Move)} (hrun : (world vector stack roles).Run ms w tr)
    (hcopied : (world vector stack roles).Along (fun _ im => im.2.copied = true)
      (world vector stack roles).init ms) : Whole vector roles w tr :=
  hrun.invariant (C := fun _ im => im.2.copied = true) whole_init
    (fun _ _ _ _ _ h hcopied hstep => h.step hstep hcopied) hcopied

namespace Whole

/-- Whoever holds `mtx`, the bytes on their way are in the buffer or in its hands. -/
theorem account (h : Whole vector roles w tr) :
    ∃ hand, Account tr (hand ++ w.sys.data.cbuffer.contents) ∧
      (hand.length = 0 ∨ hand.length = FifoMessage.size) := by
  rcases h.kept.free_or_held h.reachable with ⟨-, hacc⟩ | ⟨i, -, -, hacc⟩
  · exact ⟨[], hacc, .inl rfl⟩
  · refine ⟨inHand (w.sys.proc i), hacc, ?_⟩
    have hc := h.coupled i
    generalize w.prog i = prog at hc
    generalize w.sys.proc i = p at hc ⊢
    unfold inHand
    split
    · exact .inl rfl
    · exact .inl rfl
    · cases hc
      exact .inr (length_read _ _)
    · cases hc
      exact .inr (length_read _ _)
    · exact .inl rfl

theorem measured (h : Whole vector roles w tr) {i : ι} {n : Nat} {out : List UInt8}
    (hmem : (i, Event.ret .read (.done n) out) ∈ tr) : out.length = n := by
  obtain ⟨hand, hacc, -⟩ := h.account
  exact hacc.measured i n out hmem

theorem flows_eq (h : Whole vector roles w tr) : flows tr = (records tr).map Flow.flat := by
  rw [flows, records, List.map_filterMap]
  apply List.filterMap_congr
  intro ie hmem
  obtain ⟨i, e⟩ := ie
  cases e with
  | count | remove | clear => rfl
  | insert items => simp [Event.record, Event.flow, Flow.flat]
  | ret op v out =>
    cases op with
    | «open» | release | write => rfl
    | read =>
      cases v with
      | error => rfl
      | done n =>
        have hlen := h.measured hmem
        rcases Nat.eq_zero_or_pos n with rfl | hn
        · rw [List.length_eq_zero_iff] at hlen
          rw [hlen]
          rfl
        · simp [Event.record, Event.flow, Flow.flat, hn.ne']

theorem blocks (h : Whole vector roles w tr) :
    ∀ f ∈ records tr, Blocks FifoMessage.size f.blocks := by
  intro f hf
  obtain ⟨⟨i, e⟩, hmem, hrecord⟩ := List.mem_filterMap.mp hf
  cases e with
  | count | remove => cases hrecord
  | clear =>
    cases hrecord
    exact List.forall_mem_nil _
  | insert items =>
    cases hrecord
    obtain ⟨-, m, -, rfl⟩ := h.inserts i items hmem
    exact List.forall_mem_singleton.mpr (length_bytes m)
  | ret op v out =>
    cases op with
    | «open» | release | write => cases hrecord
    | read =>
      cases v with
      | error => cases hrecord
      | done n =>
        cases hrecord
        rcases h.reads i n out hmem with rfl | rfl
        · exact List.forall_mem_nil _
        · exact List.forall_mem_singleton.mpr (h.measured hmem)

theorem faithful (h : Whole vector roles w tr) : Flow.Faithful (records tr) := by
  obtain ⟨hand, hacc, -⟩ := h.account
  have hflat := hacc.books.faithful
  rw [h.flows_eq] at hflat
  exact Flow.faithful_of_flat (by decide) h.blocks hflat

theorem contents (h : Whole vector roles w tr) :
    ∃ k, w.sys.data.cbuffer.contents =
      ((Flow.ledger (records tr)).accepted.drop k).flatten := by
  obtain ⟨hand, hacc, hlen⟩ := h.account
  have hpending := hacc.books.pending
  have hblocks := Flow.blocks_accepted h.blocks
  rw [h.flows_eq, Flow.pending_flat h.blocks] at hpending
  obtain ⟨j, hj⟩ : ∃ j, hand.length = FifoMessage.size * j := by
    rcases hlen with hlen | hlen
    · exact ⟨0, hlen⟩
    · exact ⟨1, hlen⟩
  refine ⟨(Flow.ledger (records tr)).next + j, ?_⟩
  rw [← List.drop_drop, (hblocks.drop _).flatten_drop]
  change _ = (Flow.ledger (records tr)).pending.flatten.drop _
  rw [hpending, ← hj, List.drop_left]

end Whole

end LinuxInternals.Fifotest
