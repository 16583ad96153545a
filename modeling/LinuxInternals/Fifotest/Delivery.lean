import LinuxInternals.Fifotest.Payload

/-!
# One sender and one receiver

What the sender has put into the FIFO and still has to send is its whole input, what the
receiver has printed is what it has got, and the receiver comes to the end of the stream only
when the sender is gone and the buffer is empty.
-/

namespace LinuxInternals.Fifotest

open CData SemMonitor Client Fifoproc

theorem mem_records {ι : Type} {i : ι} {es : List Event} {f : Flow (List UInt8)} :
    f ∈ records (es.map (Prod.mk i)) ↔ ∃ e ∈ es, Event.record e = some f := by
  simp [records]

theorem accepted_of_quiet {ι : Type} (tr : List (ι × Event)) (i : ι) {es : List Event}
    (hquiet : ∀ xs, Event.insert xs ∉ es) :
    (Flow.ledger (records (tr ++ es.map (Prod.mk i)))).accepted =
      (Flow.ledger (records tr)).accepted := by
  rw [records_append]
  apply Flow.accepted_append
  intro xs hxs
  obtain ⟨e, he, hrecord⟩ := mem_records.mp hxs
  cases e with
  | insert items => exact hquiet items he
  | count | remove | clear => cases hrecord
  | ret op v => cases op <;> cases v <;> cases hrecord

theorem delivered_of_quiet {ι : Type} (tr : List (ι × Event)) (i : ι) {es : List Event}
    (hquiet : ∀ n out, Event.ret .read (.done n) out ∉ es) :
    Flow.delivered (records (tr ++ es.map (Prod.mk i))) = Flow.delivered (records tr) := by
  have hnil : Flow.delivered (records (es.map (Prod.mk i))) = [] := by
    apply Flow.delivered_eq_nil
    intro xs hxs
    obtain ⟨e, he, hrecord⟩ := mem_records.mp hxs
    cases e with
    | insert | count | remove | clear => cases hrecord
    | ret op v out =>
      cases op with
      | «open» | release | write => cases hrecord
      | read =>
        cases v with
        | error => cases hrecord
        | done n => exact hquiet n out he
  rw [records_append, Flow.delivered_append, hnil, List.append_nil]

theorem clear_of_discard {ι : Type} {i : ι} {es : List Event}
    (h : Flow.discard ∈ records (es.map (Prod.mk i))) : Event.clear ∈ es := by
  obtain ⟨e, he, hrecord⟩ := mem_records.mp h
  cases e with
  | clear => exact he
  | insert | count | remove => cases hrecord
  | ret op v => cases op <;> cases v <;> cases hrecord

theorem role_eq_other {r r' : Role} (h : r' ≠ r) : r' = r.other := by
  cases r <;> cases r' <;> first | rfl | exact absurd rfl h

variable {ι : Type} [Fintype ι] [DecidableEq ι] {vector : Nat → UInt8} {stack : ι → FifoMessage}
  {roles : ι → Option (List UInt8)} {w w' : World ι} {tr : List (ι × Event)}

structure Pair (a b : ι) (input : List UInt8) (w : World ι) (tr : List (ι × Event)) : Prop where
  uncounted : ∀ i, fresh (w.prog i) (w.sys.proc i) = true →
    w.sys.data.count (w.prog i).role = 0
  announced : ∀ i j, i ≠ j → past (w.prog i) (w.sys.proc i) = true →
    fresh (w.prog j) (w.sys.proc j) = false
  kept : .discard ∈ records tr → gone (w.prog b) (w.sys.proc b) = true
  sent : (w.prog a).failing = false →
    payloads (Flow.ledger (records tr)).accepted ++ unsent (w.prog a) (w.sys.proc a) = input
  got : (w.prog b).failing = false →
    received (w.prog b) = payloads (Flow.delivered (records tr))
  settled : ended (w.prog b) (w.sys.proc b) = true →
    gone (w.prog a) (w.sys.proc a) = true ∧
      ((w.prog a).succeeds = true → received (w.prog b) = input)

section Pair

variable {a b : ι} {input : List UInt8} (hpair : ∀ i, i = a ∨ i = b)
  (ha : roles a = some input) (hb : roles b = none)

theorem uncounted_nobody (h : Whole vector roles w tr) {r : Role} (hzero : w.sys.data.count r = 0)
    (i : ι) : counted r (w.sys.proc i) = false := by
  have hle := headcount_le_count h.reachable r
  exact headcount_eq_zero_iff.mp (by omega) i

include ha in
theorem Whole.role_sender (h : Whole vector roles w tr) : (w.prog a).role = .prod := by
  have hsends := h.sends a
  rw [ha] at hsends
  cases hprog : w.prog a with
  | fifoSend => rfl
  | fifoReceive =>
    rw [hprog] at hsends
    cases hsends

include hb in
theorem Whole.role_receiver (h : Whole vector roles w tr) : (w.prog b).role = .cons := by
  have hsends := h.sends b
  rw [hb] at hsends
  cases hprog : w.prog b with
  | fifoReceive => rfl
  | fifoSend =>
    rw [hprog] at hsends
    cases hsends

include hpair ha hb in
theorem Whole.role_ne (h : Whole vector roles w tr) {i j : ι} (hij : i ≠ j) :
    (w.prog i).role ≠ (w.prog j).role := by
  have hprod := h.role_sender ha
  have hcons := h.role_receiver hb
  rcases hpair i with rfl | rfl <;> rcases hpair j with rfl | rfl
  · exact absurd rfl hij
  · rw [hprod, hcons]
    decide
  · rw [hprod, hcons]
    decide
  · exact absurd rfl hij

/-- When the receiver finds no producers and an empty buffer, it has got everything. -/
theorem Pair.end_of_stream (hW : Whole vector roles w tr) (h : Pair a b input w tr) (hab : b ≠ a)
    (ha : roles a = some input) (hcalling : (w.prog b).pc = .calling) (hm : 0 < w.sys.mtx)
    (hprod : w.sys.data.count .prod = 0)
    (hempty : (parteB vector).isEmpty w.sys.data.cbuffer = true) :
    gone (w.prog a) (w.sys.proc a) = true ∧
      ((w.prog a).succeeds = true → received (w.prog b) = input) := by
  have hpast : past (w.prog b) (w.sys.proc b) = true := by
    simp [past, hcalling]
  have hgone : gone (w.prog b) (w.sys.proc b) = false := by
    simp [gone, hcalling]
  have hfailing : (w.prog b).failing = false := by
    simp [Prog.failing, hcalling]
  constructor
  · apply gone_of_uncounted (hW.coupled a) (h.announced b a hab hpast)
    rw [hW.role_sender ha]
    exact uncounted_nobody hW hprod a
  · intro hs
    have hsent := h.sent (not_failing_of_succeeds hs)
    rw [unsent_of_succeeds (hW.coupled a) hs, List.append_nil] at hsent
    have hkept : Flow.discard ∉ records tr := by
      intro hmem
      rw [h.kept hmem] at hgone
      cases hgone
    have hcontents := ((parteBLawful vector).isEmpty_iff _ hW.valid).mp hempty
    have hpending := (hW.kept.free hm).2.books.pending
    rw [hcontents, hW.flows_eq, Flow.pending_flat hW.blocks] at hpending
    have hlength := ((Flow.blocks_accepted hW.blocks).drop
      (Flow.ledger (records tr)).next).length_flatten
    have hnone : (Flow.ledger (records tr)).pending = [] := by
      rw [← List.length_eq_zero_iff]
      change ((Flow.ledger (records tr)).pending.flatten).length =
        FifoMessage.size * (Flow.ledger (records tr)).pending.length at hlength
      rw [hpending, FifoMessage.size, List.length_nil] at hlength
      omega
    have hcomplete := hW.faithful.complete hkept
    rw [hnone, List.append_nil] at hcomplete
    rw [h.got hfailing, hcomplete, hsent]

variable {i : ι} {es : List Event} (hW : Whole vector roles w tr) (h : Pair a b input w tr)
  (hmoves : (w.prog i).Moves vector w.sys.toShared (w.sys.proc i) w'.sys.data (w'.prog i)
    (w'.sys.proc i) es)
  (hother : ∀ j, j ≠ i → w'.prog j = w.prog j ∧ w'.sys.proc j = w.sys.proc j)

include hpair hW h hmoves hother

section Counted

include ha hb

theorem uncounted_step (j : ι) (hfresh : fresh (w'.prog j) (w'.sys.proc j) = true) :
    w'.sys.data.count (w'.prog j).role = 0 := by
  rcases eq_or_ne j i with rfl | hji
  · obtain ⟨hbefore, hcount⟩ := fresh_of_moves hmoves (hW.coupled j) hfresh
    rw [role_of_sends (sends_of_moves hmoves), hcount]
    exact h.uncounted j hbefore
  · obtain ⟨hprog, hproc⟩ := hother j hji
    rw [hprog, hproc] at hfresh
    rw [hprog, count_of_moves hmoves (hW.coupled i) (hW.role_ne hpair ha hb hji)]
    exact h.uncounted j hfresh

theorem announced_step (j k : ι) (hjk : j ≠ k) (hpast : past (w'.prog j) (w'.sys.proc j) = true) :
    fresh (w'.prog k) (w'.sys.proc k) = false := by
  rw [Bool.eq_false_iff]
  intro hfresh
  rcases eq_or_ne j i with rfl | hji
  · obtain ⟨hprog, hproc⟩ := hother k hjk.symm
    have hzero := uncounted_step hpair ha hb hW h hmoves hother k hfresh
    rw [hprog, hproc] at hfresh
    rcases past_of_moves hmoves (hW.coupled j) hpast with hbefore | hcount
    · rw [h.announced j k hjk hbefore] at hfresh
      cases hfresh
    · rw [hprog, role_eq_other (hW.role_ne hpair ha hb hjk.symm)] at hzero
      exact hcount hzero
  · obtain ⟨hprog, hproc⟩ := hother j hji
    rw [hprog, hproc] at hpast
    have hbefore := h.announced j k hjk hpast
    rcases eq_or_ne k i with rfl | hki
    · rw [(fresh_of_moves hmoves (hW.coupled k) hfresh).1] at hbefore
      cases hbefore
    · rw [(hother k hki).1, (hother k hki).2, hbefore] at hfresh
      cases hfresh

end Counted

omit hpair in
theorem kept_step (hW' : Whole vector roles w' (tr ++ es.map (Prod.mk i)))
    (hdiscard : Flow.discard ∈ records (tr ++ es.map (Prod.mk i))) :
    gone (w'.prog b) (w'.sys.proc b) = true := by
  rw [records_append] at hdiscard
  rcases List.mem_append.mp hdiscard with hbefore | hnow
  · have hgone := h.kept hbefore
    rcases eq_or_ne b i with rfl | hbi
    · exact (gone_of_moves hmoves (hW.coupled b) hgone).1
    · rw [(hother b hbi).1, (hother b hbi).2]
      exact hgone
  · obtain ⟨hpast, hgone, hzero⟩ := clear_of_moves hmoves (hW.coupled i) (clear_of_discard hnow)
    rcases eq_or_ne b i with rfl | hbi
    · exact hgone
    · refine gone_of_uncounted (hW'.coupled b) ?_ (uncounted_nobody hW' (hzero _) b)
      rw [(hother b hbi).1, (hother b hbi).2]
      exact h.announced i b hbi.symm hpast

include hb in
theorem sent_step (hok : (w'.prog a).failing = false) :
    payloads (Flow.ledger (records (tr ++ es.map (Prod.mk i)))).accepted ++
      unsent (w'.prog a) (w'.sys.proc a) = input := by
  rcases eq_or_ne a i with rfl | hai
  · by_cases hins : ∃ xs, Event.insert xs ∈ es
    · obtain ⟨xs, hxs⟩ := hins
      obtain ⟨m, inp, hprog, hprog', hm, -, rfl, hbefore, hafter⟩ :=
        insert_of_moves hmoves (hW.coupled a) hxs
      have hsent := h.sent (by rw [hprog]; rfl)
      rw [hprog, unsent, hbefore] at hsent
      rw [records_append, hprog', hprog, unsent, hafter]
      change payloads (Flow.ledger (records tr ++ [.accept [m.bytes]])).accepted ++ inp = input
      rw [Flow.ledger_snoc]
      change payloads ((Flow.ledger (records tr)).accepted ++ [m.bytes]) ++ inp = input
      rw [payloads_snoc, payload_ofBytes hm, List.append_assoc]
      exact hsent
    · have hquiet : ∀ xs, Event.insert xs ∉ es := fun xs hxs => hins ⟨xs, hxs⟩
      obtain ⟨hunsent, hbefore⟩ := unsent_of_moves hmoves (hW.coupled a) hquiet hok
      rw [accepted_of_quiet tr a hquiet, hunsent]
      exact h.sent hbefore
  · have hquiet : ∀ xs, Event.insert xs ∉ es := by
      intro xs hxs
      obtain ⟨m, inp, hprog, -⟩ := insert_of_moves hmoves (hW.coupled i) hxs
      have hcons := hW.role_receiver hb
      rw [← (hpair i).resolve_left hai.symm, hprog] at hcons
      cases hcons
    rw [(hother a hai).1] at hok
    rw [accepted_of_quiet tr i hquiet, (hother a hai).1, (hother a hai).2]
    exact h.sent hok

include ha in
theorem got_step (hok : (w'.prog b).failing = false) :
    received (w'.prog b) =
      payloads (Flow.delivered (records (tr ++ es.map (Prod.mk i)))) := by
  rcases eq_or_ne b i with rfl | hbi
  · by_cases hret : ∃ n out, Event.ret .read (.done n) out ∈ es
    · obtain ⟨n, out, hret⟩ := hret
      obtain ⟨m, o, kbuffer, x, hprog, -, rfl, hcases⟩ := read_of_moves hmoves (hW.coupled b) hret
      have hgot := h.got (by rw [hprog]; rfl)
      rw [hprog] at hgot
      change o = _ at hgot
      rw [records_append, Flow.delivered_append]
      rcases hcases with ⟨rfl, -, hprog'⟩ | ⟨rfl, hprog'⟩
      · rw [hprog']
        change o = payloads (Flow.delivered (records tr) ++ [])
        rw [List.append_nil]
        exact hgot
      · rw [hprog']
        change o ++ _ = payloads (Flow.delivered (records tr) ++ [out])
        rw [payloads_snoc, hgot]
    · have hquiet : ∀ n out, Event.ret .read (.done n) out ∉ es :=
        fun n out hmem => hret ⟨n, out, hmem⟩
      obtain ⟨hreceived, hbefore⟩ := received_of_moves hmoves (hW.coupled b) hquiet hok
      rw [delivered_of_quiet tr b hquiet, hreceived]
      exact h.got hbefore
  · have hquiet : ∀ n out, Event.ret .read (.done n) out ∉ es := by
      intro n out hret
      obtain ⟨m, o, kbuffer, x, hprog, -⟩ := read_of_moves hmoves (hW.coupled i) hret
      have hprod := hW.role_sender ha
      rw [← (hpair i).resolve_right hbi.symm, hprog] at hprod
      cases hprod
    rw [(hother b hbi).1] at hok ⊢
    rw [delivered_of_quiet tr i hquiet]
    exact h.got hok

include ha hb in
theorem settled_step (hab : b ≠ a) (hended : ended (w'.prog b) (w'.sys.proc b) = true) :
    gone (w'.prog a) (w'.sys.proc a) = true ∧
      ((w'.prog a).succeeds = true → received (w'.prog b) = input) := by
  rcases eq_or_ne b i with rfl | hbi
  · rw [(hother a hab.symm).1, (hother a hab.symm).2]
    have hrecv : (w.prog b).sends = false := by
      rw [hW.sends b, hb]
      rfl
    rcases ended_of_moves hmoves (hW.coupled b) hrecv hended with
      ⟨hbefore, hreceived⟩ | ⟨hcalling, hprog, -, hm, hprod, hempty⟩
    · rw [hreceived]
      exact h.settled hbefore
    · rw [hprog]
      exact h.end_of_stream hW hab ha hcalling hm hprod hempty
  · rw [(hother b hbi).1, (hother b hbi).2] at hended
    obtain ⟨hgone, hinput⟩ := h.settled hended
    obtain rfl := (hpair i).resolve_right hbi.symm
    obtain ⟨hgone', hsucceeds⟩ := gone_of_moves hmoves (hW.coupled i) hgone
    rw [(hother b hbi).1, hsucceeds]
    exact ⟨hgone', hinput⟩

end Pair

omit [Fintype ι] in
theorem pair_init {a b : ι} {input : List UInt8} (ha : roles a = some input)
    (hb : roles b = none) : Pair a b input (world vector stack roles).init [] := by
  have hproga : (world vector stack roles).init.prog a = .fifoSend .start (stack a) input :=
    congrArg (startProg (stack a)) ha
  have hprogb : (world vector stack roles).init.prog b = .fifoReceive .start (stack b) [] :=
    congrArg (startProg (stack b)) hb
  have hpc (i : ι) : ((world vector stack roles).init.prog i).pc = .start := by
    change (startProg (stack i) (roles i)).pc = .start
    cases roles i <;> rfl
  constructor
  · intro i _
    exact init_data_count _
  · intro i j _ hpast
    simp [past, hpc i] at hpast
  · intro hdiscard
    cases hdiscard
  · intro _
    rw [hproga]
    rfl
  · intro _
    rw [hprogb]
    rfl
  · intro hended
    simp [ended, hpc b] at hended

theorem pair_of_run {a b : ι} {input : List UInt8} (hpair : ∀ i, i = a ∨ i = b)
    (ha : roles a = some input) (hb : roles b = none) {ms : List (ι × Move)}
    (hrun : (world vector stack roles).Run ms w tr)
    (hcopied : (world vector stack roles).Along (fun _ im => im.2.copied = true)
      (world vector stack roles).init ms) :
    Whole vector roles w tr ∧ Pair a b input w tr := by
  have hab : b ≠ a := by
    rintro rfl
    rw [ha] at hb
    cases hb
  refine hrun.invariant (C := fun _ im => im.2.copied = true)
    (I := fun w tr => Whole vector roles w tr ∧ Pair a b input w tr)
    ⟨whole_init, pair_init ha hb⟩ ?_ hcopied
  rintro w tr ⟨i, mv⟩ w' es ⟨hW, h⟩ hmv hstep
  have hW' := hW.step hstep hmv
  obtain ⟨effects, hmoves, rfl, hother⟩ := moves_of_world_step hstep hmv
  refine ⟨hW', ?_⟩
  constructor
  · exact uncounted_step hpair ha hb hW h hmoves hother
  · exact announced_step hpair ha hb hW h hmoves hother
  · exact kept_step hW h hmoves hother hW'
  · exact sent_step hpair hb hW h hmoves hother
  · exact got_step hpair ha hW h hmoves hother
  · exact settled_step hpair ha hb hW h hmoves hother hab

/-- What the programs can rely on. -/
structure MessagesIntact (roles : ι → Option (List UInt8)) (w : World ι)
    (tr : List (ι × Event)) : Prop where
  whole : ∃ k, w.sys.data.cbuffer.contents =
    ((Flow.ledger (records tr)).accepted.drop k).flatten
  written : ∀ r ∈ (Flow.ledger (records tr)).accepted, r.length = FifoMessage.size ∧
    ∃ i, ∃ m : FifoMessage, (roles i).isSome = true ∧ m.Proper ∧ r = m.bytes ∧ (i, .insert r) ∈ tr
  taken : ∀ i n out, (i, .ret .read (.done n) out) ∈ tr →
    n = 0 ∧ out = [] ∨ n = FifoMessage.size ∧ ∃ j, (j, .insert out) ∈ tr
  faithful : Flow.Faithful (records tr)
  ordered : (Flow.delivered (records tr) ++ (Flow.ledger (records tr)).pending).Sublist
    (Flow.ledger (records tr)).accepted
  complete : .discard ∉ records tr →
    Flow.delivered (records tr) ++ (Flow.ledger (records tr)).pending =
      (Flow.ledger (records tr)).accepted
  finished : ∀ a b input, (∀ i, i = a ∨ i = b) → roles a = some input → roles b = none →
    ∀ m inp m' out, w.prog a = .fifoSend (.exited true) m inp →
      w.prog b = .fifoReceive (.exited true) m' out → out = input

omit [Fintype ι] [DecidableEq ι] in
theorem insert_of_accepted {r : List UInt8} (hr : r ∈ (Flow.ledger (records tr)).accepted) :
    ∃ i, (i, Event.insert r) ∈ tr := by
  obtain ⟨xs, hxs, hmem⟩ := Flow.mem_accepted hr
  obtain ⟨⟨i, e⟩, he, hrecord⟩ := List.mem_filterMap.mp hxs
  cases e with
  | insert items =>
    cases hrecord
    obtain rfl := List.mem_singleton.mp hmem
    exact ⟨i, he⟩
  | count | remove | clear => cases hrecord
  | ret op v => cases op <;> cases v <;> cases hrecord

/-- The message protocol of `fifotest.c`, for any number of senders and receivers. -/
theorem messages_intact {ms : List (ι × Move)} (hrun : (world vector stack roles).Run ms w tr)
    (hcopied : ∀ im ∈ ms, im.2.copied = true) : MessagesIntact roles w tr := by
  have halong := Machine.along_of_forall (M := world vector stack roles) hcopied
    (world vector stack roles).init
  have hW := whole_of_run hrun halong
  constructor
  · exact hW.contents
  · intro r hr
    obtain ⟨i, hi⟩ := insert_of_accepted hr
    obtain ⟨hsender, m, hm, rfl⟩ := hW.inserts i r hi
    exact ⟨length_bytes m, i, m, hsender, hm, rfl, hi⟩
  · intro i n out hmem
    have hlen := hW.measured hmem
    rcases hW.reads i n out hmem with rfl | rfl
    · exact .inl ⟨rfl, List.length_eq_zero_iff.mp hlen⟩
    · have hdeliver : Flow.deliver [out] ∈ records tr := List.mem_filterMap.mpr ⟨_, hmem, rfl⟩
      have hdelivered := Flow.mem_delivered hdeliver List.mem_cons_self
      exact .inr ⟨rfl, insert_of_accepted
        (hW.faithful.sublist.subset (List.mem_append_left _ hdelivered))⟩
  · exact hW.faithful
  · exact hW.faithful.sublist
  · exact hW.faithful.complete
  · intro a b input hpair ha hb m inp m' out hproga hprogb
    obtain ⟨-, hP⟩ := pair_of_run hpair ha hb hrun halong
    have hended : ended (w.prog b) (w.sys.proc b) = true := by
      rw [hprogb]
      rfl
    have hreceived := (hP.settled hended).2 (by rw [hproga]; rfl)
    rw [hprogb] at hreceived
    exact hreceived

def threeBytes (i : Fin 2) : Option (List UInt8) := if i = writer then some [104, 105, 33] else none

/-- The sender reads two bytes and then one, and the receiver takes each record at once. -/
def twoRecords : List (Fin 2 × Move) :=
  bothOpen.map (fun ia => (ia.1, .sys ia.2)) ++
  [(writer, .stdin 2),
    (writer, .sys (.call (.write ([2, 0, 0, 0, 104, 105] ++ List.replicate 30 0)) true)),
    (writer, .sys (.run true)), (writer, .sys (.run true)),
    (reader, .sys (.call (.read 36) true)), (reader, .sys (.run true)), (reader, .sys (.run true)),
    (reader, .stdout),
    (writer, .stdin 1),
    (writer, .sys (.call (.write ([1, 0, 0, 0, 33, 105] ++ List.replicate 30 0)) true)),
    (writer, .sys (.run true)), (writer, .sys (.run true)),
    (reader, .sys (.call (.read 36) true)), (reader, .sys (.run true)), (reader, .sys (.run true)),
    (reader, .stdout),
    (writer, .stdin 0), (writer, .sys (.call .release true)), (writer, .sys (.run true)),
    (writer, .sys (.run true)),
    (reader, .sys (.call (.read 36) true)), (reader, .sys (.run true)), (reader, .sys (.run true)),
    (reader, .sys (.call .release true)), (reader, .sys (.run true)), (reader, .sys (.run true))]

theorem messages_intact_twoRecords :
    ∃ w tr, (world (fun _ => 0) (fun _ => ⟨0, fun _ => 0⟩) threeBytes).Run twoRecords w tr ∧
      (w.prog reader).pc = .exited true ∧ (w.prog writer).pc = .exited true ∧
      received (w.prog reader) = [104, 105, 33] ∧ MessagesIntact threeBytes w tr := by
  have heval : ((world (fun _ => 0) (fun _ => ⟨0, fun _ => 0⟩) threeBytes).exec
      (world (fun _ => 0) (fun _ => ⟨0, fun _ => 0⟩) threeBytes).init twoRecords).map
        (fun r => ((r.1.prog reader).pc, (r.1.prog writer).pc, received (r.1.prog reader))) =
      some (.exited true, .exited true, [104, 105, 33]) := by
    decide +kernel
  obtain ⟨w, tr, hrun, hw⟩ := Machine.exists_run_of_eval heval
  simp only [Prod.mk.injEq] at hw
  exact ⟨w, tr, hrun, hw.1, hw.2.1, hw.2.2, messages_intact hrun (by decide +kernel)⟩

end LinuxInternals.Fifotest
