import LinuxInternals.Fifotest.Progress

/-!
# The text on its way

What a sender still has to put into the FIFO and what a receiver has taken out of it, and
what one step does to either.
-/

namespace LinuxInternals.Fifotest

open CData SemMonitor Client Fifoproc

theorem nrBytes_ofBytes {m : FifoMessage} (hm : m.Proper) :
    (FifoMessage.ofBytes m.bytes).nrBytes = m.nrBytes := by
  have hbyte (j : Nat) (hj : j < 4) :
      (m.bytes.getD j 0).toNat * 256 ^ j = m.nrBytes / 256 ^ j % 256 * 256 ^ j := by
    rw [FifoMessage.bytes, List.getD_append _ _ _ _ (by simpa using hj)]
    simp [List.getD, hj]
  have hlt : m.nrBytes < 256 ^ 4 := hm.2.trans_lt (by decide)
  calc (FifoMessage.ofBytes m.bytes).nrBytes
      = ((List.range 4).map fun j => m.nrBytes / 256 ^ j % 256 * 256 ^ j).sum :=
        congrArg List.sum (List.map_congr_left fun j hj => hbyte j (List.mem_range.mp hj))
    _ = m.nrBytes % 256 ^ 4 := sum_bytes m.nrBytes 4
    _ = m.nrBytes := Nat.mod_eq_of_lt hlt

theorem payload_ofBytes {m : FifoMessage} (hm : m.Proper) :
    (FifoMessage.ofBytes m.bytes).payload = m.payload := by
  rw [FifoMessage.payload, nrBytes_ofBytes hm, FifoMessage.payload]
  apply read_congr
  intro i hi
  have hlt : i < 32 := hi.trans_le hm.2
  change m.bytes.getD (4 + i) 0 = m.data i
  rw [FifoMessage.bytes, List.getD_append_right _ _ _ _ (by simp)]
  simp [List.getD, CData.read, hlt]

theorem payload_chunk {m : FifoMessage} {inp : List UInt8} {k : Nat} (hk : k ≤ inp.length) :
    (FifoMessage.payload ⟨k, memcpy m.data 0 (fun i => inp.getD i 0) 0 k⟩) = inp.take k := by
  have hlen : (inp.take k).length = k := List.length_take_of_le hk
  apply List.ext_getElem ((length_read _ _).trans hlen.symm)
  intro i hi hi'
  rw [hlen] at hi'
  simp [memcpy, hi', hi'.trans_le hk]

def payloads (ls : List (List UInt8)) : List UInt8 :=
  ls.flatMap fun l => (FifoMessage.ofBytes l).payload

theorem payloads_snoc (ls : List (List UInt8)) (l : List UInt8) :
    payloads (ls ++ [l]) = payloads ls ++ (FifoMessage.ofBytes l).payload := by
  simp [payloads]

/-- The part of the sender's input that is not in the FIFO yet. -/
def unsent : Prog → Process → List UInt8
  | .fifoSend .ready m inp, _ => m.payload ++ inp
  | .fifoSend .calling m inp, p => if committed p then inp else m.payload ++ inp
  | .fifoSend _ _ inp, _ => inp
  | .fifoReceive _ _ _, _ => []

/-- What a receiver has printed, and what it has and is about to print. -/
def received : Prog → List UInt8
  | .fifoReceive .ready m out => out ++ m.payload
  | .fifoReceive _ _ out => out
  | .fifoSend _ _ _ => []

/-- The receiver has been told that the stream is at its end. -/
def ended (prog : Prog) (p : Process) : Bool :=
  match prog.pc, p with
  | .close ok, _ | .closing ok, _ | .exited ok, _ => ok
  | .calling, .inside _ (.unlock .eof) => true
  | _, _ => false

section Step

variable {vector : Nat → UInt8} {sh : Shared (Data (Cbuffer UInt8)) Role} {prog prog' : Prog}
  {p p' : Process} {d : Data (Cbuffer UInt8)} {es : List Event}

theorem not_committed_of_parked (f : Frame) {st : Stage Role Exit}
    (hst : st.parked = true ∨ st = .relock ∨ st = .unlock .eintr) :
    committed (.inside f st) = false := by
  rcases hst with hst | rfl | rfl
  · cases st with
    | wait | sleep | abort => cases f <;> rfl
    | lock | signal | relock | unlock => cases hst
  · cases f <;> rfl
  · cases f <;> rfl

theorem committed_of_quiet {m : FMode} {len : Nat} {kbuffer : Nat → UInt8} {st : Stage Role Exit}
    {pt : Point} (hpt : st.point = some pt) {d : Data (Cbuffer UInt8)} {nr : Role → Int}
    (hquiet : ∀ xs,
      Event.insert xs ∉ (fifoprocWrite (parteB vector) m len kbuffer pt d nr).effects) :
    committed (fifoprocWrite (parteB vector) m len kbuffer pt d nr).proc =
      committed (.inside (.write m len kbuffer) st) := by
  rcases eq_or_ne pt .signalled with rfl | hne
  · cases st with
    | signal => rfl
    | lock | wait | sleep | relock | abort | unlock => cases hpt
  · have hbefore : committed (.inside (.write m len kbuffer) st) = false := by
      cases st with
      | lock | wait | sleep | relock | abort => rfl
      | unlock => cases hpt
      | signal =>
        cases hpt
        exact absurd rfl hne
    rw [hbefore]
    rcases fifoprocWrite_cases (D := parteB vector) m len kbuffer hne d nr with
      ⟨-, -, heq⟩ | ⟨-, heq⟩ | ⟨-, -, heq⟩
    · rw [heq]
      rfl
    · rw [heq]
      rfl
    · rw [heq] at hquiet
      exact absurd List.mem_cons_self (hquiet _)

/-- A step that puts nothing into the FIFO leaves as much to be sent, unless it goes wrong. -/
theorem unsent_of_moves (h : prog.Moves vector sh p d prog' p' es) (hc : Coupled prog p)
    (hquiet : ∀ xs, Event.insert xs ∉ es) (hok : prog'.failing = false) :
    unsent prog' p' = unsent prog p ∧ prog.failing = false := by
  cases h with
  | user hlocal =>
    cases hlocal with
    | eof | print => exact ⟨rfl, rfl⟩
    | @chunk m inp k hpos hmax hk =>
      refine ⟨?_, rfl⟩
      rw [unsent, payload_chunk hk]
      exact List.take_append_drop k inp
    | sendGivesUp | sendFails | recvGivesUp | recvFails => cases hok
  | call hcalls hsyscall =>
    cases hcalls with
    | sendOpen | sendClose | recvOpen | recvRead | recvClose => exact ⟨rfl, hok⟩
    | sendWrite =>
      rcases enter_cases hsyscall with ⟨m, -, hcall, -⟩ | ⟨m, -, hcall, -⟩ | ⟨m, len, -, hcall, -⟩ |
        ⟨m, buff, -, -, -, -, -, -, rfl⟩
      · cases hcall
      · cases hcall
      · cases hcall
      · exact ⟨rfl, rfl⟩
  | @idle f st st' hst hst' =>
    refine ⟨?_, hok⟩
    cases hc with
    | sendCalling =>
      rw [unsent, unsent, not_committed_of_parked _ hst', not_committed_of_parked _ (.inl hst)]
    | sendOpening | sendClosing | recvOpening | recvCalling | recvClosing => rfl
  | code hpt =>
    refine ⟨?_, hok⟩
    cases hc with
    | sendCalling =>
      rw [unsent, unsent]
      exact congrArg (fun c => if c = true then _ else _) (committed_of_quiet hpt hquiet)
    | sendOpening | sendClosing | recvOpening | recvCalling | recvClosing => rfl
  | @leave f st x hst =>
    cases hc with
    | sendOpening | recvOpening =>
      cases x with
      | eintr => cases hok
      | ok | eof | epipe => exact ⟨rfl, rfl⟩
    | sendCalling hm hread hne =>
      cases x with
      | eintr | epipe => cases hok
      | ok =>
        obtain rfl := hst.resolve_right (by decide)
        exact ⟨rfl, rfl⟩
      | eof => exact absurd (hst.resolve_right (by decide)) hne
    | recvCalling =>
      cases x with
      | eintr => cases hok
      | ok | eof | epipe => exact ⟨rfl, rfl⟩
    | sendClosing | recvClosing => cases x <;> exact ⟨rfl, hok⟩

/-- A step that brings no record leaves what the receiver has got, unless it goes wrong. -/
theorem received_of_moves (h : prog.Moves vector sh p d prog' p' es) (hc : Coupled prog p)
    (hquiet : ∀ n out, Event.ret .read (.done n) out ∉ es) (hok : prog'.failing = false) :
    received prog' = received prog ∧ prog.failing = false := by
  cases h with
  | user hlocal =>
    cases hlocal with
    | eof | chunk | print => exact ⟨rfl, rfl⟩
    | sendGivesUp | sendFails | recvGivesUp | recvFails => cases hok
  | call hcalls => cases hcalls <;> exact ⟨rfl, hok⟩
  | idle | code => exact ⟨rfl, hok⟩
  | @leave f st x =>
    cases hc with
    | sendOpening | recvOpening =>
      cases x with
      | eintr => cases hok
      | ok | eof | epipe => exact ⟨rfl, rfl⟩
    | sendCalling =>
      cases x with
      | eintr | epipe => cases hok
      | ok | eof => exact ⟨rfl, rfl⟩
    | recvCalling =>
      cases x with
      | eintr => cases hok
      | ok | eof | epipe => exact absurd List.mem_cons_self (hquiet _ _)
    | sendClosing | recvClosing => cases x <;> exact ⟨rfl, hok⟩

/-- The receiver comes to the end of the stream in the step that finds no producers and
an empty buffer. -/
theorem ended_of_moves (h : prog.Moves vector sh p d prog' p' es) (hc : Coupled prog p)
    (hrecv : prog.sends = false) (hended : ended prog' p' = true) :
    ended prog p = true ∧ received prog' = received prog ∨
      prog.pc = .calling ∧ prog' = prog ∧ es = [] ∧ 0 < sh.mtx ∧ sh.data.count .prod = 0 ∧
        (parteB vector).isEmpty sh.data.cbuffer = true := by
  cases h with
  | user hlocal =>
    cases hlocal with
    | eof | chunk | sendGivesUp | sendFails => cases hrecv
    | print | recvGivesUp | recvFails => cases hended
  | call hcalls =>
    cases hcalls with
    | sendOpen | sendWrite | sendClose => cases hrecv
    | recvOpen | recvRead => cases hended
    | recvClose => exact .inl ⟨hended, rfl⟩
  | @idle f st st' hst hst' =>
    cases hc with
    | sendOpening | sendCalling | sendClosing => cases hrecv
    | recvOpening => cases hended
    | recvCalling =>
      rcases hst' with hst' | rfl | rfl
      · cases st' with
        | wait | sleep | abort => cases hended
        | lock | signal | relock | unlock => cases hst'
      · cases hended
      · cases hended
    | recvClosing => exact .inl ⟨hended, rfl⟩
  | @code f st pt nr hpt hm =>
    cases hc with
    | sendOpening | sendCalling | sendClosing => cases hrecv
    | recvOpening => cases hended
    | @recvCalling m out kbuffer =>
      right
      rcases eq_or_ne pt .signalled with rfl | hne
      · cases hended
      · rw [Fifoproc.body] at hended ⊢
        rcases fifoprocRead_cases (D := parteB vector) .rdonly FifoMessage.size kbuffer hne
          sh.data nr with ⟨-, -, heq⟩ | ⟨-, hprod, hempty, heq⟩ | ⟨-, -, heq⟩
        · rw [heq] at hended
          cases hended
        · rw [heq]
          exact ⟨rfl, rfl, rfl, hm hne, hprod, hempty⟩
        · rw [heq, Segment.proc] at hended
          dsimp only at hended
          split at hended <;> cases hended
    | recvClosing => exact .inl ⟨hended, rfl⟩
  | @leave f st x hst =>
    left
    cases hc with
    | sendOpening | sendCalling | sendClosing => cases hrecv
    | recvOpening => cases x <;> cases hended
    | recvCalling =>
      cases x with
      | eintr | ok | epipe => cases hended
      | eof =>
        obtain rfl := hst.resolve_right (by decide)
        exact ⟨rfl, rfl⟩
    | recvClosing => cases x <;> exact ⟨hended, rfl⟩

theorem unsent_of_succeeds (hc : Coupled prog p) (hs : prog.succeeds = true) :
    unsent prog p = [] := by
  cases hc with
  | sendStart | sendOpening | sendIdle | sendReady | sendCalling => cases hs
  | sendClose hinp | sendClosing hinp | sendExited hinp => exact hinp hs
  | recvStart | recvOpening | recvIdle | recvReady | recvCalling | recvClose | recvClosing
  | recvExited => rfl

theorem not_failing_of_succeeds (hs : prog.succeeds = true) : prog.failing = false := by
  unfold Prog.succeeds at hs
  unfold Prog.failing
  split at hs <;> simp_all

end Step

end LinuxInternals.Fifotest
