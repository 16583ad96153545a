import LinuxInternals.Fifotest.Basic
import LinuxInternals.Fifoproc.Writes

/-!
# Steps of the programs

A program and its process in the module move together. Every transfer has the size of a
record and at most one record fits into the buffer, so it holds one or none and no read
is ever short.
-/

namespace LinuxInternals.Fifotest

open CData SemMonitor Client Fifoproc

variable {ι : Type}

/-- The states of a program and of its process in the module that go together. -/
inductive Coupled : Prog → Process → Prop where
  | sendStart {m inp} : Coupled (.fifoSend .start m inp) (.user .closed)
  | sendOpening {m inp st} : Coupled (.fifoSend .opening m inp) (.inside (.open .wronly) st)
  | sendIdle {m inp} : Coupled (.fifoSend .idle m inp) (.user (.opened .wronly))
  | sendReady {m inp} : m.Proper → Coupled (.fifoSend .ready m inp) (.user (.opened .wronly))
  | sendCalling {m inp kbuffer st} : m.Proper → read kbuffer FifoMessage.size = m.bytes →
      st ≠ .unlock .eof →
      Coupled (.fifoSend .calling m inp) (.inside (.write .wronly FifoMessage.size kbuffer) st)
  | sendClose {m inp ok} : (ok = true → inp = []) →
      Coupled (.fifoSend (.close ok) m inp) (.user (.opened .wronly))
  | sendClosing {m inp ok st} : (ok = true → inp = []) →
      Coupled (.fifoSend (.closing ok) m inp) (.inside (.release .wronly) st)
  | sendExited {m inp ok} : (ok = true → inp = []) →
      Coupled (.fifoSend (.exited ok) m inp) (.user .closed)
  | recvStart {m out} : Coupled (.fifoReceive .start m out) (.user .closed)
  | recvOpening {m out st} : Coupled (.fifoReceive .opening m out) (.inside (.open .rdonly) st)
  | recvIdle {m out} : Coupled (.fifoReceive .idle m out) (.user (.opened .rdonly))
  | recvReady {m out} : Coupled (.fifoReceive .ready m out) (.user (.opened .rdonly))
  | recvCalling {m out kbuffer st} :
      Coupled (.fifoReceive .calling m out) (.inside (.read .rdonly FifoMessage.size kbuffer) st)
  | recvClose {m out ok} : Coupled (.fifoReceive (.close ok) m out) (.user (.opened .rdonly))
  | recvClosing {m out ok st} :
      Coupled (.fifoReceive (.closing ok) m out) (.inside (.release .rdonly) st)
  | recvExited {m out ok} : Coupled (.fifoReceive (.exited ok) m out) (.user .closed)

theorem length_bytes (m : FifoMessage) : m.bytes.length = FifoMessage.size := by
  simp [FifoMessage.bytes, FifoMessage.size]

theorem read_copyFromUser (buff : List UInt8) : read (copyFromUser buff) buff.length = buff := by
  apply List.ext_getElem (length_read _ _)
  intro i hi hi'
  rw [getElem_read, copyFromUser, Function.update_of_ne hi'.ne, memcpy,
    if_pos ⟨Nat.zero_le _, by omega⟩]
  simpa using List.getD_eq_getElem buff 0 hi'

theorem returned_of_no_ret {es : List Event} (hes : ∀ e ∈ es, ∀ op v out, e ≠ .ret op v out)
    (p : Prog) : es.foldl Prog.returned p = p := by
  induction es generalizing p with
  | nil => rfl
  | cons e es ih =>
    obtain ⟨he, hes⟩ := List.forall_mem_cons.mp hes
    have hp : p.returned e = p := by
      cases e with
      | ret op v out => exact absurd rfl (he op v out)
      | count | insert | remove | clear =>
        cases p with
        | fifoSend pc => cases pc <;> rfl
        | fifoReceive pc => cases pc <;> rfl
    rw [List.foldl_cons, hp]
    exact ih hes p

theorem no_ret_body {β : Type} {D : Device β} (f : Frame) (pt : Point) (d : Data β)
    (nr : Role → Int) :
    ∀ e ∈ (body D f pt d nr).effects, ∀ op v out, e ≠ .ret op v out := by
  rintro e he op v out rfl
  rcases body_effects (D := D) f pt d nr with hother | ⟨m, len, kbuffer, -, -, -, -, heffects, -⟩
  · cases hother _ he
  · rw [heffects] at he
    cases List.mem_singleton.mp he

inductive Prog.Local : Prog → Prog → Prop where
  | eof {m} : Local (.fifoSend .idle m []) (.fifoSend (.close true) m [])
  | chunk {m inp k} : 1 ≤ k → k ≤ 32 → k ≤ inp.length →
      Local (.fifoSend .idle m inp) (.fifoSend .ready
        { nrBytes := k, data := memcpy m.data 0 (fun i => inp.getD i 0) 0 k } (inp.drop k))
  | print {m out} : Local (.fifoReceive .ready m out) (.fifoReceive .idle m (out ++ m.payload))
  | sendGivesUp {m inp} : Local (.fifoSend .start m inp) (.fifoSend (.exited false) m inp)
  | sendFails {pc m inp} : pc = .idle ∨ pc = .ready →
      Local (.fifoSend pc m inp) (.fifoSend (.close false) m inp)
  | recvGivesUp {m out} : Local (.fifoReceive .start m out) (.fifoReceive (.exited false) m out)
  | recvFails {pc m out} : pc = .idle ∨ pc = .ready →
      Local (.fifoReceive pc m out) (.fifoReceive (.close false) m out)

theorem local_of_readStdin {p p' : Prog} {k : Nat} (h : p.readStdin k = some p') : p.Local p' := by
  cases p with
  | fifoReceive => cases h
  | fifoSend pc m inp =>
    cases pc with
    | idle =>
      simp only [Prog.readStdin] at h
      split at h
      · obtain ⟨rfl, rfl⟩ := ‹k = 0 ∧ inp = []›
        cases h
        exact .eof
      · rw [Option.ite_none_right_eq_some] at h
        obtain ⟨⟨hpos, hmax, hinp⟩, h⟩ := h
        cases h
        exact .chunk hpos hmax hinp
    | start | opening | ready | calling | close | closing | exited => cases h

theorem local_of_writeStdout {p p' : Prog} (h : p.writeStdout = some p') : p.Local p' := by
  cases p with
  | fifoSend => cases h
  | fifoReceive pc m out =>
    cases pc with
    | ready =>
      cases h
      exact .print
    | start | opening | idle | calling | close | closing | exited => cases h

theorem local_of_fail {p p' : Prog} (h : p.fail = some p') : p.Local p' := by
  cases p with
  | fifoSend pc m inp =>
    cases pc with
    | start => cases h; exact .sendGivesUp
    | idle => cases h; exact .sendFails (.inl rfl)
    | ready => cases h; exact .sendFails (.inr rfl)
    | opening | calling | close | closing | exited => cases h
  | fifoReceive pc m out =>
    cases pc with
    | start => cases h; exact .recvGivesUp
    | idle => cases h; exact .recvFails (.inl rfl)
    | ready => cases h; exact .recvFails (.inr rfl)
    | opening | calling | close | closing | exited => cases h

inductive Prog.Calls : Prog → Call → Prog → Prop where
  | sendOpen {m inp} :
      Calls (.fifoSend .start m inp) (.open .wronly) (.fifoSend .opening m inp)
  | sendWrite {m inp} :
      Calls (.fifoSend .ready m inp) (.write m.bytes) (.fifoSend .calling m inp)
  | sendClose {ok m inp} :
      Calls (.fifoSend (.close ok) m inp) .release (.fifoSend (.closing ok) m inp)
  | recvOpen {m out} :
      Calls (.fifoReceive .start m out) (.open .rdonly) (.fifoReceive .opening m out)
  | recvRead {m out} :
      Calls (.fifoReceive .idle m out) (.read FifoMessage.size) (.fifoReceive .calling m out)
  | recvClose {ok m out} :
      Calls (.fifoReceive (.close ok) m out) .release (.fifoReceive (.closing ok) m out)

theorem calls_of_call {p p' : Prog} {c : Call} (h : p.call c = some p') : p.Calls c p' := by
  unfold Prog.call at h
  split at h
  · rw [Option.ite_none_right_eq_some] at h
    obtain ⟨rfl, h⟩ := h
    cases h
    exact .sendOpen
  · rw [Option.ite_none_right_eq_some] at h
    obtain ⟨rfl, h⟩ := h
    cases h
    exact .sendWrite
  · cases h
    exact .sendClose
  · rw [Option.ite_none_right_eq_some] at h
    obtain ⟨rfl, h⟩ := h
    cases h
    exact .recvOpen
  · rw [Option.ite_none_right_eq_some] at h
    obtain ⟨rfl, h⟩ := h
    cases h
    exact .recvRead
  · cases h
    exact .recvClose
  · cases h

theorem world_step_cases [DecidableEq ι] {vector : Nat → UInt8} {stack : ι → FifoMessage}
    {roles : ι → Option (List UInt8)} {w w' : World ι} {i : ι} {mv : Move}
    {tr : List (ι × Event)} (h : (world vector stack roles).step w (i, mv) = some (w', tr)) :
    (w'.sys = w.sys ∧ tr = [] ∧ ∃ p, (w.prog i).Local p ∧
      w'.prog = Function.update w.prog i p) ∨
    ∃ a p, mv = .sys a ∧ (w.prog i).issue a = some p ∧
      (machine (parteB vector) ι).step w.sys (i, a) = some (w'.sys, tr) ∧
      w'.prog = Function.update w.prog i ((tr.map Prod.snd).foldl Prog.returned p) := by
  cases mv with
  | sys a =>
    simp only [world] at h
    split at h
    · cases h
      exact .inr ⟨a, _, rfl, ‹_›, ‹_›, rfl⟩
    · cases h
  | stdin k =>
    obtain ⟨p, hp, heq⟩ := Option.map_eq_some_iff.mp h
    cases heq
    exact .inl ⟨rfl, rfl, p, local_of_readStdin hp, rfl⟩
  | stdout =>
    obtain ⟨p, hp, heq⟩ := Option.map_eq_some_iff.mp h
    cases heq
    exact .inl ⟨rfl, rfl, p, local_of_writeStdout hp, rfl⟩
  | fail =>
    obtain ⟨p, hp, heq⟩ := Option.map_eq_some_iff.mp h
    cases heq
    exact .inl ⟨rfl, rfl, p, local_of_fail hp, rfl⟩

inductive Prog.Moves (vector : Nat → UInt8) (sh : Shared (Data (Cbuffer UInt8)) Role) :
    Prog → Process → Data (Cbuffer UInt8) → Prog → Process → List Event → Prop where
  | user {prog p prog'} : prog.Local prog' → Moves vector sh prog p sh.data prog' p []
  | call {prog x c prog' f} : prog.Calls c prog' →
      syscall (parteB vector) x c true = some (.enter f) →
      Moves vector sh prog (.user x) sh.data prog' (.inside f .lock) []
  | idle {prog f st st'} : st.parked = true →
      (st'.parked = true ∨ st' = .relock ∨ st' = .unlock .eintr) →
      Moves vector sh prog (.inside f st) sh.data prog (.inside f st') []
  | code {prog f st pt nr} : st.point = some pt → (pt ≠ .signalled → 0 < sh.mtx) →
      Moves vector sh prog (.inside f st) (body (parteB vector) f pt sh.data nr).data prog
        (body (parteB vector) f pt sh.data nr).proc (body (parteB vector) f pt sh.data nr).effects
  | leave {prog f st x} : st = .unlock x ∨ x = .eintr →
      Moves vector sh prog (.inside f st) sh.data ((leave f x true).2.foldl Prog.returned prog)
        (.user (leave f x true).1) (leave f x true).2

/-- No call of a program is turned away: a record fits into the buffer. -/
theorem not_refused {vector : Nat → UInt8} {prog prog' : Prog} {x y : File} {c : Call}
    {es : List Event} (hcalls : prog.Calls c prog') :
    syscall (parteB vector) x c true ≠ some (.done y es) := by
  intro h
  obtain ⟨-, ⟨len, rfl, hlen, -⟩ | ⟨buff, e, rfl, hlen, -⟩⟩ := done_cases h
  · cases hcalls
    simp [parteB, FifoMessage.size] at hlen
  · cases hcalls
    simp [parteB, length_bytes, FifoMessage.size] at hlen

theorem moves_of_issue {vector : Nat → UInt8} {sh sh' : Shared (Data (Cbuffer UInt8)) Role}
    {p p' : Process} {a : Act Call} {es : List Event}
    (h : (client (parteB vector)).Moves sh p a sh' p' es) {prog prog' : Prog}
    (hissue : prog.issue a = some prog') (hcopied : copied a = true) :
    prog.Moves vector sh p sh'.data (es.foldl Prog.returned prog') p' es := by
  cases p with
  | user x =>
    cases h with
    | enter hcall =>
      obtain rfl : _ = true := hcopied
      exact .call (calls_of_call hissue) hcall
    | refuse hcall =>
      obtain rfl : _ = true := hcopied
      exact absurd hcall (not_refused (calls_of_call hissue))
  | inside f st =>
    have heq : prog' = prog := by
      cases h <;> exact (Option.some.inj hissue).symm
    subst heq
    rcases h.inside_cases with ⟨st', hst, hst', rfl, hdata, rfl⟩ |
      ⟨pt, nr, hpt, hm, rfl, hdata, rfl⟩ | ⟨x, b, hst, rfl, hdata, rfl⟩
    · rw [hdata]
      exact .idle hst hst'
    · rw [hdata]
      change Prog.Moves _ _ _ _ _ (((body (parteB vector) f pt sh.data nr).effects).foldl _ _) _ _
      rw [returned_of_no_ret (no_ret_body f pt sh.data nr)]
      exact .code hpt hm
    · have hb : b = true := by
        rcases hst with ⟨-, rfl⟩ | ⟨-, hb⟩
        · exact hcopied
        · exact hb
      subst hb
      rw [hdata]
      exact .leave (hst.imp And.left And.left)

section Step

variable {vector : Nat → UInt8} {sh : Shared (Data (Cbuffer UInt8)) Role} {prog prog' : Prog}
  {p p' : Process} {d : Data (Cbuffer UInt8)} {es : List Event}

theorem coupled_of_local (h : prog.Local prog') (hc : Coupled prog p) : Coupled prog' p := by
  cases h with
  | eof =>
    cases hc
    exact .sendClose fun _ => rfl
  | chunk hpos hmax =>
    cases hc
    exact .sendReady ⟨hpos, hmax⟩
  | print =>
    cases hc
    exact .recvIdle
  | sendGivesUp =>
    cases hc
    exact .sendExited nofun
  | sendFails hpc =>
    rcases hpc with rfl | rfl
    · cases hc
      exact .sendClose nofun
    · cases hc
      exact .sendClose nofun
  | recvGivesUp =>
    cases hc
    exact .recvExited
  | recvFails hpc =>
    rcases hpc with rfl | rfl
    · cases hc
      exact .recvClose
    · cases hc
      exact .recvClose

theorem coupled_of_calls {x : File} {c : Call} {f : Frame} (hcalls : prog.Calls c prog')
    (hsyscall : syscall (parteB vector) x c true = some (.enter f)) (hc : Coupled prog (.user x)) :
    Coupled prog' (.inside f .lock) := by
  cases hcalls with
  | sendOpen =>
    cases hc
    cases hsyscall
    exact .sendOpening
  | recvOpen =>
    cases hc
    cases hsyscall
    exact .recvOpening
  | sendClose =>
    cases hc with
    | sendClose hinp =>
      cases hsyscall
      exact .sendClosing hinp
  | recvClose =>
    cases hc
    cases hsyscall
    exact .recvClosing
  | recvRead =>
    cases hc
    cases hsyscall
    exact .recvCalling
  | @sendWrite m inp =>
    cases hc with
    | sendReady hm =>
      obtain ⟨_, hx, hcall, -⟩ | ⟨_, hx, hcall, -⟩ | ⟨_, _, hx, hcall, -⟩ |
        ⟨m', buff, hx, hcall, -, -, -, -, rfl⟩ := enter_cases hsyscall
      · cases hcall
      · cases hcall
      · cases hcall
      · cases hx
        cases hcall
        have hread := read_copyFromUser m.bytes
        rw [length_bytes] at hread ⊢
        exact .sendCalling hm hread nofun

theorem Coupled.reenter {f f' : Frame} {st st' : Stage Role Exit} (hc : Coupled prog (.inside f st))
    (hf : f' = f ∨ ∃ m len kbuffer kbuffer', f = .read m len kbuffer ∧ f' = .read m len kbuffer')
    (hst : f.op = .write → st' ≠ .unlock .eof) : Coupled prog (.inside f' st') := by
  rcases hf with rfl | ⟨m, len, kbuffer, kbuffer', rfl, rfl⟩
  · cases hc with
    | sendOpening => exact .sendOpening
    | sendCalling hm hread => exact .sendCalling hm hread (hst rfl)
    | sendClosing hinp => exact .sendClosing hinp
    | recvOpening => exact .recvOpening
    | recvCalling => exact .recvCalling
    | recvClosing => exact .recvClosing
  · cases hc
    exact .recvCalling

theorem coupled_of_leave {f : Frame} {st : Stage Role Exit} (hc : Coupled prog (.inside f st))
    (x : Exit) :
    Coupled ((leave f x true).2.foldl Prog.returned prog) (.user (leave f x true).1) := by
  cases hc with
  | sendOpening =>
    cases x with
    | eintr => exact .sendExited nofun
    | ok | eof | epipe => exact .sendIdle
  | sendCalling =>
    cases x with
    | eintr | epipe => exact .sendClose nofun
    | ok | eof => exact .sendIdle
  | sendClosing hinp => cases x <;> exact .sendExited hinp
  | recvOpening =>
    cases x with
    | eintr => exact .recvExited
    | ok | eof | epipe => exact .recvIdle
  | recvCalling =>
    cases x with
    | eintr | eof => exact .recvClose
    | ok | epipe => exact .recvReady
  | recvClosing => cases x <;> exact .recvExited

theorem coupled_of_moves (h : prog.Moves vector sh p d prog' p' es) (hc : Coupled prog p) :
    Coupled prog' p' := by
  cases h with
  | user hlocal => exact coupled_of_local hlocal hc
  | call hcalls hsyscall => exact coupled_of_calls hcalls hsyscall hc
  | idle hst hst' =>
    apply hc.reenter (.inl rfl)
    intro _
    rintro rfl
    simp [Stage.parked] at hst'
  | code =>
    apply hc.reenter (body_frame_eq _ _ _ _)
    intro hop
    cases hc with
    | sendCalling => exact write_stage_ne_eof _ _ _ _ _ _
    | sendOpening | sendClosing | recvOpening | recvCalling | recvClosing => cases hop
  | leave => exact coupled_of_leave hc _

/-- The buffer holds one record or none. -/
def Aligned (c : Cbuffer UInt8) : Prop :=
  c.contents.length = 0 ∨ c.contents.length = FifoMessage.size

theorem aligned_of_moves (h : prog.Moves vector sh p d prog' p' es) (hc : Coupled prog p)
    (hvalid : (parteBLawful vector).valid sh.data.cbuffer) (hnonneg : ∀ r, 0 ≤ sh.data.count r)
    (haligned : Aligned sh.data.cbuffer) : Aligned d.cbuffer := by
  cases h with
  | user | call | idle | leave => exact haligned
  | @code f st pt nr hpt hm =>
    have hsize := (parteBLawful vector).size_eq _ hvalid
    have hempty := (parteBLawful vector).isEmpty_iff _ hvalid
    have hgaps := (parteBLawful vector).gaps_eq _ hvalid
    have hprod := hnonneg .prod
    have hcons := hnonneg .cons
    change _ = sh.data.cbuffer.contents.length at hsize
    change _ ↔ sh.data.cbuffer.contents = [] at hempty
    change _ = 50 - sh.data.cbuffer.contents.length at hgaps
    rw [← List.length_eq_zero_iff] at hempty
    rcases body_cbuffer (D := parteB vector) f pt sh.data nr with
      heq | heq | ⟨m, len, kbuffer, rfl, hwait, heof, heq⟩ | ⟨m, len, kbuffer, rfl, hwait, hne, heq⟩
    · rw [heq]
      exact haligned
    · rw [heq]
      exact .inl (congrArg List.length ((parteBLawful vector).clear_contents _ hvalid))
    · cases hc
      have hfull : sh.data.cbuffer.contents.length = FifoMessage.size := by
        apply haligned.resolve_left
        intro hzero
        rw [hsize, hzero] at hwait
        rw [hempty, hzero] at heof
        simp only [FifoMessage.size] at hwait
        omega
      have hcontents := (parteBLawful vector).remove_contents _ kbuffer _ hvalid
        (show FifoMessage.size ≤ 50 by decide) hfull.ge
      left
      rw [heq]
      change ((parteBLawful vector).contents _).length = 0
      rw [hcontents, List.length_drop]
      exact Nat.sub_eq_zero_of_le hfull.le
    · cases hc
      have hnone : sh.data.cbuffer.contents.length = 0 := by
        refine haligned.resolve_right fun hfull => hwait ?_
        rw [hgaps, hfull]
        exact ⟨by decide, by omega⟩
      have hcontents := (parteBLawful vector).insert_contents _ kbuffer _ hvalid
        (show FifoMessage.size ≤ 50 by decide) (by
          change sh.data.cbuffer.contents.length + _ ≤ 50
          rw [hnone]
          decide)
      right
      rw [heq]
      change ((parteBLawful vector).contents _).length = FifoMessage.size
      rw [hcontents, List.length_append, length_read]
      change sh.data.cbuffer.contents.length + _ = _
      rw [hnone, Nat.zero_add]

/-- What goes into the buffer is the record that its sender is about to write. -/
theorem insert_of_moves (h : prog.Moves vector sh p d prog' p' es) (hc : Coupled prog p)
    {xs : List UInt8} (hxs : Event.insert xs ∈ es) :
    ∃ m inp, prog = .fifoSend .calling m inp ∧ prog' = prog ∧ m.Proper ∧ xs = m.bytes ∧
      es = [.insert m.bytes] ∧ committed p = false ∧ committed p' = true := by
  cases h with
  | user | call | idle => cases hxs
  | @code f st pt nr hpt hm =>
    rcases body_effects (D := parteB vector) f pt sh.data nr with
      hother | ⟨m, len, kbuffer, rfl, hpt', -, -, heffects, -, hcommitted⟩
    · cases hother _ hxs
    · cases hc with
      | sendCalling hm hread =>
        rw [hread] at heffects
        rw [heffects] at hxs ⊢
        obtain heq := List.mem_singleton.mp hxs
        cases heq
        refine ⟨_, _, rfl, rfl, hm, rfl, rfl, ?_, hcommitted⟩
        cases st <;> simp_all [Stage.point, committed]
  | @leave f st x hst =>
    obtain ⟨v, out, heffects⟩ := leave_effects f x true
    rw [heffects] at hxs
    cases List.mem_singleton.mp hxs

theorem read_of_moves (h : prog.Moves vector sh p d prog' p' es) (hc : Coupled prog p)
    {n : Nat} {out : List UInt8} (hret : Event.ret .read (.done n) out ∈ es) :
    ∃ m o kbuffer x, prog = .fifoReceive .calling m o ∧
      p = .inside (.read .rdonly FifoMessage.size kbuffer) (.unlock x) ∧
      es = [.ret .read (.done n) out] ∧
      (n = 0 ∧ x = .eof ∧ prog' = .fifoReceive (.close true) m o ∨
        n = FifoMessage.size ∧ prog' = .fifoReceive .ready (.ofBytes out) o) := by
  cases h with
  | user | call | idle => cases hret
  | @code f st pt nr hpt hm => exact absurd rfl (no_ret_body _ _ _ _ _ hret _ _ _)
  | @leave f st x hst =>
    cases hc with
    | sendOpening | sendCalling | sendClosing | recvOpening | recvClosing =>
      cases x <;> cases List.mem_singleton.mp hret
    | recvCalling =>
      cases x with
      | eintr => cases List.mem_singleton.mp hret
      | eof =>
        obtain rfl := hst.resolve_right (by decide)
        cases List.mem_singleton.mp hret
        exact ⟨_, _, _, .eof, rfl, rfl, rfl, .inl ⟨rfl, rfl, rfl⟩⟩
      | ok | epipe =>
        obtain rfl := hst.resolve_right (by decide)
        cases List.mem_singleton.mp hret
        exact ⟨_, _, _, _, rfl, rfl, rfl, .inr ⟨rfl, rfl⟩⟩

end Step

end LinuxInternals.Fifotest
