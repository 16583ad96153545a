import LinuxInternals.Fifotest.Records

/-!
# The course of a program

How far a program has got towards the other end, and what one step does to that: it is
`fresh` until it has raised its counter, `past` once it has found somebody at the other end,
and `gone` once it has lowered its counter or ended.
-/

namespace LinuxInternals.Fifotest

open CData SemMonitor Client Fifoproc

namespace Prog

def pc : Prog → Pc
  | fifoSend pc _ _ | fifoReceive pc _ _ => pc

def role : Prog → Role
  | fifoSend _ _ _ => .prod
  | fifoReceive _ _ _ => .cons

/-- On the way to exit status 0, or there. -/
def succeeds (prog : Prog) : Bool :=
  match prog.pc with
  | .close ok | .closing ok | .exited ok => ok
  | _ => false

/-- On the way to another exit status, or there. -/
def failing (prog : Prog) : Bool :=
  match prog.pc with
  | .close ok | .closing ok | .exited ok => !ok
  | _ => false

end Prog

def fresh (prog : Prog) (p : Process) : Bool :=
  match prog.pc, p with
  | .start, _ | .opening, .inside _ .lock => true
  | _, _ => false

def past (prog : Prog) (p : Process) : Bool :=
  match prog.pc, p with
  | .start, _ => false
  | .opening, .inside _ (.unlock x) => x != .eintr
  | .opening, _ => false
  | .exited ok, _ => ok
  | _, _ => true

def gone (prog : Prog) (p : Process) : Bool :=
  match prog.pc, p with
  | .closing _, .inside _ .lock => false
  | .closing _, _ | .exited _, _ => true
  | _, _ => false

section Step

variable {vector : Nat → UInt8} {sh : Shared (Data (Cbuffer UInt8)) Role} {prog prog' : Prog}
  {p p' : Process} {d : Data (Cbuffer UInt8)} {es : List Event}

theorem role_of_sends (h : prog'.sends = prog.sends) : prog'.role = prog.role := by
  cases prog <;> cases prog' <;> first | rfl | cases h

theorem count_of_moves (h : prog.Moves vector sh p d prog' p' es) (hc : Coupled prog p) {r : Role}
    (hr : r ≠ prog.role) : d.count r = sh.data.count r := by
  cases h with
  | user | call | idle | leave => rfl
  | @code f st pt nr hpt hm =>
    have hmode : f.mode.role = prog.role := by
      cases hc <;> rfl
    rw [body_count]
    unfold added
    cases pt with
    | signalled | relocked => exact add_zero _
    | entered => cases f.op <;> simp [hmode, hr.symm]

theorem stage_ne_lock (n : Next Role Exit) : n.stage ≠ .lock := by
  cases n <;> simp [Next.stage]

theorem fresh_inside {f : Frame} {st : Stage Role Exit} (hc : Coupled prog (.inside f st))
    (hst : st ≠ .lock) : fresh prog (.inside f st) = false := by
  cases hc with
  | sendOpening | recvOpening => cases st <;> first | rfl | exact absurd rfl hst
  | sendCalling | sendClosing | recvCalling | recvClosing => rfl

theorem fresh_of_moves (h : prog.Moves vector sh p d prog' p' es) (hc : Coupled prog p)
    (hf : fresh prog' p' = true) : fresh prog p = true ∧ d.count = sh.data.count := by
  have hc' := coupled_of_moves h hc
  cases h with
  | user hlocal => cases hlocal <;> cases hf
  | call hcalls =>
    cases hcalls with
    | sendOpen | recvOpen => exact ⟨rfl, rfl⟩
    | sendWrite | sendClose | recvRead | recvClose => cases hf
  | idle hst hst' =>
    rw [fresh_inside hc' (by rintro rfl; simp [Stage.parked] at hst')] at hf
    cases hf
  | code =>
    rw [Segment.proc, fresh_inside hc' (stage_ne_lock _)] at hf
    cases hf
  | @leave f st x => cases hc <;> cases x <;> cases hf

theorem past_opening {f : Frame} {st : Stage Role Exit} (hpc : prog.pc = .opening)
    (hp : past prog (.inside f st) = true) : ∃ x, st = .unlock x ∧ x ≠ .eintr := by
  unfold past at hp
  rw [hpc] at hp
  cases st with
  | unlock x => exact ⟨x, rfl, by simpa using hp⟩
  | lock | signal | wait | sleep | relock | abort => cases hp

theorem past_of_moves (h : prog.Moves vector sh p d prog' p' es) (hc : Coupled prog p)
    (hp : past prog' p' = true) : past prog p = true ∨ d.count prog.role.other ≠ 0 := by
  cases h with
  | user hlocal =>
    cases hlocal with
    | eof | chunk | print => exact .inl rfl
    | sendFails hpc | recvFails hpc =>
      rcases hpc with rfl | rfl
      · exact .inl rfl
      · exact .inl rfl
    | sendGivesUp | recvGivesUp => cases hp
  | call hcalls =>
    cases hcalls with
    | sendOpen | recvOpen => cases hp
    | sendWrite | sendClose | recvRead | recvClose => exact .inl rfl
  | idle hst hst' =>
    cases hc with
    | sendOpening | recvOpening =>
      obtain ⟨x, rfl, hx⟩ := past_opening rfl hp
      simp [Stage.parked, hx] at hst'
    | sendCalling | sendClosing | recvCalling | recvClosing => exact .inl rfl
  | code =>
    cases hc with
    | sendOpening | recvOpening =>
      obtain ⟨x, hx, -⟩ := past_opening rfl hp
      exact .inr (open_unlock hx)
    | sendCalling | sendClosing | recvCalling | recvClosing => exact .inl rfl
  | @leave f st x hst =>
    left
    cases hc with
    | sendOpening | recvOpening =>
      have hx : x ≠ .eintr := by
        rintro rfl
        cases hp
      obtain rfl := hst.resolve_right hx
      simpa [past, Prog.pc] using hx
    | sendCalling | sendClosing | recvCalling | recvClosing => rfl

theorem gone_inside {f : Frame} {st : Stage Role Exit} {ok : Bool} (hpc : prog.pc = .closing ok)
    (hst : st ≠ .lock) : gone prog (.inside f st) = true := by
  unfold gone
  rw [hpc]
  cases st <;> first | rfl | exact absurd rfl hst

theorem gone_of_moves (h : prog.Moves vector sh p d prog' p' es) (hc : Coupled prog p)
    (hg : gone prog p = true) : gone prog' p' = true ∧ prog'.succeeds = prog.succeeds := by
  cases h with
  | user hlocal =>
    cases hlocal with
    | eof | chunk | print | sendGivesUp | recvGivesUp => cases hg
    | sendFails hpc | recvFails hpc => rcases hpc with rfl | rfl <;> cases hg
  | call hcalls => cases hcalls <;> cases hg
  | idle hst hst' =>
    cases hc with
    | sendOpening | sendCalling | recvOpening | recvCalling => cases hg
    | sendClosing | recvClosing =>
      exact ⟨gone_inside rfl (by rintro rfl; simp [Stage.parked] at hst'), rfl⟩
  | code =>
    cases hc with
    | sendOpening | sendCalling | recvOpening | recvCalling => cases hg
    | sendClosing | recvClosing => exact ⟨gone_inside rfl (stage_ne_lock _), rfl⟩
  | @leave f st x =>
    cases hc with
    | sendOpening | sendCalling | recvOpening | recvCalling => cases hg
    | sendClosing | recvClosing => cases x <;> exact ⟨rfl, rfl⟩

/-- Only the release of a program that has raised its counter takes it out of the count. -/
theorem gone_of_uncounted (hc : Coupled prog p) (hfresh : fresh prog p = false)
    (hcounted : counted prog.role p = false) : gone prog p = true := by
  cases hc with
  | sendStart | recvStart => cases hfresh
  | @sendOpening m inp st | @recvOpening m out st =>
    rcases eq_or_ne st .lock with rfl | hst
    · cases hfresh
    · rw [counted_inside _ hst] at hcounted
      cases hcounted
  | sendIdle | sendReady | sendCalling | sendClose | recvIdle | recvReady | recvCalling
  | recvClose => cases hcounted
  | @sendClosing m inp ok st | @recvClosing m out ok st =>
    rcases eq_or_ne st .lock with rfl | hst
    · cases hcounted
    · exact gone_inside rfl hst
  | sendExited | recvExited => rfl

theorem clear_of_moves (h : prog.Moves vector sh p d prog' p' es) (hc : Coupled prog p)
    (hclear : Event.clear ∈ es) :
    past prog p = true ∧ gone prog' p' = true ∧ ∀ r, d.count r = 0 := by
  cases h with
  | user | call | idle => cases hclear
  | @leave f st x =>
    obtain ⟨v, out, heffects⟩ := leave_effects f x true
    rw [heffects] at hclear
    cases List.mem_singleton.mp hclear
  | code =>
    obtain ⟨⟨m, rfl⟩, hzero⟩ := clear_cases hclear
    cases hc with
    | sendClosing | recvClosing => exact ⟨rfl, gone_inside rfl (stage_ne_lock _), hzero⟩

end Step

end LinuxInternals.Fifotest
