import LinuxInternals.Modlist.Linear
import LinuxInternals.Multilist.Removal

/-!
# What a write does

A process writes to `control` or to an entry, and nobody else takes a step. What the write does
is what the text in `modlistbuffer` spells, and nothing has been stored there: the bytes that the
user wrote are in `aux_buffer`. So a write does as it is told only where it is refused before it
parses anything.
-/

namespace LinuxInternals.Multilist

open Text Relation
open Modlist (Command)

variable {ι : Type} [DecidableEq ι] [Fintype ι] {s s' u : State ι} {i : ι} {a : Addr}

section Returns

def Runs (i : ι) (s s' : State ι) : Prop := ∃ es, step s i .run = some (s', es)

/-- Process `i` makes the call and comes to its return while nobody else takes a step. -/
def Returns (s : State ι) (i : ι) (c : Call) (s' : State ι) (r : Reply) : Prop :=
  ∃ u es h, step s i (.call c) = some (u, es) ∧ ReflTransGen (Runs i) u s' ∧ s'.pc i = .ret h r

theorem runs_rightUnique (i : ι) : Relator.RightUnique (Runs (ι := ι) i) := by
  rintro s u v ⟨es, hu⟩ ⟨es', hv⟩
  rw [hu] at hv
  cases hv
  rfl

theorem eq_or_user_of_ret {h : Handler} {r : Reply} (hpc : s.pc i = .ret h r)
    (hruns : ReflTransGen (Runs i) s s') : s' = s ∨ s'.pc i = .user := by
  rcases hruns.cases_head with heq | ⟨u, ⟨es, hu⟩, hruns⟩
  · exact .inl heq.symm
  · have huser : u.pc i = .user := by
      simp only [step, hpc, Option.some.injEq, Prod.mk.injEq] at hu
      rw [← hu.1]
      exact Function.update_self ..
    rcases hruns.cases_head with rfl | ⟨v, ⟨es', hv⟩, -⟩
    · exact .inr huser
    · simp [step, huser] at hv

/-- What the call comes to on the way, it comes to before its return. -/
theorem Returns.reaches {c : Call} {r : Reply} {v : State ι} {es : List Event}
    (h : Returns s i c s' r) (hstep : step s i (.call c) = some (v, es))
    (hruns : ReflTransGen (Runs i) v u) (huser : u.pc i ≠ .user) :
    ReflTransGen (Runs i) u s' := by
  obtain ⟨v', es', k, hstep', hruns', hpc⟩ := h
  rw [hstep] at hstep'
  cases hstep'
  rcases hruns.total_of_right_unique (runs_rightUnique i) hruns' with hle | hle
  · exact hle
  · rcases eq_or_user_of_ret hpc hle with rfl | hu
    · exact .refl
    · exact absurd hu huser

theorem Returns.unique {c : Call} {r r' : Reply} (h : Returns s i c s' r)
    (h' : Returns s i c u r') : s' = u ∧ r = r' := by
  obtain ⟨v, es, k, hstep, hruns, hpc⟩ := h'
  have huser : u.pc i ≠ .user := by simp [hpc]
  obtain ⟨v', es', k', hstep', hruns', hpc'⟩ := id h
  have heq : s' = u := by
    rcases eq_or_user_of_ret hpc (h.reaches hstep hruns huser) with heq | hu
    · exact heq
    · rw [hu] at hpc'
      cases hpc'
  subst heq
  rw [hpc] at hpc'
  cases hpc'
  exact ⟨rfl, rfl⟩

theorem returns_of_step {c : Call} {h : Handler} {r : Reply}
    (hstep : step s i (.call c) = some (s.goto i (.ret h r), [])) :
    Returns s i c (s.goto i (.ret h r)) r :=
  ⟨_, _, h, hstep, .refl, Function.update_self ..⟩

theorem eq_of_stuck (hstuck : ∀ u, Runs i s u → u = s) (hruns : ReflTransGen (Runs i) s s') :
    s' = s := by
  induction hruns with
  | refl => rfl
  | tail _ hstep ih =>
    subst ih
    exact hstuck _ hstep

/-- A process that spins alone spins for ever. -/
theorem Returns.not_of_stuck {c : Call} {r : Reply} {v : State ι} {es : List Event}
    (hstep : step s i (.call c) = some (v, es)) (hruns : ReflTransGen (Runs i) v u)
    (hpc : (∀ h r, u.pc i ≠ .ret h r) ∧ u.pc i ≠ .user) (hstuck : ∀ x, Runs i u x → x = u) :
    ¬Returns s i c s' r := by
  intro h
  obtain ⟨-, -, k, -, -, hret⟩ := id h
  rw [eq_of_stuck hstuck (h.reaches hstep hruns hpc.2)] at hret
  exact hpc.1 _ _ hret

end Returns

section ModlistWrite

/-- The integers in the lists of the entries. -/
def State.listing (s : State ι) (a : Addr) : List Int32 := (s.node a).list.map Prod.snd

theorem map_deleteLoop (del : Int32 → Bool) (head prev : Obj) (l : List (Addr × Int32)) :
    (deleteLoop del head prev l).1.map Prod.snd = (l.map Prod.snd).filter fun x => !del x := by
  rw [deleteLoop_eq, List.filter_map]
  rfl

def Job.command : Job → Command
  | .add _ num => .add num
  | .remove num => .remove num
  | .cleanup => .cleanup

theorem map_run (a : Addr) (l : List (Addr × Int32)) (job : Job) :
    (job.run a l).1.map Prod.snd = job.command.run (l.map Prod.snd) := by
  cases job with
  | add x num => simp [Job.run, Job.command, Command.run]
  | remove num =>
    simp only [Job.run, Job.command, Command.run, map_deleteLoop, ne_eq, decide_not, beq_eq_decide]
  | cleanup => simp [Job.run, Job.command, Command.run, map_deleteLoop]

omit [DecidableEq ι] [Fintype ι] in
theorem listing_setNode (s : State ι) (a : Addr) (n : Node ι) :
    (s.setNode a n).listing = Function.update s.listing a (n.list.map Prod.snd) :=
  Function.comp_update (fun n : Node ι => n.list.map Prod.snd) s.node a n

theorem job_runs {w : Write} {job : Job} (hpc : s.pc i = .write a w (.lock job))
    (hsp : (s.node a).sp = none) :
    ∃ s', ReflTransGen (Runs i) s s' ∧ s'.pc i = .ret (.entry a) w.done ∧ s'.procs = s.procs ∧
      s'.listing = Function.update s.listing a (job.command.run (s.listing a)) := by
  let n : Node ι := { s.node a with list := (job.run a (s.node a).list).1, sp := some i }
  let u := (s.goto i (.write a w .unlock)).setNode a n
  have hu : Runs i s u := by
    refine ⟨(.node a, .touch) :: (job.run a (s.node a).list).2, ?_⟩
    simp only [step, hpc, State.write, State.lock, hsp, if_true]
    rfl
  have hpcu : u.pc i = .write a w .unlock := Function.update_self ..
  have hs' : Runs i u ((u.goto i (.ret (.entry a) w.done)).unlock a) := by
    refine ⟨[(.node a, .touch)], ?_⟩
    simp only [step, hpcu, State.write]
  refine ⟨_, (ReflTransGen.single hu).tail hs', Function.update_self .., rfl, ?_⟩
  have hlist : (u.node a).list = (job.run a (s.node a).list).1 := by
    simp [u, n, State.setNode]
  rw [State.unlock, listing_setNode]
  change Function.update u.listing a ((u.node a).list.map Prod.snd) = _
  rw [hlist, map_run, listing_setNode, map_run, Function.update_idem]
  rfl

/-- Where `modlist_write` is after the parse. -/
def parsedPc (a : Addr) (w : Write) : Command → Pc
  | .add num => .write a w (.vmalloc num)
  | .remove num => .write a w (.lock (.remove num))
  | .cleanup => .write a w (.lock .cleanup)
  | .nothing => .ret (.entry a) w.done

theorem step_write (hpc : s.pc i = .user) (ha : a ∈ s.procs.map Prod.snd) {off : Nat}
    {buf stack : List UInt8} {copied : Bool} {c : Command}
    (hparse : (modlistWrite off buf copied stack).1 = .parsed c) :
    step s i (.call (.write a off buf copied stack)) =
      some (s.goto i (parsedPc a ⟨off, buf.length⟩ c), []) := by
  simp only [step, hpc, State.call, if_pos ha]
  cases c <;> simp only [hparse] <;> rfl

theorem write_reaches (hpc : s.pc i = .user) (ha : a ∈ s.procs.map Prod.snd) {off : Nat}
    {buf stack : List UInt8} {copied : Bool} {c : Command}
    (hparse : (modlistWrite off buf copied stack).1 = .parsed c) (hc : c ≠ .nothing) :
    ∃ v u job, step s i (.call (.write a off buf copied stack)) = some (v, []) ∧
      ReflTransGen (Runs i) v u ∧ u.pc i = .write a ⟨off, buf.length⟩ (.lock job) ∧
      job.command = c ∧ u.node = s.node ∧ u.procs = s.procs := by
  have hstep := step_write hpc ha hparse
  have hgoto (pc : Pc) : (s.goto i pc).pc i = pc := Function.update_self ..
  cases c with
  | add num =>
    let v := s.goto i (parsedPc a ⟨off, buf.length⟩ (.add num))
    let u := { v.goto i (.write a ⟨off, buf.length⟩ (.lock (.add s.nextItem num))) with
      nextItem := s.nextItem + 1 }
    have hu : Runs i v u := by
      refine ⟨[(.item s.nextItem, .alloc), (.item s.nextItem, .touch)], ?_⟩
      simp only [step, v, hgoto, parsedPc, State.write]
      rfl
    exact ⟨v, u, _, hstep, .single hu, Function.update_self .., rfl, rfl, rfl⟩
  | remove num => exact ⟨_, _, .remove num, hstep, .refl, hgoto _, rfl, rfl, rfl⟩
  | cleanup => exact ⟨_, _, .cleanup, hstep, .refl, hgoto _, rfl, rfl, rfl⟩
  | nothing => exact absurd rfl hc

theorem nothing_returns (hpc : s.pc i = .user) (ha : a ∈ s.procs.map Prod.snd) {off : Nat}
    {buf stack : List UInt8} {copied : Bool}
    (hparse : (modlistWrite off buf copied stack).1 = .parsed .nothing) :
    Returns s i (.write a off buf copied stack)
      (s.goto i (.ret (.entry a) (Write.done ⟨off, buf.length⟩))) (Write.done ⟨off, buf.length⟩) :=
  returns_of_step (step_write hpc ha hparse)

theorem write_returns (hpc : s.pc i = .user) (ha : a ∈ s.procs.map Prod.snd)
    (hsp : (s.node a).sp = none) {off : Nat} {buf stack : List UInt8} {copied : Bool} {c : Command}
    (hparse : (modlistWrite off buf copied stack).1 = .parsed c) :
    ∃ s', Returns s i (.write a off buf copied stack) s' (Write.done ⟨off, buf.length⟩) ∧
      s'.procs = s.procs ∧ s'.listing = Function.update s.listing a (c.run (s.listing a)) := by
  by_cases hc : c = .nothing
  · subst hc
    exact ⟨_, nothing_returns hpc ha hparse, rfl, (Function.update_eq_self a s.listing).symm⟩
  · obtain ⟨v, u, job, hstep, hruns, hpcu, rfl, hnode, hprocs⟩ := write_reaches hpc ha hparse hc
    obtain ⟨s', hs', hpc', hprocs', hlisting⟩ := job_runs hpcu (by rw [hnode]; exact hsp)
    have hlist : u.listing = s.listing := by
      funext b
      rw [State.listing, hnode, State.listing]
    refine ⟨s', ⟨v, [], _, hstep, hruns.trans hs', hpc'⟩, hprocs'.trans hprocs, ?_⟩
    rw [hlisting, hlist]

/-- A process that holds the lock of the entry for ever keeps a command from its return. -/
theorem not_returns_of_held (hpc : s.pc i = .user) (ha : a ∈ s.procs.map Prod.snd)
    (hsp : (s.node a).sp ≠ none) {off : Nat} {buf stack : List UInt8} {copied : Bool} {c : Command}
    (hparse : (modlistWrite off buf copied stack).1 = .parsed c) (hc : c ≠ .nothing) {r : Reply} :
    ¬Returns s i (.write a off buf copied stack) s' r := by
  obtain ⟨v, u, job, hstep, hruns, hpcu, -, hnode, -⟩ := write_reaches hpc ha hparse hc
  apply Returns.not_of_stuck hstep hruns (by simp [hpcu])
  rintro x ⟨es, hx⟩
  rw [← hnode] at hsp
  simp only [step, hpcu, State.write, State.lock, hsp, if_false, Option.some.injEq,
    Prod.mk.injEq] at hx
  exact hx.1.symm

end ModlistWrite

section WriteOk

/-- A write of `len` bytes returns `r` and turns `x` into `x'`: it is rejected, or has made of `x`
the `y` that was asked for. -/
def Obeys {β : Type} (r : Reply) (len : Nat) (x x' y : β) : Prop :=
  r.ret ≠ .done len ∧ x' = x ∨ x' = y

/-- A write of `buf` to the entry `a` has one outcome, whatever the memory from `modlistbuffer` on
held before, keeps to `aux_buffer`, and obeys what `buf` spells. -/
def WriteOk (s : State ι) (i : ι) (a : Addr) (off : Nat) (buf : List UInt8) (copied : Bool) :
    Prop :=
  ∃ s' r,
    (∀ stack : List UInt8, 240 ≤ stack.length →
      Returns s i (.write a off buf copied stack) s' r ∧
        ∀ k ∈ (modlistWrite off buf copied stack).2, k < 240) ∧
    s'.procs = s.procs ∧
      Obeys r buf.length s.listing s'.listing
        (Function.update s.listing a ((Command.ofText buf).run (s.listing a)))

/-- The command is the one that `modlistbuffer` spells. -/
theorem modlistWrite_parsed (buf stack : List UInt8) :
    (modlistWrite 0 buf true stack).1 = .parsed (Command.ofText stack) := by
  simp only [modlistWrite, Command.ofText, Nat.lt_irrefl, if_false, Bool.not_true,
    Bool.false_eq_true]
  split
  · next num h => simp [h]
  · next h =>
    split
    · next num h' => simp [h, h']
    · next h' => simp [h, h']

def zeros : List UInt8 := List.replicate 240 0

theorem le_length_zeros (t : List UInt8) : 240 ≤ (t ++ zeros).length := by
  rw [zeros, List.length_append, List.length_replicate]
  exact Nat.le_add_left ..

theorem ofText_zeros : Command.ofText zeros = .nothing := rfl

theorem ofText_add_zeros : Command.ofText (bytes "add 0" ++ zeros) = .add 0 := by
  rw [zeros, List.replicate_succ, Command.ofText, cstring_append_zero]
  decide

omit [DecidableEq ι] [Fintype ι] in
/-- A refusal leaves everything as it was, which is also what the empty text asks for. -/
theorem obeys_of_refused {β : Type} {r : Reply} {buf : List UInt8} {x y : β}
    (hr : r.ret ≠ .done buf.length ∨ buf = []) (hempty : buf = [] → y = x) :
    Obeys r buf.length x x y := by
  rcases hr with hr | hbuf
  · exact .inl ⟨hr, rfl⟩
  · exact .inr (hempty hbuf).symm

theorem modlistWrite_refused (buf : List UInt8) {off : Nat} {copied : Bool}
    (h : 0 < off ∨ copied = false) :
    ∃ r, (∀ stack, (modlistWrite off buf copied stack).1 = .refused r) ∧
      (r.ret ≠ .done buf.length ∨ buf = []) := by
  by_cases hoff : 0 < off
  · refine ⟨⟨.done 0, [], off⟩, ?_, ?_⟩
    · intro stack
      rw [modlistWrite, if_pos hoff]
    · cases buf with
      | nil => exact .inr rfl
      | cons c buf => left; simp
  · obtain rfl := h.resolve_left hoff
    refine ⟨⟨.error .efault, [], off⟩, ?_, ?_⟩
    · intro stack
      rw [modlistWrite, if_neg hoff]
      rfl
    · left; simp

theorem modlistWrite_stores {off : Nat} {buf stack : List UInt8} {copied : Bool}
    (h : 0 < off ∨ copied = false ∧ buf.length ≤ 240) :
    ∀ k ∈ (modlistWrite off buf copied stack).2, k < 240 := by
  intro k hk
  rw [modlistWrite] at hk
  rcases h with hoff | ⟨rfl, hlen⟩
  · simp [hoff] at hk
  · split at hk
    · exact absurd hk List.not_mem_nil
    · exact (List.mem_range.mp hk).trans_le hlen

/-- A write that gets to the parse does one thing where the stack held nothing, and another where
it held a command. -/
theorem write_depends (hpc : s.pc i = .user) (ha : a ∈ s.procs.map Prod.snd) {buf : List UInt8}
    {r : Reply} (hzeros : Returns s i (.write a 0 buf true zeros) s' r)
    (hadding : Returns s i (.write a 0 buf true (bytes "add 0" ++ zeros)) s' r) : False := by
  have hnothing := modlistWrite_parsed buf zeros
  rw [ofText_zeros] at hnothing
  have hadd := modlistWrite_parsed buf (bytes "add 0" ++ zeros)
  rw [ofText_add_zeros] at hadd
  by_cases hsp : (s.node a).sp = none
  · obtain ⟨u, hu, -, hlisting⟩ := write_returns hpc ha hsp hadd
    have hsame := (hzeros.unique (nothing_returns hpc ha hnothing)).1
    rw [(hu.unique hadding).1, hsame] at hlisting
    have hat := congrArg List.length (congrFun hlisting a)
    rw [Function.update_self, Command.run, List.length_append] at hat
    exact absurd hat (Nat.ne_of_lt (Nat.lt_add_of_pos_right Nat.one_pos))
  · exact not_returns_of_held hpc ha hsp hadd (by simp) hadding

theorem writeOk_iff (hpc : s.pc i = .user) (ha : a ∈ s.procs.map Prod.snd) (off : Nat)
    (buf : List UInt8) (copied : Bool) :
    WriteOk s i a off buf copied ↔ 0 < off ∨ copied = false ∧ buf.length ≤ 240 := by
  constructor
  · rintro ⟨s', r, hall, -, -⟩
    have hzeros := hall zeros (le_length_zeros [])
    have hadding := hall (bytes "add 0" ++ zeros) (le_length_zeros _)
    rcases Nat.eq_zero_or_pos off with rfl | hoff
    · right
      cases copied with
      | false =>
        refine ⟨rfl, Nat.le_of_not_lt ?_⟩
        intro hlong
        have hmem : 240 ∈ (modlistWrite 0 buf false zeros).2 := by
          simpa [modlistWrite] using hlong
        exact absurd (hzeros.2 _ hmem) (by decide)
      | true => exact (write_depends hpc ha hzeros.1 hadding.1).elim
    · exact .inl hoff
  · intro h
    obtain ⟨r, hrefused, hr⟩ :=
      modlistWrite_refused buf (h.imp_right fun hcopied => hcopied.1)
    refine ⟨s.goto i (.ret (.entry a) r), r, ?_, rfl, obeys_of_refused hr ?_⟩
    · intro stack _
      refine ⟨returns_of_step ?_, modlistWrite_stores h⟩
      simp only [step, hpc, State.call, if_pos ha, hrefused stack]
    · rintro rfl
      exact Function.update_eq_self a s.listing

end WriteOk

section ControlWrite

/-- What a text asks `control` for. -/
def ControlCommand.ofText (text : List UInt8) : ControlCommand :=
  match scanStr (cstring text) "create %s", scanStr (cstring text) "remove %s" with
  | some name, _ => .create name
  | none, some name => .remove name
  | none, none => .nothing

/-- The entries under `/proc/multilist` apart from `control`, each with its integers. -/
def State.directory (s : State ι) : List (List UInt8 × List Int32) :=
  s.procs.map fun e => (e.1, s.listing e.2)

def ControlCommand.run : ControlCommand → List (List UInt8 × List Int32) →
    List (List UInt8 × List Int32)
  | .create name, d =>
    if name = bytes "control" ∨ name ∈ d.map Prod.fst then d else d ++ [(name, [])]
  | .remove name, d => d.filter (·.1 ≠ name)
  | .nothing, d => d

/-- What `sscanf` has stored in `name`, apart from the zero that ends it. -/
def ControlCommand.name : ControlCommand → List UInt8
  | .create name | .remove name => name
  | .nothing => []

/-- A write of `buf` to `control` has one outcome, whatever the memory from `modlistbuffer` on
held before, keeps to `name`, and obeys what `buf` spells. -/
def ControlOk (s : State ι) (i : ι) (off : Nat) (buf : List UInt8) (copied : Bool) : Prop :=
  ∃ s' r,
    (∀ stack : List UInt8, 240 ≤ stack.length →
      Returns s i (.control off buf copied stack) s' r ∧
        ∀ c, controlWrite off buf copied stack = .parsed c → c.name.length < 20) ∧
    Obeys r buf.length s.directory s'.directory ((ControlCommand.ofText buf).run s.directory)

/-- The command is the one that `modlistbuffer` spells. -/
theorem controlWrite_parsed {buf : List UInt8} (hbuf : buf.length ≤ 239) (stack : List UInt8) :
    controlWrite 0 buf true stack = .parsed (ControlCommand.ofText stack) := by
  simp only [controlWrite, ControlCommand.ofText, Nat.lt_irrefl, if_false, Nat.not_lt.mpr hbuf,
    Bool.not_true, Bool.false_eq_true]
  split
  · next name h => simp [h]
  · next h =>
    split
    · next name h' => simp [h, h']
    · next h' => simp [h, h']

theorem control_ofText_zeros : ControlCommand.ofText zeros = .nothing := rfl

theorem control_ofText_create_zeros :
    ControlCommand.ofText (bytes "create a" ++ zeros) = .create (bytes "a") := by
  rw [zeros, List.replicate_succ, ControlCommand.ofText, cstring_append_zero]
  decide

/-- The way of an entry into `lists` and `procs`: its node is there, and the rest is as before. -/
structure Created (s t : State ι) (i : ι) (name : List UInt8) (lists : List Addr)
    (procs : List (List UInt8 × Addr)) : Prop where
  node : t.node = Function.update s.node s.nextNode
    { list := [], sp := none, name := strncpy name 20, markedForRemoval := false }
  lists : t.lists = lists
  procs : t.procs = procs
  control : t.control = s.control
  pcs : ∀ j, j ≠ i → t.pc j = s.pc j

theorem create_allocates (hpc : s.pc i = .user) (hcontrol : s.control = true) {off : Nat}
    {buf stack : List UInt8} {copied : Bool} {name : List UInt8}
    (hparse : controlWrite off buf copied stack = .parsed (.create name)) :
    ∃ v t, step s i (.call (.control off buf copied stack)) = some (v, []) ∧
      v.pc i = .create ⟨off, buf.length⟩ (.vmalloc name) ∧ Runs i v t ∧
      t.pc i = .create ⟨off, buf.length⟩ (.procCreateData name s.nextNode) ∧
      t.spLists = s.spLists ∧ Created s t i name s.lists s.procs := by
  let w : Write := ⟨off, buf.length⟩
  let v := s.goto i (.create w (.vmalloc name))
  let n : Node ι := { list := [], sp := none, name := strncpy name 20, markedForRemoval := false }
  let t := { (v.goto i (.create w (.procCreateData name s.nextNode))).setNode s.nextNode n with
    nextNode := s.nextNode + 1 }
  have hstep : step s i (.call (.control off buf copied stack)) = some (v, []) := by
    simp only [step, hpc, State.call, hcontrol, if_true, hparse]
    rfl
  have hpcv : v.pc i = .create w (.vmalloc name) := Function.update_self ..
  have ht : Runs i v t := by
    refine ⟨[(.node s.nextNode, .alloc), (.node s.nextNode, .touch)], ?_⟩
    simp only [step, hpcv, State.create]
    rfl
  refine ⟨v, t, hstep, hpcv, ht, Function.update_self .., rfl, rfl, rfl, rfl, rfl, ?_⟩
  intro j hj
  simp [t, v, State.goto, State.setNode, Function.update_of_ne hj]

/-- The entry is registered where its name is free. -/
theorem procCreateData_registers {t : State ι} {w : Write} {name : List UInt8}
    (hpc : t.pc i = .create w (.procCreateData name s.nextNode))
    (ht : Created s t i name s.lists s.procs) (hname : s.present name = false) :
    ∃ u, Runs i t u ∧ u.pc i = .create w (.lockAdd s.nextNode) ∧ u.spLists = t.spLists ∧
      Created s u i name s.lists (s.procs ++ [(name, s.nextNode)]) := by
  have hpresent : t.present name = false := by
    rw [State.present, ht.control, ht.procs]
    exact hname
  let u := { t.goto i (.create w (.lockAdd s.nextNode)) with
    procs := t.procs ++ [(name, s.nextNode)] }
  have hu : Runs i t u := by
    refine ⟨[(.node s.nextNode, .touch)], ?_⟩
    simp only [step, hpc, State.create, hpresent, Bool.false_eq_true, if_false]
    rfl
  refine ⟨u, hu, Function.update_self .., rfl, ht.node, ht.lists, ?_, ht.control, ?_⟩
  · simp [u, ht.procs]
  · intro j hj
    simp [u, State.goto, Function.update_of_ne hj, ht.pcs j hj]

/-- `control_create` comes to its lock, with the entry registered if its name was free. -/
theorem create_reaches (hpc : s.pc i = .user) (hcontrol : s.control = true) {off : Nat}
    {buf stack : List UInt8} {copied : Bool} {name : List UInt8}
    (hparse : controlWrite off buf copied stack = .parsed (.create name)) :
    ∃ v u, step s i (.call (.control off buf copied stack)) = some (v, []) ∧
      ReflTransGen (Runs i) v u ∧ u.spLists = s.spLists ∧
      if s.present name then u.pc i = .create ⟨off, buf.length⟩ (.lockFailed s.nextNode)
      else u.pc i = .create ⟨off, buf.length⟩ (.lockAdd s.nextNode) ∧
        Created s u i name s.lists (s.procs ++ [(name, s.nextNode)]) := by
  obtain ⟨v, t, hstep, -, ht, hpct, hspt, hcreated⟩ := create_allocates hpc hcontrol hparse
  cases hname : s.present name with
  | true =>
    have hpresent : t.present name = true := by
      rw [State.present, hcreated.control, hcreated.procs]
      exact hname
    have hu : Runs i t (t.goto i (.create ⟨off, buf.length⟩ (.lockFailed s.nextNode))) := by
      refine ⟨[(.node s.nextNode, .touch)], ?_⟩
      simp only [step, hpct, State.create, hpresent, if_true]
    refine ⟨v, _, hstep, (ReflTransGen.single ht).tail hu, hspt, ?_⟩
    rw [if_pos rfl]
    exact Function.update_self ..
  | false =>
    obtain ⟨u, hu, hpcu, hspu, hregistered⟩ := procCreateData_registers hpct hcreated hname
    refine ⟨v, u, hstep, (ReflTransGen.single ht).tail hu, hspu.trans hspt, ?_⟩
    rw [if_neg (by simp)]
    exact ⟨hpcu, hregistered⟩

/-- A name that is taken leaves `sp_lists` held, a name that is free is registered. -/
theorem create_returns (hpc : s.pc i = .user) (hcontrol : s.control = true)
    (hsp : s.spLists = none) {off : Nat} {buf stack : List UInt8} {copied : Bool}
    {name : List UInt8} (hparse : controlWrite off buf copied stack = .parsed (.create name)) :
    ∃ s', Returns s i (.control off buf copied stack) s' (Write.done ⟨off, buf.length⟩) ∧
      if s.present name then s'.spLists = some i
      else s'.spLists = none ∧
        Created s s' i name (s.lists ++ [s.nextNode]) (s.procs ++ [(name, s.nextNode)]) := by
  obtain ⟨v, u, hstep, hruns, hspu, hu⟩ := create_reaches hpc hcontrol hparse
  rw [hsp] at hspu
  let w : Write := ⟨off, buf.length⟩
  cases hname : s.present name with
  | true =>
    rw [hname, if_pos rfl] at hu
    let t := { u.goto i (.ret .control w.done) with spLists := some i }
    have ht : Runs i u t := by
      refine ⟨[(.node s.nextNode, .free)], ?_⟩
      simp only [step, hu, State.create, State.lockLists, hspu, if_true]
      rfl
    exact ⟨t, ⟨v, [], .control, hstep, hruns.tail ht, Function.update_self ..⟩, rfl⟩
  | false =>
    rw [hname, if_neg (by simp)] at hu
    obtain ⟨hpcu, hcreated⟩ := hu
    let t := { u.goto i (.create w .unlock) with
      lists := u.lists ++ [s.nextNode], spLists := some i }
    have ht : Runs i u t := by
      refine ⟨touches ((u.lists.getLast?.map Obj.node).toList ++ [.node s.nextNode]), ?_⟩
      simp only [step, hpcu, State.create, State.lockLists, hspu, if_true]
      rfl
    have hpct : t.pc i = .create w .unlock := Function.update_self ..
    have hs' : Runs i t (t.goto i (.ret .control w.done)).unlockLists := by
      refine ⟨[], ?_⟩
      simp only [step, hpct, State.create]
    refine ⟨_, ⟨v, [], .control, hstep, (hruns.tail ht).tail hs', Function.update_self ..⟩, ?_⟩
    rw [if_neg (by simp)]
    refine ⟨rfl, hcreated.node, ?_, hcreated.procs, hcreated.control, ?_⟩
    · change u.lists ++ [s.nextNode] = _
      rw [hcreated.lists]
    · intro j hj
      simp [t, State.goto, State.unlockLists, Function.update_of_ne hj, hcreated.pcs j hj]

/-- Both locks of `control_create` spin while somebody holds `sp_lists`. -/
theorem create_stuck {w : Write} {c : CreatePc} (hpc : u.pc i = .create w c)
    (hc : c = .lockFailed a ∨ c = .lockAdd a) (hsp : u.spLists ≠ none) :
    ∀ x, Runs i u x → x = u := by
  rintro x ⟨es, hx⟩
  rcases hc with rfl | rfl
  · simp only [step, hpc, State.create, State.lockLists, hsp, if_false, Option.some.injEq,
      Prod.mk.injEq] at hx
    exact hx.1.symm
  · simp only [step, hpc, State.create, State.lockLists, hsp, if_false, Option.some.injEq,
      Prod.mk.injEq] at hx
    exact hx.1.symm

theorem create_not_returns_of_held (hpc : s.pc i = .user) (hcontrol : s.control = true)
    (hsp : s.spLists ≠ none) {off : Nat} {buf stack : List UInt8} {copied : Bool}
    {name : List UInt8} (hparse : controlWrite off buf copied stack = .parsed (.create name))
    {r : Reply} : ¬Returns s i (.control off buf copied stack) s' r := by
  obtain ⟨v, u, hstep, hruns, hspu, hu⟩ := create_reaches hpc hcontrol hparse
  rw [← hspu] at hsp
  split at hu
  · exact Returns.not_of_stuck hstep hruns (by simp [hu]) (create_stuck hu (.inl rfl) hsp)
  · exact Returns.not_of_stuck hstep hruns (by simp [hu.1]) (create_stuck hu.1 (.inr rfl) hsp)

theorem controlWrite_refused {off : Nat} {buf : List UInt8} {copied : Bool}
    (h : 0 < off ∨ 239 < buf.length ∨ copied = false) :
    ∃ r, (∀ stack, controlWrite off buf copied stack = .refused r) ∧
      (r.ret ≠ .done buf.length ∨ buf = []) := by
  by_cases hoff : 0 < off
  · refine ⟨⟨.done 0, [], off⟩, ?_, ?_⟩
    · intro stack
      rw [controlWrite, if_pos hoff]
    · cases buf with
      | nil => exact .inr rfl
      | cons c buf => left; simp
  · by_cases hlen : 239 < buf.length
    · refine ⟨⟨.error .enospc, [], off⟩, ?_, ?_⟩
      · intro stack
        rw [controlWrite, if_neg hoff, if_pos hlen]
      · left; simp
    · obtain rfl := (h.resolve_left hoff).resolve_left hlen
      refine ⟨⟨.error .efault, [], off⟩, ?_, ?_⟩
      · intro stack
        rw [controlWrite, if_neg hoff, if_neg hlen]
        rfl
      · left; simp

/-- A new entry can be seen, and so can `sp_lists` where the name was taken. -/
theorem control_depends (hpc : s.pc i = .user) (hcontrol : s.control = true) {buf : List UInt8}
    (hlen : buf.length ≤ 239) {r : Reply} (hzeros : Returns s i (.control 0 buf true zeros) s' r)
    (hcreating : Returns s i (.control 0 buf true (bytes "create a" ++ zeros)) s' r) : False := by
  have hnothing := controlWrite_parsed hlen zeros
  rw [control_ofText_zeros] at hnothing
  have hcreate := controlWrite_parsed hlen (bytes "create a" ++ zeros)
  rw [control_ofText_create_zeros] at hcreate
  by_cases hsp : s.spLists = none
  · obtain ⟨u, hu, heffect⟩ := create_returns hpc hcontrol hsp hcreate
    have hsame : s' = s.goto i (.ret .control (Write.done ⟨0, buf.length⟩)) := by
      refine (hzeros.unique (returns_of_step ?_)).1
      simp only [step, hpc, State.call, hcontrol, if_true, hnothing]
    rw [(hu.unique hcreating).1, hsame] at heffect
    split at heffect
    · have hfree : (some i : Option ι) = none := heffect.symm.trans hsp
      cases hfree
    · exact absurd (congrArg List.length heffect.2.procs) (by simp [State.goto])
  · exact create_not_returns_of_held hpc hcontrol hsp hcreate hcreating

theorem controlOk_iff (hpc : s.pc i = .user) (hcontrol : s.control = true) (off : Nat)
    (buf : List UInt8) (copied : Bool) :
    ControlOk s i off buf copied ↔ 0 < off ∨ 239 < buf.length ∨ copied = false := by
  constructor
  · rintro ⟨s', r, hall, -⟩
    by_contra hnot
    obtain ⟨hoff, hlen, hcopied⟩ : off = 0 ∧ buf.length ≤ 239 ∧ copied = true := by
      simpa using hnot
    subst hoff hcopied
    have hzeros := hall zeros (le_length_zeros [])
    have hcreating := hall (bytes "create a" ++ zeros) (le_length_zeros _)
    exact control_depends hpc hcontrol hlen hzeros.1 hcreating.1
  · intro h
    obtain ⟨r, hrefused, hr⟩ := controlWrite_refused h
    refine ⟨s.goto i (.ret .control r), r, ?_, obeys_of_refused hr ?_⟩
    · intro stack _
      constructor
      · apply returns_of_step
        simp only [step, hpc, State.call, hcontrol, if_true, hrefused stack]
      · intro c hc
        rw [hrefused stack] at hc
        cases hc
    · rintro rfl
      rfl

end ControlWrite

section Main

/-- A write does what its bytes say exactly where it is refused before it parses. -/
theorem writes_ok_iff (hpc : s.pc i = .user) (off : Nat) (buf : List UInt8) (copied : Bool) :
    (∀ a ∈ s.procs.map Prod.snd,
      (WriteOk s i a off buf copied ↔ 0 < off ∨ copied = false ∧ buf.length ≤ 240)) ∧
    (s.control = true →
      (ControlOk s i off buf copied ↔ 0 < off ∨ 239 < buf.length ∨ copied = false)) :=
  ⟨fun _ ha => writeOk_iff hpc ha off buf copied,
    fun hcontrol => controlOk_iff hpc hcontrol off buf copied⟩

theorem writes_ok_iff_loaded :
    (¬WriteOk (machine Unit).init () 0 0 (bytes "add 1\n") true ∧
      WriteOk (machine Unit).init () 0 6 (bytes "add 1\n") true) ∧
    ¬ControlOk (machine Unit).init () 0 (bytes "create a\n") true := by
  have hpc : (machine Unit).init.pc () = .user := rfl
  have hfresh := writes_ok_iff hpc 0 (bytes "add 1\n") true
  have hmoved := writes_ok_iff hpc 6 (bytes "add 1\n") true
  have hcreate := writes_ok_iff hpc 0 (bytes "create a\n") true
  have hmem : 0 ∈ (machine Unit).init.procs.map Prod.snd := by decide
  refine ⟨⟨mt (hfresh.1 0 hmem).mp (by decide), (hmoved.1 0 hmem).mpr (by decide)⟩, ?_⟩
  exact mt (hcreate.2 rfl).mp (by decide)

/-- "add 1" adds nothing where the stack held nothing, and 7 where it held "add 7". -/
theorem addOne_lost : ∃ u v,
    Returns (machine Unit).init () (.write 0 0 (bytes "add 1\n") true zeros) u ⟨.done 6, [], 6⟩ ∧
    u.listing 0 = [] ∧
    Returns (machine Unit).init () (.write 0 0 (bytes "add 1\n") true (bytes "add 7" ++ zeros)) v
      ⟨.done 6, [], 6⟩ ∧
    v.listing 0 = [7] ∧
    (Command.ofText (bytes "add 1\n")).run ((machine Unit).init.listing 0) = [1] := by
  have hpc : (machine Unit).init.pc () = .user := rfl
  have hmem : 0 ∈ (machine Unit).init.procs.map Prod.snd := by decide
  have hseven : Command.ofText (bytes "add 7" ++ zeros) = .add 7 := by
    rw [zeros, List.replicate_succ, Command.ofText, cstring_append_zero]
    decide
  have hnothing := modlistWrite_parsed (bytes "add 1\n") zeros
  have hadd := modlistWrite_parsed (bytes "add 1\n") (bytes "add 7" ++ zeros)
  obtain ⟨u, hu, -, hlu⟩ := write_returns hpc hmem rfl hnothing
  obtain ⟨v, hv, -, hlv⟩ := write_returns hpc hmem rfl hadd
  rw [hseven] at hlv
  refine ⟨u, v, hu, ?_, hv, ?_, by decide⟩
  · rw [hlu]
    rfl
  · rw [hlv]
    rfl

end Main

end LinuxInternals.Multilist
