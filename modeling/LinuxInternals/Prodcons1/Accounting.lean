import LinuxInternals.Prodcons1.Basic

/-!
# Semaphore accounting of `prodcons1`

Every unit of `huecos` and `elementos` is in its semaphore or with one process, and the
buffer holds one item for each unit of `elementos` that exists or is about to exist. So
nobody inserts into a full buffer or takes from an empty one, whatever is interrupted.
-/

namespace LinuxInternals.Prodcons1

open Prodcons

inductive Moves (sh : Shared) : Proc → Act → Shared → Proc → List Event → Prop where
  | refuse {c copied es} : es.flatMap inserted = [] → es.flatMap removed = [] →
      Moves sh .user (.call c copied) sh .user es
  | call {c copied f es} : es.flatMap inserted = [] → es.flatMap removed = [] →
      Moves sh .user (.call c copied) sh (.inside f .take) es
  | take {f copied} : 0 < sh.sem f.takes →
      Moves sh (.inside f .take) (.run copied) (sh.down f.takes) (.inside f .enter) []
  | takeIntr {f} : Moves sh (.inside f .take) .intr sh .user f.refuse
  | write {off len item copied} : 0 < sh.sem .mtx →
      Moves sh (.inside (.write off len item) .enter) (.run copied)
        { sh.down .mtx with cbuf := (sh.cbuf.insertCbufferT item).1 }
        (.inside (.write off len item) .exit) [.insert item]
  | read {off len item copied} : 0 < sh.sem .mtx →
      Moves sh (.inside (.read off len item) .enter) (.run copied)
        { sh.down .mtx with cbuf := sh.cbuf.removeCbufferT.1 }
        (.inside (.read off len (headCbufferT sh.cbuf)) .exit)
        ((headCbufferT sh.cbuf).toList.map .remove)
  | enterIntr {f} : Moves sh (.inside f .enter) .intr sh (.inside f .giveBack) []
  | giveBack {f copied} :
      Moves sh (.inside f .giveBack) (.run copied) (sh.up f.takes) .user f.abort
  | exit {f copied} : Moves sh (.inside f .exit) (.run copied) (sh.up .mtx) (.inside f .post) []
  | post {f copied es} : f.return copied = some es →
      Moves sh (.inside f .post) (.run copied) (sh.up f.posts) .user es

theorem moves_of_act {sh sh' : Shared} {p p' : Proc} {a : Act} {es : List Event}
    (h : act sh p a = some (sh', p', es)) : Moves sh p a sh' p' es := by
  cases p with
  | user =>
    cases a with
    | call c copied =>
      cases c with
      | write off buf =>
        simp only [act] at h
        split at h <;> cases h
        · exact .refuse rfl rfl
        · exact .call rfl rfl
      | read off len =>
        simp only [act] at h
        split at h <;> cases h
        · exact .refuse rfl rfl
        · exact .call rfl rfl
    | run copied => cases h
    | intr => cases h
  | inside f st =>
    cases st <;> cases a <;>
      simp only [act, Option.ite_none_right_eq_some, Option.map_eq_some_iff, reduceCtorEq] at h
    case take.run => obtain ⟨hs, h⟩ := h; cases h; exact .take hs
    case take.intr => cases h; exact .takeIntr
    case enter.run =>
      obtain ⟨hm, h⟩ := h
      cases f <;> cases h
      · exact .write hm
      · exact .read hm
    case enter.intr => cases h; exact .enterIntr
    case giveBack.run => cases h; exact .giveBack
    case exit.run => cases h; exact .exit
    case post.run => obtain ⟨es, hes, h⟩ := h; cases h; exact .post hes

namespace Proc

/-- Has taken a unit of `q`, and has not yet been in the critical section. -/
def claims (q : Sem) : Proc → Bool
  | .inside f .enter | .inside f .giveBack => decide (f.takes = q)
  | _ => false

/-- Has taken a unit of `q` and been in the critical section, and still owes the unit. -/
def owes (q : Sem) : Proc → Bool
  | .inside f .exit | .inside f .post => decide (f.takes = q)
  | _ => false

/-- Has taken a unit of `q`, and has neither given it back nor turned it into one of the
other semaphore. -/
def holding (q : Sem) (p : Proc) : Bool := p.claims q || p.owes q

def inSection : Proc → Bool
  | .inside _ .exit => true
  | _ => false

theorem owes_of_claims {q : Sem} (p : Proc) (h : p.claims q = true) : p.owes q = false := by
  unfold claims at h
  split at h
  · rfl
  · rfl
  · cases h

end Proc

section Balance

variable {sh sh' : Shared} {p p' : Proc} {a : Act} {es : List Event}

@[simp] theorem Shared.up_sem (sh : Shared) (q r : Sem) :
    (sh.up q).sem r = sh.sem r + if r = q then 1 else 0 := by
  by_cases h : r = q <;> simp [Shared.up, h]

@[simp] theorem Shared.down_sem (sh : Shared) (q r : Sem) :
    (sh.down q).sem r = sh.sem r - if r = q then 1 else 0 := by
  by_cases h : r = q <;> simp [Shared.down, h]

theorem Moves.mtx_balance (h : Moves sh p a sh' p' es) :
    sh'.sem .mtx + p'.inSection.toNat = sh.sem .mtx + p.inSection.toNat := by
  cases h with
  | refuse | call | takeIntr | enterIntr => rfl
  | write hm | read hm =>
    simp only [Shared.down_sem, Proc.inSection, if_true, Bool.toNat_true, Bool.toNat_false]
    omega
  | exit => simp [Proc.inSection]
  | @take f _ _ | @giveBack f _ => cases f <;> simp [Frame.takes, Proc.inSection]
  | @post f _ _ _ => cases f <;> simp [Frame.posts, Proc.inSection]

theorem Moves.unit_balance (h : Moves sh p a sh' p' es) :
    sh'.sem .huecos + sh'.sem .elementos + (p'.claims .huecos).toNat + (p'.owes .huecos).toNat +
        (p'.claims .elementos).toNat + (p'.owes .elementos).toNat =
      sh.sem .huecos + sh.sem .elementos + (p.claims .huecos).toNat + (p.owes .huecos).toNat +
        (p.claims .elementos).toNat + (p.owes .elementos).toNat := by
  cases h with
  | refuse | call | takeIntr | enterIntr => rfl
  | write hm | read hm => simp [Proc.claims, Proc.owes, Frame.takes]
  | exit => simp [Proc.claims, Proc.owes]
  | @take f _ hs =>
    cases f <;> simp [Frame.takes, Proc.claims, Proc.owes] at hs ⊢ <;> omega
  | @giveBack f _ => cases f <;> simp [Frame.takes, Proc.claims, Proc.owes] <;> omega
  | @post f _ _ _ => cases f <;> simp [Frame.posts, Frame.takes, Proc.claims, Proc.owes] <;> omega

/-- An item appears in the buffer when its unit of `elementos` is owed, and goes when its
unit has been claimed. -/
theorem Moves.size_balance (hdoc : sh.cbuf.Documented) (hmax : sh.cbuf.maxSize = 5)
    (hroom : p.claims .huecos = true → sh.cbuf.size < 5)
    (hitem : p.claims .elementos = true → 0 < sh.cbuf.size) (h : Moves sh p a sh' p' es) :
    sh'.cbuf.size + sh.sem .elementos + (p.claims .elementos).toNat + (p.owes .huecos).toNat =
      sh.cbuf.size + sh'.sem .elementos + (p'.claims .elementos).toNat +
        (p'.owes .huecos).toNat := by
  cases h with
  | refuse | call | takeIntr | enterIntr => rfl
  | @write off len item _ _ =>
    have hsize := Cbuffer.size_insert_of_lt hdoc (by omega) (hmax ▸ hroom rfl) item
    simp [Proc.claims, Proc.owes, Frame.takes, hsize]
    omega
  | read hm =>
    have hsize := Cbuffer.size_remove hdoc (by omega)
    have hpos := hitem rfl
    simp [Proc.claims, Proc.owes, Frame.takes, hsize]
    omega
  | exit => simp [Proc.claims, Proc.owes, Shared.up]
  | @take f _ hs =>
    cases f <;> simp [Frame.takes, Proc.claims, Proc.owes, Shared.down] at hs ⊢
    omega
  | @giveBack f _ =>
    cases f <;> simp [Frame.takes, Proc.claims, Proc.owes, Shared.up]
    omega
  | @post f _ _ _ =>
    cases f <;> simp [Frame.posts, Frame.takes, Proc.claims, Proc.owes, Shared.up]
    omega

theorem Moves.keeps_documented {sh sh' : Shared} {p p' : Proc} {a : Act} {es : List Event}
    (h : Moves sh p a sh' p' es) (hdoc : sh.cbuf.Documented) (hmax : sh.cbuf.maxSize = 5) :
    sh'.cbuf.Documented ∧ sh'.cbuf.maxSize = 5 := by
  cases h with
  | refuse | call | takeIntr | enterIntr | take | giveBack | exit | post => exact ⟨hdoc, hmax⟩
  | @write _ _ item _ _ =>
    obtain ⟨hmax', hdoc', -⟩ := Cbuffer.insertCbufferT_documented hdoc (by omega) item
    exact ⟨hdoc', hmax'.trans hmax⟩
  | read =>
    obtain ⟨hmax', hdoc', -⟩ := Cbuffer.removeCbufferT_documented hdoc (by omega)
    exact ⟨hdoc', hmax'.trans hmax⟩

end Balance

variable {ι : Type} [Fintype ι]

/-- The units and the items of a state, over all its processes. -/
structure Balanced (s : State ι) : Prop where
  documented : s.cbuf.Documented
  maxSize : s.cbuf.maxSize = 5
  mtx : s.sem .mtx + headcount Proc.inSection s.proc = 1
  units : s.sem .huecos + s.sem .elementos + headcount (Proc.claims .huecos) s.proc +
    headcount (Proc.owes .huecos) s.proc + headcount (Proc.claims .elementos) s.proc +
    headcount (Proc.owes .elementos) s.proc = 5
  items : s.cbuf.size = s.sem .elementos + headcount (Proc.claims .elementos) s.proc +
    headcount (Proc.owes .huecos) s.proc

theorem Balanced.room {s : State ι} (h : Balanced s) {i : ι}
    (hi : (s.proc i).claims .huecos = true) : s.cbuf.size < 5 := by
  have hpos := headcount_pos (P := Proc.claims .huecos) (f := s.proc) i hi
  have hunits := h.units
  have hitems := h.items
  omega

theorem Balanced.item {s : State ι} (h : Balanced s) {i : ι}
    (hi : (s.proc i).claims .elementos = true) : 0 < s.cbuf.size := by
  have hpos := headcount_pos (P := Proc.claims .elementos) (f := s.proc) i hi
  have hitems := h.items
  omega

variable [DecidableEq ι]

omit [Fintype ι] in
theorem machine_step_iff {vector : Nat → Int32} {s s' : State ι} {i : ι} {a : Act}
    {tr : List (ι × Event)} :
    (machine vector ι).step s (i, a) = some (s', tr) ↔
      ∃ sh p es, act s.toShared (s.proc i) a = some (sh, p, es) ∧
        s' = { sh with proc := Function.update s.proc i p } ∧ tr = es.map (Prod.mk i) := by
  simp only [machine]
  cases act s.toShared (s.proc i) a with
  | none => simp
  | some r =>
    obtain ⟨sh, p, es⟩ := r
    simp [eq_comm, and_assoc]

omit [Fintype ι] in
theorem moves_of_step {vector : Nat → Int32} {s s' : State ι} {i : ι} {a : Act}
    {tr : List (ι × Event)} (h : (machine vector ι).step s (i, a) = some (s', tr)) :
    ∃ es, Moves s.toShared (s.proc i) a s'.toShared (s'.proc i) es ∧
      s'.proc = Function.update s.proc i (s'.proc i) ∧ tr = es.map (Prod.mk i) := by
  obtain ⟨sh, p, es, hact, rfl, rfl⟩ := machine_step_iff.mp h
  refine ⟨es, ?_, ?_, rfl⟩
  · simpa using moves_of_act hact
  · simp

theorem Balanced.step {vector : Nat → Int32} {s s' : State ι} {i : ι} {a : Act}
    {tr : List (ι × Event)} (h : Balanced s)
    (hstep : (machine vector ι).step s (i, a) = some (s', tr)) : Balanced s' := by
  obtain ⟨es, hmoves, hproc, -⟩ := moves_of_step hstep
  have hmtx := hmoves.mtx_balance
  have hunit := hmoves.unit_balance
  have hsize := hmoves.size_balance h.documented h.maxSize h.room h.item
  have hinSection := headcount_update Proc.inSection s.proc i (s'.proc i)
  have hclaims (q : Sem) := headcount_update (Proc.claims q) s.proc i (s'.proc i)
  have howes (q : Sem) := headcount_update (Proc.owes q) s.proc i (s'.proc i)
  rw [← hproc] at hinSection hclaims howes
  have hce := hclaims .elementos
  have hch := hclaims .huecos
  have hoe := howes .elementos
  have hoh := howes .huecos
  obtain ⟨hdoc, hmax⟩ := hmoves.keeps_documented h.documented h.maxSize
  obtain ⟨-, -, hmtx₀, hunits₀, hitems₀⟩ := h
  exact ⟨hdoc, hmax, by omega, by omega, by omega⟩

theorem balanced_init (vector : Nat → Int32) : Balanced (machine vector ι).init := by
  obtain ⟨hdoc, hmax, -⟩ := cbuf_documented vector
  constructor
  · exact hdoc
  · exact hmax
  · rw [machine, headcount_const _ _ rfl]
  · simp only [machine]
    rw [headcount_const _ _ rfl, headcount_const _ _ rfl, headcount_const _ _ rfl,
      headcount_const _ _ rfl]
  · simp only [machine]
    rw [headcount_const _ _ rfl, headcount_const _ _ rfl]
    rfl

theorem balanced_of_reachable {vector : Nat → Int32} {s : State ι}
    (h : (machine vector ι).Reachable s) : Balanced s :=
  h.invariant (balanced_init vector) fun _ _ _ _ hI hstep => hI.step hstep

/-- The items that a trace has put into the buffer. -/
def insertions (tr : List (ι × Event)) : List Int32 := tr.flatMap fun e => inserted e.2

def removals (tr : List (ι × Event)) : List Int32 := tr.flatMap fun e => removed e.2

/-- What a move inserts goes to the end of the buffer, what it removes comes from the
front. -/
theorem Moves.contents {sh sh' : Shared} {p p' : Proc} {a : Act} {es : List Event}
    (h : Moves sh p a sh' p' es) (hdoc : sh.cbuf.Documented) (hmax : sh.cbuf.maxSize = 5)
    (hroom : p.claims .huecos = true → sh.cbuf.size < 5) :
    sh.cbuf.contents ++ es.flatMap inserted = es.flatMap removed ++ sh'.cbuf.contents := by
  cases h with
  | refuse hins hrem | call hins hrem => rw [hins, hrem, List.append_nil, List.nil_append]
  | take | enterIntr | exit => exact List.append_nil _
  | @takeIntr f | @giveBack f _ => cases f <;> exact List.append_nil _
  | @write _ _ item _ _ =>
    rw [Cbuffer.contents_insert_of_lt hdoc (by omega) (hmax ▸ hroom rfl)]
    rfl
  | read =>
    rw [Cbuffer.contents_remove hdoc (by omega), headCbufferT_eq hdoc]
    cases sh.cbuf.contents with
    | nil => rfl
    | cons x xs => simp [inserted, removed]
  | @post f copied es hes =>
    cases f with
    | write => cases hes; exact List.append_nil _
    | read off len item =>
      cases item with
      | none => cases hes
      | some x =>
        cases hes
        obtain ⟨hrem, hins⟩ := removed_readTail off len x copied
        rw [hins, hrem, List.append_nil]
        rfl

theorem queue_of_run {vector : Nat → Int32} {s : State ι} {as : List (ι × Act)}
    {tr : List (ι × Event)} (h : (machine vector ι).Run as s tr) :
    insertions tr = removals tr ++ s.cbuf.contents := by
  have hinv : (machine vector ι).Reachable s ∧
      insertions tr = removals tr ++ s.cbuf.contents := by
    refine h.invariant (C := fun _ _ => True)
      (I := fun s tr => (machine vector ι).Reachable s ∧
        insertions tr = removals tr ++ s.cbuf.contents) ?_ ?_ (Machine.along_true _ _)
    · exact ⟨Machine.run_nil.reachable, (cbuf_documented vector).2.2.symm⟩
    · rintro s t ⟨i, a⟩ s' es ⟨hs, hI⟩ - hstep
      refine ⟨hs.step hstep, ?_⟩
      have hbal := balanced_of_reachable hs
      obtain ⟨es, hmoves, -, rfl⟩ := moves_of_step hstep
      have hcontents := hmoves.contents hbal.documented hbal.maxSize hbal.room
      rw [insertions, removals, List.flatMap_append, List.flatMap_append, List.flatMap_map,
        List.flatMap_map]
      rw [insertions, removals] at hI
      rw [hI, List.append_assoc, hcontents, List.append_assoc]
  exact hinv.2

omit [DecidableEq ι] in
theorem headcount_holding (q : Sem) (f : ι → Proc) :
    headcount (Proc.holding q) f =
      headcount (Proc.claims q) f + headcount (Proc.owes q) f :=
  headcount_or Proc.owes_of_claims f

/-- The semaphores, the processes between them and the buffer always add up, nobody inserts
into a full buffer or takes from an empty one, and the items leave once each, in the order
in which they came. -/
theorem semaphores_account {vector : Nat → Int32} {s : State ι} {as : List (ι × Act)}
    {tr : List (ι × Event)} (h : (machine vector ι).Run as s tr) :
    s.sem .huecos + s.sem .elementos + headcount (Proc.holding .huecos) s.proc +
        headcount (Proc.holding .elementos) s.proc = 5 ∧
      s.cbuf.size = s.sem .elementos + headcount (Proc.claims .elementos) s.proc +
        headcount (Proc.owes .huecos) s.proc ∧
      (∀ i off len item, s.proc i = .inside (.write off len item) .enter →
        s.cbuf.size < s.cbuf.maxSize) ∧
      (∀ i off len item, s.proc i = .inside (.read off len item) .enter →
        s.cbuf.size ≠ 0) ∧
      insertions tr = removals tr ++ s.cbuf.contents := by
  have hbal := balanced_of_reachable h.reachable
  have hunits := hbal.units
  refine ⟨?_, hbal.items, ?_, ?_, queue_of_run h⟩
  · rw [headcount_holding, headcount_holding]
    omega
  · intro i off len item hi
    rw [hbal.maxSize]
    exact hbal.room (i := i) (by rw [hi]; rfl)
  · intro i off len item hi
    exact (hbal.item (i := i) (by rw [hi]; rfl)).ne'

/-- A producer writes `7` and a consumer waits for it. -/
def oneItem : List (Bool × Act) :=
  [(true, .call (.write 0 [55]) true), (false, .call (.read 0 9) true), (true, .run true),
    (true, .run true), (true, .run true), (true, .run true), (false, .run true),
    (false, .run true)]

theorem semaphores_account_oneItem :
    ∃ s tr, (machine (fun _ => 0) Bool).Run oneItem s tr ∧
      s.cbuf.size = s.sem .elementos + headcount (Proc.claims .elementos) s.proc +
        headcount (Proc.owes .huecos) s.proc := by
  have heval : ((machine (fun _ => 0) Bool).exec (machine (fun _ => 0) Bool).init
      oneItem).map (fun r => r.1.cbuf.size) = some 0 := by
    decide +kernel
  obtain ⟨s, tr, hrun, -⟩ := Machine.exists_run_of_eval heval
  exact ⟨s, tr, hrun, (semaphores_account hrun).2.1⟩

end LinuxInternals.Prodcons1
