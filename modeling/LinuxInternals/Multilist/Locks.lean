import LinuxInternals.Lib.SpinLock
import Mathlib.Logic.Relation
import LinuxInternals.Multilist.Steps

/-!
# The spinlocks of `multilist`

A process holds `sp_lists` and the `sp` of an entry in a fixed part of its program, and takes
an `sp` at most with `sp_lists` in its hands, never the other way round. So whoever holds a lock
can go on until he has dropped it. The exception is `control_create` when
`proc_create_data` has returned `NULL`: it takes `sp_lists` and never drops it.
-/

namespace LinuxInternals.Multilist

open Text Lifetime SpinLock Relation

variable {ι : Type} [DecidableEq ι] {s s' : State ι} {i : ι} {act : Act} {es : List Event}

section Known

def Caller.nodes : Caller → List Addr
  | .control _ => []
  | .exit tmp => tmp.toList

/-- The nodes that a process can come to. -/
def Pc.nodes : Pc → List Addr
  | .create _ (.procCreateData _ a) | .create _ (.lockFailed a) | .create _ (.lockAdd a)
  | .mark _ (.lock a) | .mark _ (.unlockMarked a) | .mark _ (.unlock a)
  | .mark _ (.unlockLists a) | .read a _ _ | .write a _ _ => [a]
  | .remove k a _ => a :: k.nodes
  | .exit (.next pos) => pos.toList
  | _ => []

/-- Every node that can be reached has been allocated, and `sp` is free in the others. -/
structure Known (s : State ι) : Prop where
  lists : ∀ a ∈ s.lists, a < s.nextNode
  procs : ∀ e ∈ s.procs, e.2 < s.nextNode
  pcs : ∀ i, ∀ a ∈ (s.pc i).nodes, a < s.nextNode
  sp : ∀ a, s.nextNode ≤ a → (s.node a).sp = none

theorem nextOf_mem {a b : Addr} {l : List Addr} (h : nextOf a l = some b) : b ∈ l :=
  (List.dropWhile_sublist _).mem (List.mem_of_mem_tail (List.mem_of_mem_head? h))

theorem prevOf_mem {a b : Addr} {l : List Addr} (h : prevOf a l = some b) : b ∈ l :=
  (List.takeWhile_sublist _).mem (List.mem_of_mem_getLast? h)

theorem Caller.nodes_pc (k : Caller) : k.pc.nodes = k.nodes := by cases k <;> rfl

theorem mem_nodes_of_moves (hmoves : Moves s i act s' es) {a : Addr}
    (ha : a ∈ (s'.pc i).nodes) :
    a ∈ (s.pc i).nodes ∨ a ∈ s.lists ∨ a ∈ s.procs.map Prod.snd ∨
      a = s.nextNode ∧ s'.nextNode = s.nextNode + 1 := by
  cases hmoves with
  | vfree hpc =>
    simp only [State.goto, Function.update_self, Caller.nodes_pc] at ha
    simp [hpc, Pc.nodes, ha]
  | waitedControl =>
    simp only [State.goto, Function.update_self, Pc.nodes, Option.mem_toList] at ha
    exact .inr (.inl (List.mem_of_mem_head? ha))
  | exitRemove hpc =>
    simp only [State.goto, Function.update_self, Pc.nodes, Caller.nodes, List.mem_cons,
      Option.mem_toList] at ha
    rcases ha with rfl | ha
    · simp [hpc, Pc.nodes]
    · exact .inr (.inl (nextOf_mem ha))
  | controlRemove hpc =>
    simp only [State.goto, State.unlockLists, Function.update_self, Pc.nodes, Caller.nodes,
      List.mem_singleton] at ha
    simp [hpc, Pc.nodes, ha]
  | _ => simp_all [State.goto, State.setNode, State.unlock, State.unlockLists, Pc.nodes, State.Open]

theorem nextNode_le (hmoves : Moves s i act s' es) : s.nextNode ≤ s'.nextNode := by
  cases hmoves with
  | vmalloc => exact Nat.le_succ _
  | _ => exact le_rfl

theorem mem_lists_of_moves (hmoves : Moves s i act s' es) {a : Addr} (ha : a ∈ s'.lists) :
    a ∈ s.lists ∨ a ∈ (s.pc i).nodes := by
  cases hmoves with
  | lockAdd hpc =>
    rcases List.mem_append.mp ha with ha | ha
    · exact .inl ha
    · rw [hpc]
      exact .inr ha
  | unlink => exact .inl (List.mem_of_mem_erase ha)
  | _ => exact .inl ha

theorem mem_procs_of_moves (hmoves : Moves s i act s' es) {e : List UInt8 × Addr}
    (he : e ∈ s'.procs) : e ∈ s.procs ∨ e.2 ∈ (s.pc i).nodes := by
  cases hmoves with
  | register hpc =>
    rcases List.mem_append.mp he with he | he
    · exact .inl he
    · rw [hpc, List.mem_singleton.mp he]
      exact .inr (List.mem_singleton_self _)
  | unregister => exact .inl (List.mem_of_mem_erase he)
  | _ => exact .inl he

/-- Only nodes that the process has come to change, and the one that it gets. -/
theorem node_of_moves (hmoves : Moves s i act s' es) {a : Addr} (ha : a ∉ (s.pc i).nodes)
    (hnext : s'.nextNode ≤ a ∨ a < s.nextNode) : s'.node a = s.node a := by
  have hne {b : Addr} (hb : b ∈ (s.pc i).nodes) : a ≠ b := fun heq => ha (heq ▸ hb)
  cases hmoves with
  | vmalloc =>
    have hfresh : a ≠ s.nextNode := by
      rintro rfl
      rcases hnext with hle | hlt
      · exact absurd hle (Nat.not_succ_le_self _)
      · exact lt_irrefl _ hlt
    exact Function.update_of_ne hfresh ..
  | isMarked hpc | claim hpc | unlockMarked hpc | unlockClaimed hpc | cleanup hpc
  | unlockEmpty hpc | readLock hpc | readUnlock hpc | writeLock hpc | writeUnlock hpc =>
    exact Function.update_of_ne (hne (by rw [hpc]; exact List.mem_cons_self)) ..
  | _ => rfl

theorem Known.step (h : Known s) (hmoves : Moves s i act s' es) : Known s' := by
  have hnext := nextNode_le hmoves
  refine ⟨fun a ha => ?_, fun e he => ?_, fun j a ha => ?_, fun a ha => ?_⟩
  · refine lt_of_lt_of_le ?_ hnext
    rcases mem_lists_of_moves hmoves ha with ha | ha
    · exact h.lists a ha
    · exact h.pcs i a ha
  · refine lt_of_lt_of_le ?_ hnext
    rcases mem_procs_of_moves hmoves he with he | he
    · exact h.procs e he
    · exact h.pcs i _ he
  · rcases eq_or_ne j i with rfl | hji
    · rcases mem_nodes_of_moves hmoves ha with ha | ha | ha | ⟨rfl, hsucc⟩
      · exact (h.pcs j a ha).trans_le hnext
      · exact (h.lists a ha).trans_le hnext
      · obtain ⟨e, he, rfl⟩ := List.mem_map.mp ha
        exact (h.procs e he).trans_le hnext
      · rw [hsucc]
        exact Nat.lt_succ_self _
    · rw [pc_of_ne hmoves hji] at ha
      exact (h.pcs j a ha).trans_le hnext
  · have hold : s.nextNode ≤ a := hnext.trans ha
    have hnodes : a ∉ (s.pc i).nodes := fun hmem => absurd (h.pcs i a hmem) (not_lt.mpr hold)
    rw [node_of_moves hmoves hnodes (.inl ha)]
    exact h.sp a hold

variable [Fintype ι]

theorem known (h : (machine ι).Reachable s) : Known s := by
  refine reachable_of_moves ⟨?_, ?_, ?_, ?_⟩ (fun _ _ _ _ _ _ hI hmoves => hI.step hmoves) h
  · intro a ha
    rw [List.mem_singleton.mp ha]
    exact Nat.one_pos
  · intro e he
    rw [List.mem_singleton.mp he]
    exact Nat.one_pos
  · rintro i a ⟨⟩
  · exact fun _ _ => rfl

end Known

section Held

inductive Lock where
  | lists
  | node (a : Addr)
deriving DecidableEq, Repr

omit [DecidableEq ι] in
def State.holder (s : State ι) : Lock → Option ι
  | .lists => s.spLists
  | .node a => (s.node a).sp

/-- Between `spin_lock` and `spin_unlock` of `sp_lists`. -/
def Pc.holdsLists : Pc → Bool
  | .mark _ (.lockLists _) | .read _ _ .lockLists => false
  | .create _ .unlock | .mark _ _ | .remove _ _ .unlockLists | .read _ _ _ => true
  | _ => false

/-- Between `spin_lock` and `spin_unlock` of the `sp` of an entry. -/
def Pc.holdsNode : Pc → Option Addr
  | .mark _ (.unlockMarked a) | .mark _ (.unlock a) | .remove _ a .unlock
  | .read a _ (.unlock _) | .write a _ .unlock => some a
  | _ => none

def Pc.holds (pc : Pc) : Lock → Bool
  | .lists => pc.holdsLists
  | .node a => pc.holdsNode == some a

/-- `control_create` takes `sp_lists` after `proc_create_data` has returned `NULL`. -/
def State.leaks (s : State ι) (p : ι × Act) : Bool :=
  match s.pc p.1, p.2 with
  | .create _ (.lockFailed _), .run => s.spLists.isNone
  | _, _ => false

omit [DecidableEq ι] in
theorem holder_of_lists {x : Option ι} (hlists : s'.spLists = x) (hnode : s'.node = s.node) :
    s'.holder = Function.update s.holder .lists x := by
  funext l
  cases l with
  | lists => rw [Function.update_self, State.holder, hlists]
  | node a => rw [Function.update_of_ne (by simp), State.holder, State.holder, hnode]

omit [DecidableEq ι] in
theorem holder_of_node {a : Addr} {n : Node ι} (hlists : s'.spLists = s.spLists)
    (hnode : s'.node = Function.update s.node a n) :
    s'.holder = Function.update s.holder (.node a) n.sp := by
  funext l
  cases l with
  | lists => rw [Function.update_of_ne (by simp), State.holder, State.holder, hlists]
  | node b =>
    rw [State.holder, hnode]
    rcases eq_or_ne b a with rfl | hba
    · rw [Function.update_self, Function.update_self]
    · rw [Function.update_of_ne hba, Function.update_of_ne (by simpa using hba), State.holder]

theorem holds_of_lists {pc pc' : Pc} {b : Bool} (hlists : pc'.holdsLists = b)
    (hnode : pc'.holdsNode = pc.holdsNode) : pc'.holds = Function.update pc.holds .lists b := by
  funext l
  cases l with
  | lists => rw [Function.update_self, Pc.holds, hlists]
  | node a => rw [Function.update_of_ne (by simp), Pc.holds, Pc.holds, hnode]

theorem holds_of_take {pc pc' : Pc} {a : Addr} (hlists : pc'.holdsLists = pc.holdsLists)
    (hnone : pc.holdsNode = none) (hsome : pc'.holdsNode = some a) :
    pc'.holds = Function.update pc.holds (.node a) true := by
  funext l
  cases l with
  | lists => rw [Function.update_of_ne (by simp), Pc.holds, Pc.holds, hlists]
  | node b =>
    rw [Pc.holds, hsome]
    rcases eq_or_ne b a with rfl | hba
    · simp
    · simp [hba, hba.symm, Pc.holds, hnone]

theorem holds_of_drop {pc pc' : Pc} {a : Addr} (hlists : pc'.holdsLists = pc.holdsLists)
    (hsome : pc.holdsNode = some a) (hnone : pc'.holdsNode = none) :
    pc'.holds = Function.update pc.holds (.node a) false := by
  have hself : pc'.holds (.node a) = false := by rw [Pc.holds, hnone]; rfl
  rw [holds_of_take hlists.symm hnone hsome, Function.update_idem, ← hself,
    Function.update_eq_self]

/-- The step changes the locks, and what `i` knows of them, by one lock at most. -/
def LockStep (s : State ι) (i : ι) (s' : State ι) : Prop :=
  SpinLock.Moves i s.holder (s.pc i).holds s'.holder (s'.pc i).holds

omit [DecidableEq ι] in
theorem LockStep.keep (hholder : s'.holder = s.holder)
    (hlists : (s'.pc i).holdsLists = (s.pc i).holdsLists)
    (hnode : (s'.pc i).holdsNode = (s.pc i).holdsNode) : LockStep s i s' := by
  have hholds : (s'.pc i).holds = (s.pc i).holds := by
    funext l
    cases l with
    | lists => exact hlists
    | node a => rw [Pc.holds, Pc.holds, hnode]
  rw [LockStep, hholder, hholds]
  exact .keep

omit [DecidableEq ι] in
/-- A new node has a free lock, as its memory had. -/
theorem LockStep.newNode {a : Addr} {n : Node ι} (hsp : (s.node a).sp = n.sp)
    (hlists : s'.spLists = s.spLists) (hnode : s'.node = Function.update s.node a n)
    (hsame : (s'.pc i).holdsLists = (s.pc i).holdsLists)
    (hsame' : (s'.pc i).holdsNode = (s.pc i).holdsNode) : LockStep s i s' := by
  refine .keep ?_ hsame hsame'
  rw [holder_of_node hlists hnode, ← hsp]
  exact Function.update_eq_self ..

omit [DecidableEq ι] in
theorem LockStep.takeLists (hsp : s.spLists = none) (hlists : s'.spLists = some i)
    (hnode : s'.node = s.node) (hpc : (s'.pc i).holdsLists = true)
    (hsame : (s'.pc i).holdsNode = (s.pc i).holdsNode) : LockStep s i s' := by
  rw [LockStep, holder_of_lists hlists hnode, holds_of_lists hpc hsame]
  exact .take Lock.lists hsp

omit [DecidableEq ι] in
theorem LockStep.dropLists (hheld : (s.pc i).holdsLists = true) (hlists : s'.spLists = none)
    (hnode : s'.node = s.node) (hpc : (s'.pc i).holdsLists = false)
    (hsame : (s'.pc i).holdsNode = (s.pc i).holdsNode) : LockStep s i s' := by
  rw [LockStep, holder_of_lists hlists hnode, holds_of_lists hpc hsame]
  exact .drop Lock.lists hheld

omit [DecidableEq ι] in
theorem LockStep.takeNode {a : Addr} {n : Node ι} (hsp : (s.node a).sp = none)
    (hn : n.sp = some i) (hlists : s'.spLists = s.spLists)
    (hnode : s'.node = Function.update s.node a n)
    (hsame : (s'.pc i).holdsLists = (s.pc i).holdsLists)
    (hnone : (s.pc i).holdsNode = none) (hsome : (s'.pc i).holdsNode = some a) :
    LockStep s i s' := by
  rw [LockStep, holder_of_node hlists hnode, hn, holds_of_take hsame hnone hsome]
  exact .take (Lock.node a) hsp

omit [DecidableEq ι] in
theorem LockStep.dropNode {a : Addr} {n : Node ι} (hn : n.sp = none)
    (hlists : s'.spLists = s.spLists) (hnode : s'.node = Function.update s.node a n)
    (hsame : (s'.pc i).holdsLists = (s.pc i).holdsLists)
    (hsome : (s.pc i).holdsNode = some a) (hnone : (s'.pc i).holdsNode = none) :
    LockStep s i s' := by
  rw [LockStep, holder_of_node hlists hnode, hn, holds_of_drop hsame hsome hnone]
  exact .drop (Lock.node a) (by simp [Pc.holds, hsome])

theorem lockStep (hknown : Known s) (hmoves : Moves s i act s' es)
    (hleak : s.leaks (i, act) = false) : LockStep s i s' := by
  cases hmoves with
  | lockFailed hpc hsp => simp [State.leaks, hpc, hsp] at hleak
  | lockAdd hpc hsp | notFound hpc hsp | found hpc hsp | unlink hpc hsp | readLockLists hpc hsp =>
    refine .takeLists hsp rfl rfl ?_ ?_ <;>
      simp [State.goto, hpc, Pc.holdsLists, Pc.holdsNode]
  | unlockAdd hpc | unlockNotFound hpc | unlockListsMarked hpc | controlRemove hpc
  | unlockUnlinked hpc | readUnlockLists hpc =>
    refine .dropLists ?_ rfl rfl ?_ ?_ <;>
      simp [State.goto, State.unlockLists, hpc, Pc.holdsLists, Pc.holdsNode]
  | isMarked hpc hsp | claim hpc hsp | cleanup hpc hsp | readLock hpc hsp | writeLock hpc hsp =>
    refine .takeNode hsp ?_ rfl rfl ?_ ?_ ?_ <;>
      simp [State.goto, State.setNode, hpc, Pc.holdsLists, Pc.holdsNode]
  | unlockMarked hpc | unlockClaimed hpc | unlockEmpty hpc | readUnlock hpc | writeUnlock hpc =>
    refine .dropNode ?_ rfl rfl ?_ ?_ ?_ <;>
      simp [State.goto, State.unlock, State.setNode, hpc, Pc.holdsLists, Pc.holdsNode]
  | spinLists | spin => exact .keep rfl rfl rfl
  | vmalloc hpc =>
    refine .newNode (hknown.sp _ le_rfl) rfl rfl ?_ ?_ <;>
      simp [State.goto, State.setNode, hpc, Pc.holdsLists, Pc.holdsNode]
  | @vfree k a hpc =>
    refine .keep rfl ?_ ?_ <;>
      cases k <;> simp [State.goto, hpc, Caller.pc, Pc.holdsLists, Pc.holdsNode]
  | @callWrite _ _ _ p hpc _ hstarts =>
    refine .keep rfl ?_ ?_
    · simp [State.goto, hpc, Pc.holdsLists]
    · cases p with
      | vmalloc | lock => simp [State.goto, hpc, Pc.holdsNode]
      | unlock => cases hstarts
  | answer hpc | callCreate hpc | callRemove hpc | callRead hpc | callExit hpc
  | createFailed hpc | register hpc | missing hpc | unregister hpc | waited hpc | removeControl hpc
  | waitedControl hpc | exited hpc | exitRemove hpc | newItem hpc | ret hpc =>
    refine .keep rfl ?_ ?_ <;> simp [State.goto, hpc, Pc.holdsLists, Pc.holdsNode]

theorem holds_of_moves (hmoves : Moves s i act s' es) :
    (fun j => (s'.pc j).holds) =
      Function.update (fun j => (s.pc j).holds) i (s'.pc i).holds :=
  map_pc_of_moves Pc.holds hmoves

theorem lockFailed_of_leaks (hmoves : Moves s i act s' es) (hleak : s.leaks (i, act) = true) :
    s.spLists = none ∧ s'.holder = Function.update s.holder .lists (some i) ∧
      (s'.pc i).holds = (s.pc i).holds ∧ ∃ w : Write, s'.pc i = .ret .control w.done := by
  unfold State.leaks at hleak
  split at hleak
  case h_1 hpc hact =>
    simp only at hpc hact
    have hsp := Option.isNone_iff_eq_none.mp hleak
    subst hact
    cases hmoves with
    | lockFailed hpc' =>
      refine ⟨hsp, holder_of_lists rfl rfl, ?_, _, Function.update_self ..⟩
      funext l
      cases l <;> simp [State.goto, hpc', Pc.holds, Pc.holdsLists, Pc.holdsNode]
    | spinLists hne => exact absurd hsp hne
    | spin htarget =>
      rw [hpc] at htarget
      cases htarget
    | _ => simp_all
  case h_2 => cases hleak

variable [Fintype ι]

/-- A process in the part of its program that a lock guards holds the lock. -/
theorem sound_locks (h : (machine ι).Reachable s) :
    SpinLock.Sound s.holder fun i => (s.pc i).holds := by
  refine reachable_of_moves
    (I := fun s : State ι => SpinLock.Sound s.holder fun i => (s.pc i).holds) ?_ ?_ h
  · rintro i (_ | a) hl <;> cases hl
  · intro s i act s' es hs hI hmoves
    rw [holds_of_moves hmoves]
    cases hleak : s.leaks (i, act) with
    | false => exact hI.step (lockStep (known hs) hmoves hleak)
    | true =>
      obtain ⟨hsp, hholder, hholds, -⟩ := lockFailed_of_leaks hmoves hleak
      rw [hholder, hholds, Function.update_eq_self]
      exact Sound.leak hI (l := Lock.lists) hsp i

/-- The `sp` of an entry is never lost. -/
theorem owned_node (h : (machine ι).Reachable s) (a : Addr) :
    Owned s.holder (fun i => (s.pc i).holds) (.node a) := by
  refine reachable_of_moves
    (I := fun s : State ι => Owned s.holder (fun i => (s.pc i).holds) (.node a)) nofun ?_ h
  intro s i act s' es hs hI hmoves
  rw [holds_of_moves hmoves]
  cases hleak : s.leaks (i, act) with
  | false => exact hI.step (lockStep (known hs) hmoves hleak)
  | true =>
    obtain ⟨-, hholder, hholds, -⟩ := lockFailed_of_leaks hmoves hleak
    rw [hholder, hholds, Function.update_eq_self]
    intro j hj
    rw [Function.update_of_ne (by simp)] at hj
    exact hI j hj

/-- All locks are in order if `sp_lists` is. -/
theorem agree_of_lists (h : (machine ι).Reachable s)
    (hlists : ∀ k, s.spLists = some k → (s.pc k).holdsLists = true) :
    Agree s.holder fun i => (s.pc i).holds := by
  refine agree_iff.mpr ⟨sound_locks h, fun l => ?_⟩
  cases l with
  | lists => exact hlists
  | node a => exact owned_node h a

/-- A process that holds `sp_lists` and does not know keeps it. -/
theorem lost_of_moves (h : (machine ι).Reachable s) (hmoves : Moves s i act s' es) {k : ι}
    (hsp : s.spLists = some k) (hk : (s.pc k).holdsLists = false) :
    s'.spLists = some k ∧ (s'.pc k).holdsLists = false := by
  have hleak : s.leaks (i, act) = false := by
    apply Bool.eq_false_iff.mpr
    intro hleak
    rw [(lockFailed_of_leaks hmoves hleak).1] at hsp
    cases hsp
  have hstays := (sound_locks h).stays (show s.holder .lists = some k from hsp) hk
    (lockStep (known h) hmoves hleak)
  refine ⟨hstays.1, ?_⟩
  have hholds := congrFun (congrFun (holds_of_moves hmoves) k) .lists
  exact hholds.trans hstays.2

end Held

section Release

variable [Fintype ι]

/-- The processes `is` run one after the other, one step each. -/
def State.runs (s : State ι) (is : List ι) : Option (State ι × List (ι × Event)) :=
  (machine ι).exec s (is.map fun i => (i, .run))

/-- The lock can be freed by processes that only go on with what they are doing. -/
def State.Releasable (s : State ι) (l : Lock) : Prop :=
  ∃ is s' tr, s.runs is = some (s', tr) ∧ s'.holder l = none

/-- A process that holds a lock takes its next step. -/
def Helps (s s' : State ι) : Prop :=
  ∃ i l es, (s.pc i).holds l = true ∧ step s i .run = some (s', es)

theorem runs_of_helps (h : ReflTransGen Helps s s') : ∃ is tr, s.runs is = some (s', tr) := by
  induction h using ReflTransGen.head_induction_on with
  | refl => exact ⟨[], [], rfl⟩
  | @head s u hstep _ ih =>
    obtain ⟨i, l, es, -, hstep⟩ := hstep
    obtain ⟨is, tr, hruns⟩ := ih
    refine ⟨i :: is, es.map (Prod.mk i) ++ tr, ?_⟩
    have hmachine : (machine ι).step s (i, .run) = some (u, es.map (Prod.mk i)) := by
      simp [machine, hstep]
    rw [State.runs, List.map_cons, Machine.exec_cons hmachine]
    rw [State.runs] at hruns
    rw [hruns]
    rfl

theorem pc_of_helps {u : State ι} (hstep : Helps s u) {j : ι}
    (hj : ∀ l, (s.pc j).holds l = false) : u.pc j = s.pc j := by
  obtain ⟨i, l, es, hi, hstep⟩ := hstep
  refine pc_of_ne (moves_of_step hstep) ?_
  rintro rfl
  rw [hj l] at hi
  cases hi

/-- Who holds no lock stays where he is. -/
theorem pc_of_helped (h : ReflTransGen Helps s s') {j : ι}
    (hj : ∀ l, (s.pc j).holds l = false) : s'.pc j = s.pc j := by
  induction h with
  | refl => rfl
  | tail _ hstep ih =>
    rw [← ih] at hj ⊢
    exact pc_of_helps hstep hj

/-- The next operation is the `spin_unlock` of `sp_lists`. -/
def Pc.unlocksLists : Pc → Bool
  | .create _ .unlock | .mark _ .unlockNotFound | .mark _ .unlockListsMarked
  | .mark _ (.unlockLists _) | .remove _ _ .unlockLists | .read _ _ (.unlockLists _) => true
  | _ => false

theorem holdsLists_of_unlocksLists {pc : Pc} (h : pc.unlocksLists = true) :
    pc.holdsLists = true := by
  unfold Pc.unlocksLists at h
  split at h <;> first | rfl | cases h

theorem drop_lists (h : (s.pc i).unlocksLists = true) :
    ∃ pc es, step s i .run = some ((s.goto i pc).unlockLists, es) := by
  unfold Pc.unlocksLists at h
  split at h
  case h_7 => cases h
  all_goals
    have hpc := ‹s.pc i = _›
    simp only [step, hpc, State.create, State.mark, State.remove, State.read]
    exact ⟨_, _, rfl⟩

/-- Who holds the `sp` of an entry drops it with his next step. -/
theorem drop_node {a : Addr} (h : (s.pc i).holdsNode = some a) :
    ∃ pc es, step s i .run = some ((s.goto i pc).unlock a, es) ∧
      ((s.pc i).holdsLists = true → pc.unlocksLists = true) := by
  unfold Pc.holdsNode at h
  split at h <;> cases h
  all_goals
    have hpc := ‹s.pc i = _›
    simp only [step, hpc, State.mark, State.remove, State.read, State.write]
    refine ⟨_, _, rfl, ?_⟩
    simp [Pc.holdsLists, Pc.unlocksLists]

theorem take_node {a : Addr} (h : (s.pc i).holdsLists = true) (htarget : (s.pc i).target = some a)
    (hsp : (s.node a).sp = none) :
    ∃ pc n es, step s i .run = some ((s.goto i pc).setNode a n, es) ∧ pc.holdsLists = true ∧
      pc.holdsNode = some a := by
  unfold Pc.target at htarget
  split at htarget <;> cases htarget
  case h_1 w hpc =>
    simp only [step, hpc, State.mark, State.lock, hsp, if_true]
    split <;> exact ⟨_, _, _, rfl, rfl, rfl⟩
  case h_3 q hpc =>
    simp only [step, hpc, State.read, State.lock, hsp, if_true]
    exact ⟨_, _, _, rfl, rfl, rfl⟩
  all_goals
    have hpc := ‹s.pc i = _›
    rw [hpc] at h
    cases h

/-- Inside `sp_lists` a process unlocks something next, or it locks the `sp` of an entry. -/
theorem holdsLists_cases {pc : Pc} (h : pc.holdsLists = true) :
    pc.unlocksLists = true ∨ (∃ a, pc.holdsNode = some a) ∨
      pc.holdsNode = none ∧ ∃ a, pc.target = some a := by
  unfold Pc.holdsLists at h
  split at h
  case h_1 | h_2 | h_7 => cases h
  case h_3 | h_5 => exact .inl rfl
  case h_4 w c hne =>
    cases c with
    | lockLists name => exact absurd rfl (hne name)
    | unlockNotFound | unlockListsMarked | unlockLists => exact .inl rfl
    | unlockMarked | unlock => exact .inr (.inl ⟨_, rfl⟩)
    | lock => exact .inr (.inr ⟨rfl, _, rfl⟩)
  case h_6 a q c hne =>
    cases c with
    | lockLists => exact absurd rfl hne
    | unlockLists => exact .inl rfl
    | unlock => exact .inr (.inl ⟨_, rfl⟩)
    | lock => exact .inr (.inr ⟨rfl, _, rfl⟩)

theorem frees_of_unlocksLists (h : (s.pc i).unlocksLists = true) :
    ∃ u, Helps s u ∧ u.spLists = none := by
  obtain ⟨pc, es, hstep⟩ := drop_lists h
  exact ⟨_, ⟨i, .lists, es, holdsLists_of_unlocksLists h, hstep⟩, rfl⟩

theorem frees_of_holdsNode {a : Addr} (h : (s.pc i).holdsLists = true)
    (hnode : (s.pc i).holdsNode = some a) : ∃ u, ReflTransGen Helps s u ∧ u.spLists = none := by
  obtain ⟨pc, es, hstep, hpc⟩ := drop_node hnode
  obtain ⟨u, hu, hfree⟩ := frees_of_unlocksLists (s := (s.goto i pc).unlock a) (i := i)
    (by simp [State.goto, State.unlock, State.setNode, hpc h])
  exact ⟨u, .head ⟨i, .lists, es, h, hstep⟩ (.single hu), hfree⟩

theorem frees_of_target {a : Addr} (h : (s.pc i).holdsLists = true)
    (htarget : (s.pc i).target = some a) (hsp : (s.node a).sp = none) :
    ∃ u, ReflTransGen Helps s u ∧ u.spLists = none := by
  obtain ⟨pc, n, es, hstep, hlists, hnode⟩ := take_node h htarget hsp
  obtain ⟨u, hu, hfree⟩ := frees_of_holdsNode (s := (s.goto i pc).setNode a n) (i := i) (a := a)
    (by simp [State.goto, State.setNode, hlists]) (by simp [State.goto, State.setNode, hnode])
  exact ⟨u, .head ⟨i, .lists, es, h, hstep⟩ hu, hfree⟩

/-- The `sp` of an entry comes free, and only its holder moves. -/
theorem frees_node (hagree : Agree s.holder fun i => (s.pc i).holds) (a : Addr) :
    ∃ u, ReflTransGen Helps s u ∧ (u.node a).sp = none ∧
      ∀ k, (s.pc k).holdsNode ≠ some a → u.pc k = s.pc k := by
  cases hsp : (s.node a).sp with
  | none => exact ⟨s, .refl, hsp, fun _ _ => rfl⟩
  | some j =>
    have hheld := (hagree j (.node a)).mpr hsp
    have hj : (s.pc j).holdsNode = some a := beq_iff_eq.mp hheld
    obtain ⟨pc, es, hstep, -⟩ := drop_node hj
    refine ⟨_, .single ⟨j, _, es, hheld, hstep⟩, ?_, fun k hk => ?_⟩
    · simp [State.unlock, State.setNode]
    · refine Function.update_of_ne ?_ ..
      rintro rfl
      exact hk hj

theorem frees_lists (hagree : Agree s.holder fun i => (s.pc i).holds) :
    ∃ u, ReflTransGen Helps s u ∧ u.spLists = none := by
  cases hsp : s.spLists with
  | none => exact ⟨s, .refl, hsp⟩
  | some i =>
    have hi : (s.pc i).holdsLists = true := (hagree i .lists).mpr hsp
    rcases holdsLists_cases hi with hunlocks | ⟨a, hnode⟩ | ⟨hnone, a, htarget⟩
    · obtain ⟨u, hu, hfree⟩ := frees_of_unlocksLists hunlocks
      exact ⟨u, .single hu, hfree⟩
    · exact frees_of_holdsNode hi hnode
    · -- who holds the inner lock drops it, and `i` stays where it is
      obtain ⟨u, hu, hfree, hpc⟩ := frees_node hagree a
      have hpci : u.pc i = s.pc i := hpc i (by rw [hnone]; exact (Option.some_ne_none a).symm)
      obtain ⟨v, hv, hlists⟩ := frees_of_target (by rwa [hpci]) (by rwa [hpci]) hfree
      exact ⟨v, hu.trans hv, hlists⟩

theorem releasable (hagree : Agree s.holder fun i => (s.pc i).holds) (l : Lock) :
    s.Releasable l := by
  cases l with
  | lists =>
    obtain ⟨u, hu, hfree⟩ := frees_lists hagree
    obtain ⟨is, tr, hruns⟩ := runs_of_helps hu
    exact ⟨is, u, tr, hruns, hfree⟩
  | node a =>
    obtain ⟨u, hu, hfree, -⟩ := frees_node hagree a
    obtain ⟨is, tr, hruns⟩ := runs_of_helps hu
    exact ⟨is, u, tr, hruns, hfree⟩

end Release

section Discipline

/-- Outside, or about to return. -/
def Pc.outside : Pc → Bool
  | .user | .ret _ _ => true
  | _ => false

variable [Fintype ι]

structure State.LocksOk (s : State ι) : Prop where
  returned : ∀ i, (s.pc i).outside = true → ∀ l, s.holder l ≠ some i
  idle : (∀ i, s.pc i = .user) → ∀ l, s.holder l = none
  released : ∀ l, s.holder l ≠ none → s.Releasable l

theorem locksOk_of_agree (h : Agree s.holder fun i => (s.pc i).holds) : s.LocksOk := by
  have hreturned : ∀ i, (s.pc i).outside = true → ∀ l, s.holder l ≠ some i := by
    intro i hi l hl
    have hheld := (h i l).mpr hl
    unfold Pc.outside at hi
    split at hi
    case h_1 hpc | h_2 hpc =>
      simp only [hpc] at hheld
      cases l <;> cases hheld
    case h_3 => cases hi
  refine ⟨hreturned, fun hidle l => ?_, fun l _ => releasable h l⟩
  cases hl : s.holder l with
  | none => rfl
  | some i =>
    have hi : (s.pc i).outside = true := by rw [hidle i]; rfl
    exact absurd hl (hreturned i hi l)

theorem not_locksOk_of_leaks (hmoves : Moves s i act s' es)
    (hleak : s.leaks (i, act) = true) : ¬s'.LocksOk := by
  intro hok
  obtain ⟨-, hholder, -, w, hpc⟩ := lockFailed_of_leaks hmoves hleak
  have hi : (s'.pc i).outside = true := by rw [hpc]; rfl
  apply hok.returned i hi .lists
  rw [hholder, Function.update_self]

/-- The locks are in order throughout a run in which no `control_create` takes `sp_lists` after
`proc_create_data` has returned `NULL`, and only there. -/
theorem locks_in_order {as : List (ι × Act)} {tr : List (ι × Event)}
    (h : (machine ι).Run as s tr) :
    (machine ι).Always (fun s _ => s.LocksOk) as ↔
      (machine ι).Along (fun s p => s.leaks p = false) (machine ι).init as := by
  refine h.always_iff_along_of_invariant
    (I := fun s _ => (machine ι).Reachable s ∧ Agree s.holder fun i => (s.pc i).holds) ?_ ?_ ?_ ?_
  · refine ⟨Machine.run_nil.reachable, ?_⟩
    rintro i (_ | a) <;> simp [machine, State.holder, Pc.holds, Pc.holdsLists, Pc.holdsNode]
  · rintro s t p s' tr' ⟨hs, hagree⟩ hleak hstep
    obtain ⟨es, -, hmoves⟩ := moves_of_machine hstep
    refine ⟨hs.step hstep, ?_⟩
    rw [holds_of_moves hmoves]
    exact hagree.step (lockStep (known hs) hmoves hleak)
  · exact fun s t hI => locksOk_of_agree hI.2
  · rintro s t p s' tr' - hleak hstep
    obtain ⟨es, -, hmoves⟩ := moves_of_machine hstep
    exact not_locksOk_of_leaks hmoves (Bool.of_not_eq_false hleak)

/-- A process creates an entry under a name that is taken. -/
def takenName : List (Unit × Act) :=
  ((), .call (.control 0 (bytes "create default") true (bytes "create default"))) ::
    List.replicate 4 ((), .run)

/-- Nobody is inside, and `sp_lists` is taken. -/
theorem takenName_leaks :
    ∃ s tr, (machine Unit).Run takenName s tr ∧ (∀ i, s.pc i = .user) ∧
      s.holder .lists = some () ∧ ¬s.LocksOk := by
  have heval : ((machine Unit).exec (machine Unit).init takenName).map
      (fun r => (r.1.pc (), r.1.spLists)) = some (.user, some ()) := by
    decide +kernel
  obtain ⟨s, tr, hrun, hs⟩ := Machine.exists_run_of_eval heval
  obtain ⟨hpc, hsp⟩ := Prod.mk.inj hs
  refine ⟨s, tr, hrun, fun _ => hpc, hsp, fun hok => ?_⟩
  exact hok.returned () (by rw [hpc]; rfl) .lists hsp

theorem locks_in_order_takenName :
    ∃ s tr, (machine Unit).Run (takenName.take 3) s tr ∧
      (machine Unit).Always (fun s _ => s.LocksOk) (takenName.take 3) := by
  have heval : ((machine Unit).exec (machine Unit).init (takenName.take 3)).map
      (fun _ => true) = some true := by
    decide +kernel
  obtain ⟨s, tr, hrun, -⟩ := Machine.exists_run_of_eval heval
  exact ⟨s, tr, hrun, (locks_in_order hrun).mpr (by decide +kernel)⟩

end Discipline

end LinuxInternals.Multilist
