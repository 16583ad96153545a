import LinuxInternals.Lib.Ownership
import LinuxInternals.Multilist.Items
import LinuxInternals.Multilist.Locks
import LinuxInternals.Multilist.Names

/-!
# Who owns an entry

An entry is in the hands of the process that creates it until it is in `list_of_proc_lists`, and
in the hands of the process that removes it from the mark on. In between it belongs to
nobody, and anybody may read and write it. The mark and the wait in `remove_proc_entry` see to
it that there is one remover, and that he is alone with the entry when he frees it.
-/

namespace LinuxInternals.Multilist

open Text Lifetime Ownership

section Exit

variable {ι : Type} [DecidableEq ι] {s s' : State ι} {i : ι} {act : Act} {es : List Event}

def Caller.exits : Caller → Bool
  | .control _ => false
  | .exit _ => true

/-- `exit_modlist_module` is running. -/
def Pc.exits : Pc → Bool
  | .exit _ => true
  | .remove k _ _ => k.exits
  | _ => false

/-- Nobody can call `control_write` any more. -/
def Pc.closes : Pc → Bool
  | .exit .removeProcEntry => false
  | .exit _ => true
  | .remove k _ _ => k.exits
  | _ => false

/-- `control_write` has returned to all its callers. -/
def Pc.alone : Pc → Bool
  | .exit (.next _) => true
  | .remove k _ _ => k.exits
  | _ => false

structure Leaving (s : State ι) : Prop where
  exited : ∀ i, (s.pc i).exits = true → s.exited = true
  unique : ∀ i j, (s.pc i).exits = true → (s.pc j).exits = true → i = j
  closed : ∀ i, (s.pc i).closes = true → s.control = false
  alone : ∀ i, (s.pc i).alone = true → ∀ j, (s.pc j).controls = false

attribute [local simp] State.goto State.setNode State.unlock State.unlockLists

theorem controls_of_moves (hmoves : Moves s i act s' es) (h : (s'.pc i).controls = true) :
    (s.pc i).controls = true ∨ s.control = true := by
  cases hmoves with
  | @answer _ hd _ _ hopen =>
    cases hd with
    | control => exact .inr hopen
    | entry a => simp [Pc.controls, Handler.controls] at h
  | @vfree k => cases k <;> simp_all [Pc.controls, Caller.controls, Caller.pc, Handler.controls]
  | _ => simp_all [Pc.controls, Caller.controls, Handler.controls]

theorem control_of_moves (hmoves : Moves s i act s' es) (h : s'.control = true) :
    s.control = true := by
  cases hmoves with
  | removeControl => cases h
  | _ => exact h

theorem exits_of_moves (hmoves : Moves s i act s' es) (h : (s'.pc i).exits = true) :
    ((s.pc i).exits = true ∧ s'.exited = s.exited) ∨ (s.exited = false ∧ s'.exited = true) := by
  cases hmoves with
  | @vfree k => cases k <;> simp_all [Pc.exits, Caller.exits, Caller.pc]
  | _ => simp_all [Pc.exits, Caller.exits]

theorem exited_of_moves (hmoves : Moves s i act s' es) (h : s.exited = true) :
    s'.exited = true := by
  cases hmoves with
  | callExit => rfl
  | _ => exact h

theorem closes_of_moves (hmoves : Moves s i act s' es) (h : (s'.pc i).closes = true) :
    (s.pc i).closes = true ∨ s'.control = false := by
  cases hmoves with
  | @vfree k => cases k <;> simp_all [Pc.closes, Caller.exits, Caller.pc]
  | _ => simp_all [Pc.closes, Caller.exits]

theorem alone_of_moves (hmoves : Moves s i act s' es) (h : (s'.pc i).alone = true) :
    (s.pc i).alone = true ∨ (s.pc i).closes = true ∧ ∀ j, (s.pc j).controls = false := by
  cases hmoves with
  | @vfree k => cases k <;> simp_all [Pc.alone, Pc.closes, Caller.exits, Caller.pc]
  | _ => simp_all [Pc.alone, Pc.closes, Caller.exits]

theorem Pc.exits_of_closes {pc : Pc} (h : pc.closes = true) : pc.exits = true := by
  unfold Pc.closes at h
  split at h <;> first | rfl | exact h | cases h

theorem Pc.closes_of_alone {pc : Pc} (h : pc.alone = true) : pc.closes = true := by
  unfold Pc.alone at h
  split at h <;> first | rfl | exact h | cases h

theorem Leaving.step (h : Leaving s) (hmoves : Moves s i act s' es) : Leaving s' := by
  have hne : ∀ j, j ≠ i → s'.pc j = s.pc j := fun j hji => pc_of_ne hmoves hji
  -- a second process in `exit_modlist_module` would have found `exited` set
  have hother : ∀ j, j ≠ i → (s.pc j).exits = true → (s'.pc i).exits = false := by
    intro j hji hj
    apply Bool.eq_false_iff.mpr
    intro hi
    rcases exits_of_moves hmoves hi with ⟨hi, -⟩ | ⟨hexited, -⟩
    · exact hji (h.unique j i hj hi)
    · rw [h.exited j hj] at hexited
      cases hexited
  refine ⟨fun j hj => ?_, fun j k hj hk => ?_, fun j hj => ?_, fun j hj k => ?_⟩
  · rcases eq_or_ne j i with rfl | hji
    · rcases exits_of_moves hmoves hj with ⟨hj, hsame⟩ | ⟨-, hexited⟩
      · rw [hsame]
        exact h.exited j hj
      · exact hexited
    · rw [hne j hji] at hj
      exact exited_of_moves hmoves (h.exited j hj)
  · rcases eq_or_ne j i with rfl | hji <;> rcases eq_or_ne k j with rfl | hkj
    · rfl
    · rw [hne k hkj] at hk
      rw [hother k hkj hk] at hj
      cases hj
    · rfl
    · rw [hne j hji] at hj
      rcases eq_or_ne k i with rfl | hki
      · rw [hother j hji hj] at hk
        cases hk
      · rw [hne k hki] at hk
        exact h.unique j k hj hk
  · apply Bool.eq_false_iff.mpr
    intro hcontrol
    have hold := control_of_moves hmoves hcontrol
    rcases eq_or_ne j i with rfl | hji
    · rcases closes_of_moves hmoves hj with hj | hclosed
      · rw [h.closed j hj] at hold
        cases hold
      · rw [hclosed] at hcontrol
        cases hcontrol
    · rw [hne j hji] at hj
      rw [h.closed j hj] at hold
      cases hold
  · have halone : (∃ j, (s.pc j).closes = true) ∧ ∀ k, (s.pc k).controls = false := by
      rcases eq_or_ne j i with rfl | hji
      · rcases alone_of_moves hmoves hj with hj | ⟨hcloses, hall⟩
        · exact ⟨⟨j, Pc.closes_of_alone hj⟩, h.alone j hj⟩
        · exact ⟨⟨j, hcloses⟩, hall⟩
      · rw [hne j hji] at hj
        exact ⟨⟨j, Pc.closes_of_alone hj⟩, h.alone j hj⟩
    obtain ⟨⟨m, hm⟩, hall⟩ := halone
    apply Bool.eq_false_iff.mpr
    intro hk
    rcases eq_or_ne k i with rfl | hki
    · rcases controls_of_moves hmoves hk with hk | hcontrol
      · rw [hall k] at hk
        cases hk
      · rw [h.closed m hm] at hcontrol
        cases hcontrol
    · rw [hne k hki, hall k] at hk
      cases hk

theorem leaving [Fintype ι] (h : (machine ι).Reachable s) : Leaving s := by
  refine reachable_of_moves ⟨?_, ?_, ?_, ?_⟩ (fun _ _ _ _ _ _ hI hmoves => hI.step hmoves) h
  · intro i hi
    cases hi
  · intro i j hi
    cases hi
  · intro i hi
    cases hi
  · intro i hi
    cases hi

end Exit

/-- How far the owner of an entry has come. -/
inductive Phase where
  | built
  | published
  | claimed
  | closing
  | draining
  | drained
  | unlinked
deriving DecidableEq, Repr

namespace Phase

def stage : Phase → Stage
  | built | published | claimed => .live
  | closing | draining | drained => .removing
  | unlinked => .unlinked

def onList : Phase → Bool
  | claimed | closing | draining | drained => true
  | _ => false

/-- The entry is in `/proc`. -/
def isOpen : Phase → Bool
  | published | claimed | closing => true
  | _ => false

/-- A handler may be running on the entry. -/
def serving : Phase → Bool
  | published | claimed | closing | draining => true
  | _ => false

/-- The owner is there to remove the entry. -/
def taken : Phase → Bool
  | built | published => false
  | _ => true

end Phase

section Entries

variable {ι : Type}

def stage : Status ι Phase → Stage
  | .fresh => .fresh
  | .owned _ g => g.stage
  | .shared => .live
  | .freed => .freed

def onList : Status ι Phase → Bool
  | .shared => true
  | .owned _ g => g.onList
  | _ => false

def isOpen : Status ι Phase → Bool
  | .shared => true
  | .owned _ g => g.isOpen
  | _ => false

def serving : Status ι Phase → Bool
  | .shared => true
  | .owned _ g => g.serving
  | _ => false

/-- The entry that a process has in its hands. -/
def Pc.owns : Pc → Option (Addr × Phase)
  | .create _ (.procCreateData _ a) | .create _ (.lockFailed a) => some (a, .built)
  | .create _ (.lockAdd a) => some (a, .published)
  | .mark _ (.unlock a) | .mark _ (.unlockLists a) => some (a, .claimed)
  | .remove _ a .removeProcEntry => some (a, .closing)
  | .remove _ a (.wait _) => some (a, .draining)
  | .remove _ a .lockLists => some (a, .drained)
  | .remove _ a _ => some (a, .unlinked)
  | _ => none

/-- The entries that a process has found in the list and not touched yet. -/
def Pc.cursors : Pc → List Addr
  | .mark _ (.lock a) | .mark _ (.unlockMarked a) => [a]
  | .remove k _ _ => k.nodes
  | .exit (.next pos) => pos.toList
  | _ => []

/-- What a process knows of its own variables. -/
def Pc.Local (s : State ι) : Pc → Prop
  | .create _ (.vmalloc name) => name.length < 20 ∧ 0 ∉ name
  | .create _ (.procCreateData name a) => cstring (s.node a).name = name
  | .remove k a (.wait b) => b = a ∧ a ∉ k.nodes
  | .remove k a _ => a ∉ k.nodes
  | _ => True

structure PcOk (s : State ι) (st : Addr → Status ι Phase) (pc : Pc) : Prop where
  handles : ∀ a, pc.handles = some a → serving (st a) = true
  cursors : ∀ a ∈ pc.cursors, a ∈ s.lists
  locals : pc.Local s

/-- The data of the module, and the places of the processes, fit who owns what. -/
structure Entries (s : State ι) (st : Addr → Status ι Phase) : Prop where
  fresh : ∀ a, s.nextNode ≤ a → st a = .fresh
  owner : Table st fun i => (s.pc i).owns
  lists : ∀ a, a ∈ s.lists ↔ onList (st a) = true
  nodup : s.lists.Nodup
  named : ∀ a, 0 ∈ (s.node a).name
  procs : ∀ n a, (n, a) ∈ s.procs ↔ isOpen (st a) = true ∧ n = cstring (s.node a).name
  names : (s.procs.map Prod.fst).Nodup
  pcs : ∀ i, PcOk s st (s.pc i)
  marked : ∀ i a g, (s.pc i).owns = some (a, g) → g.taken = true →
    (s.node a).markedForRemoval = true ∨ (s.pc i).alone = true

end Entries

section Shift

variable {ι : Type} [DecidableEq ι] {s s' : State ι} {i : ι} {act : Act} {es : List Event}
  {st st' : Addr → Status ι Phase} {a : Addr}

theorem name_of_moves (hmoves : Moves s i act s' es) (ha : a < s.nextNode) :
    (s'.node a).name = (s.node a).name ∧
      ((s.node a).markedForRemoval = true → (s'.node a).markedForRemoval = true) := by
  rcases node_name_of_moves hmoves a with ⟨hname, hmark⟩ | ⟨rfl, -⟩
  · refine ⟨hname, fun hmarked => ?_⟩
    rcases hmark with hmark | ⟨-, hmark⟩
    · rw [hmark]
      exact hmarked
    · exact hmark
  · exact absurd ha (lt_irrefl _)

/-- A new node has a short name, and room for the terminator. -/
theorem Entries.named_of_moves (h : Entries s st) (hmoves : Moves s i act s' es) (a : Addr) :
    0 ∈ (s'.node a).name := by
  rcases node_name_of_moves hmoves a with ⟨hname, -⟩ | ⟨-, w, name, hpc, hname, -⟩
  · rw [hname]
    exact h.named a
  · rw [hname]
    have hlocal := (h.pcs i).locals
    rw [hpc] at hlocal
    exact zero_mem_strncpy hlocal.1

omit [DecidableEq ι] in
theorem Entries.lt_nextNode (h : Entries s st) (ha : st a ≠ .fresh) : a < s.nextNode := by
  by_contra hlt
  exact ha (h.fresh a (not_lt.mp hlt))

omit [DecidableEq ι] in
theorem Entries.status (h : Entries s st) {g : Phase} (hi : (s.pc i).owns = some (a, g)) :
    st a = .owned i g :=
  (h.owner i a g).mpr hi

omit [DecidableEq ι] in
theorem Entries.lt_of_owns (h : Entries s st) {g : Phase} (hi : (s.pc i).owns = some (a, g)) :
    a < s.nextNode := by
  apply h.lt_nextNode
  intro hfresh
  rw [h.status hi] at hfresh
  cases hfresh

omit [DecidableEq ι] in
theorem Entries.lt_of_isOpen (h : Entries s st) (ha : isOpen (st a) = true) : a < s.nextNode := by
  apply h.lt_nextNode
  intro hfresh
  rw [hfresh] at ha
  cases ha

omit [DecidableEq ι] in
theorem local_congr {pc : Pc} (h : pc.Local s)
    (hname : ∀ b g, pc.owns = some (b, g) → (s'.node b).name = (s.node b).name) :
    pc.Local s' := by
  unfold Pc.Local at h ⊢
  split at h
  case h_2 a => exact (congrArg cstring (hname a _ rfl)).trans h
  all_goals exact h

/-- One entry changes its status, and the data follow. -/
theorem Entries.shift (h : Entries s st) (hmoves : Moves s i act s' es) {x : Status ι Phase}
    (htable : Table (Function.update st a x)
      (Function.update (fun j => (s.pc j).owns) i (s'.pc i).owns))
    (hfresh : s'.nextNode ≤ a → x = .fresh)
    (hlists : ∀ b, b ≠ a → (b ∈ s'.lists ↔ b ∈ s.lists))
    (hlista : a ∈ s'.lists ↔ onList x = true) (hnodup : s'.lists.Nodup)
    (hprocs : ∀ n b, b ≠ a → ((n, b) ∈ s'.procs ↔ (n, b) ∈ s.procs))
    (hproca : ∀ n, (n, a) ∈ s'.procs ↔ isOpen x = true ∧ n = cstring (s'.node a).name)
    (hnames : (s'.procs.map Prod.fst).Nodup)
    (hpc : PcOk s' (Function.update st a x) (s'.pc i))
    (hserving : ∀ j, j ≠ i → (s.pc j).handles = some a → serving x = true)
    (hcursors : ∀ j, j ≠ i → a ∈ (s.pc j).cursors → onList x = true)
    (hmark : ∀ b g, (s'.pc i).owns = some (b, g) → g.taken = true →
      (s'.node b).markedForRemoval = true ∨ (s'.pc i).alone = true) :
    Entries s' (Function.update st a x) := by
  have hne : ∀ j, j ≠ i → s'.pc j = s.pc j := fun j hji => pc_of_ne hmoves hji
  refine ⟨fun b hb => ?_, ?_, fun b => ?_, hnodup, h.named_of_moves hmoves, fun n b => ?_, hnames,
    fun j => ?_, ?_⟩
  · rcases eq_or_ne b a with rfl | hba
    · rw [Function.update_self]
      exact hfresh hb
    · rw [Function.update_of_ne hba]
      exact h.fresh b ((nextNode_le hmoves).trans hb)
  · rw [map_pc_of_moves Pc.owns hmoves]
    exact htable
  · rcases eq_or_ne b a with rfl | hba
    · rw [Function.update_self]
      exact hlista
    · rw [Function.update_of_ne hba, hlists b hba]
      exact h.lists b
  · rcases eq_or_ne b a with rfl | hba
    · rw [Function.update_self]
      exact hproca n
    · rw [Function.update_of_ne hba, hprocs n b hba, h.procs n b]
      apply and_congr_right
      intro hb
      rw [(name_of_moves hmoves (h.lt_of_isOpen hb)).1]
  · rcases eq_or_ne j i with rfl | hji
    · exact hpc
    · rw [hne j hji]
      have hj := h.pcs j
      refine ⟨fun b hb => ?_, fun b hb => ?_, ?_⟩
      · rcases eq_or_ne b a with rfl | hba
        · rw [Function.update_self]
          exact hserving j hji hb
        · rw [Function.update_of_ne hba]
          exact hj.handles b hb
      · rcases eq_or_ne b a with rfl | hba
        · exact hlista.mpr (hcursors j hji hb)
        · exact (hlists b hba).mpr (hj.cursors b hb)
      · apply local_congr hj.locals
        intro b g hb
        exact (name_of_moves hmoves (h.lt_of_owns hb)).1
  · intro j b g hb hg
    rcases eq_or_ne j i with rfl | hji
    · exact hmark b g hb hg
    · rw [hne j hji] at hb ⊢
      refine (h.marked j b g hb hg).imp_left ?_
      exact (name_of_moves hmoves (h.lt_of_owns hb)).2

theorem Entries.keep (h : Entries s st) (hmoves : Moves s i act s' es)
    (howns : (s'.pc i).owns = (s.pc i).owns)
    (hlists : s'.lists = s.lists) (hprocs : s'.procs = s.procs) (hpc : PcOk s' st (s'.pc i))
    (halone : (s.pc i).alone = true → (s'.pc i).alone = true ∨ (s'.pc i).owns = none) :
    Entries s' st := by
  have hfresh : st s.nextNode = .fresh := h.fresh _ le_rfl
  have heq : Function.update st s.nextNode (st s.nextNode) = st := Function.update_eq_self ..
  rw [← heq]
  refine h.shift hmoves ?_ (fun _ => hfresh) (fun b _ => by rw [hlists]) ?_ ?_
    (fun n b _ => by rw [hprocs]) (fun n => ?_) ?_ ?_ ?_ ?_ ?_
  · rw [heq]
    exact h.owner.keep howns
  · rw [hlists]
    exact h.lists _
  · rw [hlists]
    exact h.nodup
  · rw [hprocs, h.procs, hfresh]
    exact iff_of_false (fun hb => by cases hb.1) (fun hb => by cases hb.1)
  · rw [hprocs]
    exact h.names
  · rw [heq]
    exact hpc
  · exact fun j _ hj => (h.pcs j).handles _ hj
  · exact fun j _ hj => (h.lists _).mp ((h.pcs j).cursors _ hj)
  · intro b g hb hg
    rw [howns] at hb
    rcases h.marked i b g hb hg with hmark | hal
    · exact .inl ((name_of_moves hmoves (h.lt_of_owns hb)).2 hmark)
    · rcases halone hal with hal' | hnone
      · exact .inr hal'
      · rw [howns, hb] at hnone
        cases hnone

/-- An entry changes its status, and stays where it is in the lists. -/
theorem Entries.restage (h : Entries s st) (hmoves : Moves s i act s' es) {x : Status ι Phase}
    (hfresh : st a ≠ .fresh)
    (htable : Table (Function.update st a x)
      (Function.update (fun j => (s.pc j).owns) i (s'.pc i).owns))
    (hlists : s'.lists = s.lists) (hprocs : s'.procs = s.procs)
    (honList : onList x = onList (st a)) (hisOpen : isOpen x = isOpen (st a))
    (hserving : ∀ j, j ≠ i → (s.pc j).handles = some a → serving x = true)
    (hpc : PcOk s' (Function.update st a x) (s'.pc i))
    (hmark : ∀ b g, (s'.pc i).owns = some (b, g) → g.taken = true →
      (s'.node b).markedForRemoval = true ∨ (s'.pc i).alone = true) :
    Entries s' (Function.update st a x) := by
  have hlt := h.lt_nextNode hfresh
  refine h.shift hmoves htable (fun hle => ?_) (fun b _ => by rw [hlists]) ?_ ?_
    (fun n b _ => by rw [hprocs]) (fun n => ?_) ?_ hpc hserving (fun j _ hj => ?_) hmark
  · exact absurd (hlt.trans_le (nextNode_le hmoves)) (not_lt.mpr hle)
  · rw [hlists, honList]
    exact h.lists a
  · rw [hlists]
    exact h.nodup
  · rw [hprocs, hisOpen, (name_of_moves hmoves hlt).1]
    exact h.procs n a
  · rw [hprocs]
    exact h.names
  · rw [honList]
    exact (h.lists a).mp ((h.pcs j).cursors a hj)

end Shift

section Uses

variable {ι : Type} [DecidableEq ι] {s s' : State ι} {i : ι} {act : Act} {es : List Event}
  {st st' : Addr → Status ι Phase} {it : Addr → Stage} {h₀ : Obj → Stage} {a : Addr}

theorem Phase.alive (g : Phase) : g.stage.Alive := by
  cases g <;> exact ⟨by decide, by decide⟩

omit [DecidableEq ι] in
theorem alive_of_serving {x : Status ι Phase} (h : serving x = true) : (stage x).Alive := by
  cases x with
  | fresh | freed => cases h
  | owned j g => exact g.alive
  | shared => exact Stage.alive_live

omit [DecidableEq ι] in
theorem alive_of_onList {x : Status ι Phase} (h : onList x = true) : (stage x).Alive := by
  cases x with
  | fresh | freed => cases h
  | owned j g => exact g.alive
  | shared => exact Stage.alive_live

omit [DecidableEq ι] in
theorem Entries.alive_of_mem (h : Entries s st) (ha : a ∈ s.lists) : (stage (st a)).Alive :=
  alive_of_onList ((h.lists a).mp ha)

omit [DecidableEq ι] in
theorem Entries.alive_of_owns (h : Entries s st) {g : Phase} (hi : (s.pc i).owns = some (a, g)) :
    (stage (st a)).Alive := by
  rw [h.status hi]
  exact g.alive

/-- What the step does to the objects is allowed, and the data fit again after it. -/
def Follows (h₀ : Obj → Stage) (st : Addr → Status ι Phase) (it : Addr → Stage) (s' : State ι)
    (es : List Event) : Prop :=
  ∃ st' it', (pool h₀).exec (heap (fun a => stage (st a)) it) es =
      some (heap (fun a => stage (st' a)) it', es) ∧ Entries s' st' ∧ Items s' it'

omit [DecidableEq ι] in
theorem stage_update (st : Addr → Status ι Phase) (a : Addr) (x : Status ι Phase) :
    (fun b => stage (Function.update st a x b)) =
      Function.update (fun b => stage (st b)) a (stage x) :=
  Function.comp_update stage st a x

omit [DecidableEq ι] in
theorem exec_touch_nodes {l : List Addr} (hl : ∀ a ∈ l, (stage (st a)).Alive) :
    (pool h₀).exec (heap (fun a => stage (st a)) it) (touches (l.map .node)) =
      some (heap (fun a => stage (st a)) it, touches (l.map .node)) := by
  apply exec_touch_list
  intro o ho
  obtain ⟨a, ha, rfl⟩ := List.mem_map.mp ho
  exact hl a ha

omit [DecidableEq ι] in
theorem follows_of_touches (l : List Addr) (hl : ∀ a ∈ l, (stage (st a)).Alive)
    (hE : Entries s' st') (hst : ∀ a, stage (st' a) = stage (st a)) (hI : Items s' it) :
    Follows h₀ st it s' (touches (l.map .node)) := by
  refine ⟨st', it, ?_, hE, hI⟩
  simp only [hst]
  exact exec_touch_nodes hl

omit [DecidableEq ι] in
/-- Nodes are touched, and then one of them changes its stage. -/
theorem follows_of_use (l : List Addr) (hl : ∀ a ∈ l, (stage (st a)).Alive) {u : Use}
    {x : Status ι Phase} (hu : (stage (st a)).next u = some (stage x))
    (hE : Entries s' (Function.update st a x)) (hI : Items s' it) :
    Follows h₀ st it s' (touches (l.map .node) ++ [(.node a, u)]) := by
  refine ⟨_, it, exec_append (exec_touch_nodes hl) ?_, hE, hI⟩
  refine exec_cons hu ?_
  rw [heap_update_node, stage_update]
  rfl

omit [DecidableEq ι] in
theorem stage_of_restage {x : Status ι Phase} (hx : stage x = stage (st a)) :
    ∀ b, stage (Function.update st a x b) = stage (st b) := by
  intro b
  rw [← Function.comp_apply (f := stage), Function.comp_update, hx]
  exact congrFun (Function.update_eq_self a (stage ∘ st)) b

theorem nextOf_ne {a b : Addr} {l : List Addr} (hl : l.Nodup) (h : nextOf a l = some b) :
    b ≠ a := by
  have hsub : List.Sublist (l.dropWhile (· != a)) l := List.dropWhile_sublist _
  rw [nextOf] at h
  cases hdrop : l.dropWhile (· != a) with
  | nil =>
    rw [hdrop] at h
    cases h
  | cons c rest =>
    rw [hdrop] at h hsub
    have hhead : (c != a) = false := by
      have hne : l.dropWhile (· != a) ≠ [] := by simp [hdrop]
      have hnot := List.head_dropWhile_not (· != a) hne
      simpa [hdrop] using hnot
    have hca : c = a := by simpa using hhead
    have hnotin := (List.nodup_cons.mp (hl.sublist hsub)).1
    rintro rfl
    rw [hca] at hnotin
    exact hnotin (List.mem_of_mem_head? h)

end Uses

end LinuxInternals.Multilist
