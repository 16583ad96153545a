import LinuxInternals.Multilist.Ownership
import LinuxInternals.Multilist.Progress

/-!
# What the others leave alone

While a process creates or removes an entry, the others go on with theirs. Those that are at work
on other names change neither the node of the entry, apart from its list and its lock, nor where
it is registered, nor its place in `list_of_proc_lists`.
-/

namespace LinuxInternals.Multilist

open Text SpinLock Relation

variable {ι : Type} [DecidableEq ι] {s s' : State ι} {i k : ι} {o : Option ι} {act : Act}
  {es : List Event} {name : List UInt8} {a b : Addr}

section Works

/-- The entries that a process creates or removes. -/
def Pc.edits : Pc → List Addr
  | .create _ (.procCreateData _ a) | .create _ (.lockFailed a) | .create _ (.lockAdd a)
  | .mark _ (.lock a) | .mark _ (.unlockMarked a) | .mark _ (.unlock a)
  | .mark _ (.unlockLists a) | .remove _ a _ => [a]
  | _ => []

/-- A process there is at work on an entry with the name. -/
def Pc.Works (s : State ι) (name : List UInt8) (pc : Pc) : Prop :=
  name ∈ pc.names ∨ ∃ a ∈ pc.edits, (s.node a).nameString = name

/-- The name is registered, or the name of a node in the list, or somebody is at work on it. -/
def State.Uses (s : State ι) (name : List UInt8) : Prop :=
  s.present name = true ∨ (∃ a ∈ s.lists, (s.node a).nameString = name) ∨
    ∃ i, (s.pc i).Works s name

/-- The step calls no command on the name and no `rmmod`, and does not lose `sp_lists`. -/
def Leaves (name : List UInt8) (s : State ι) (p : ι × Act) : Prop :=
  s.leaks p = false ∧ ∀ c, p.2 = .call c → c ≠ .exit ∧ ¬c.Names name

theorem edits_subset_nodes (pc : Pc) (ha : a ∈ pc.edits) : a ∈ pc.nodes := by
  unfold Pc.edits at ha
  split at ha
  case h_9 => cases ha
  all_goals simp_all [Pc.nodes]

theorem edits_of_moves (hmoves : Moves s i act s' es) (ha : a ∈ (s'.pc i).edits) :
    a ∈ (s.pc i).edits ∨
      (∃ name ∈ (s.pc i).names, a ∈ s.lists ∧ (s.node a).nameString = name) ∨
      (∃ name ∈ (s.pc i).names, a = s.nextNode ∧ (s'.node a).name = strncpy name 20) ∨
      (s.pc i).exits = true := by
  cases hmoves with
  | @vmalloc w n hpc =>
    simp only [State.goto, State.setNode, Function.update_self, Pc.edits, List.mem_singleton] at ha
    subst ha
    refine .inr (.inr (.inl ⟨n, ?_, rfl, ?_⟩))
    · rw [hpc]
      exact List.mem_singleton_self _
    · simp [State.setNode]
  | @found w n b hpc _ hmem hname =>
    simp only [State.goto, Function.update_self, Pc.edits, List.mem_singleton] at ha
    subst ha
    refine .inr (.inl ⟨n, ?_, hmem, hname⟩)
    rw [hpc]
    exact List.mem_singleton_self _
  | exitRemove hpc => simp [hpc, Pc.exits]
  | @vfree k => cases k <;> simp [State.goto, Caller.pc, Pc.edits] at ha
  | _ => simp_all [State.goto, State.setNode, State.unlock, State.unlockLists, Pc.edits]

/-- Only who registers an entry, or takes one out, changes what is registered. -/
theorem procs_of_moves (hmoves : Moves s i act s' es) :
    s'.procs = s.procs ∨ (∃ name ∈ (s.pc i).names, ∃ a, s'.procs = s.procs ++ [(name, a)]) ∨
      ∃ a ∈ (s.pc i).edits, ∃ e, e.1 = (s.node a).nameString ∧ s'.procs = s.procs.erase e := by
  cases hmoves with
  | @register w n b hpc =>
    refine .inr (.inl ⟨n, ?_, b, rfl⟩)
    rw [hpc]
    exact List.mem_singleton_self _
  | @unregister c b e hpc _ hname =>
    refine .inr (.inr ⟨b, ?_, e, hname, rfl⟩)
    rw [hpc]
    exact List.mem_singleton_self _
  | _ => exact .inl rfl

theorem lists_of_moves (hmoves : Moves s i act s' es) :
    s'.lists = s.lists ∨
      ∃ a ∈ (s.pc i).edits, s'.lists = s.lists ++ [a] ∨ s'.lists = s.lists.erase a := by
  cases hmoves with
  | @lockAdd w b hpc =>
    refine .inr ⟨b, ?_, .inl rfl⟩
    rw [hpc]
    exact List.mem_singleton_self _
  | @unlink c b hpc =>
    refine .inr ⟨b, ?_, .inr rfl⟩
    rw [hpc]
    exact List.mem_singleton_self _
  | _ => exact .inl rfl

omit [DecidableEq ι] in
/-- A node with a short name has been given that name. -/
theorem nameString_of_strncpy {x : Node ι} {n : List UInt8} (harray : x.name = strncpy n 20)
    (hzero : 0 ∉ n) (hshort : x.nameString.length < 20) : x.nameString = n := by
  rcases Nat.lt_or_ge n.length 20 with hlen | hlen
  · rw [Node.nameString_of_mem (by rw [harray]; exact zero_mem_strncpy hlen), harray]
    exact cstring_strncpy hzero hlen
  · have hnot : 0 ∉ x.name := by
      rw [harray, strncpy_of_le hlen]
      exact fun hmem => hzero (List.mem_of_mem_take hmem)
    rw [Node.nameString_of_not_mem hnot, List.length_append, harray, length_strncpy] at hshort
    omega

/-- The mark ends no short name. -/
theorem nameString_of_moves (hnamed : Named s) (hmoves : Moves s i act s' es)
    (ha : a < s.nextNode) (hshort : (s'.node a).nameString.length < 20) :
    (s'.node a).nameString = (s.node a).nameString := by
  rcases node_name_of_moves hmoves a with ⟨hname, hmark⟩ | ⟨rfl, -⟩
  · by_cases hzero : 0 ∈ (s.node a).name
    · rw [Node.nameString_of_mem (by rwa [hname]), Node.nameString_of_mem hzero, hname]
    · rw [Node.nameString_of_not_mem (by rwa [hname]), hname, List.length_append,
        hnamed.arrays] at hshort
      omega
  · exact absurd ha (lt_irrefl _)

theorem exited_of_ne_exit (hmoves : Moves s i act s' es) (hact : act ≠ .call .exit) :
    s'.exited = s.exited := by
  cases hmoves with
  | callExit => exact absurd rfl hact
  | _ => rfl

/-- `control` is there until the module is unloaded. -/
theorem control_of_running [Fintype ι] (h : (machine ι).Reachable s) (hexited : s.exited = false) :
    s.control = true := by
  refine reachable_of_moves (I := fun s : State ι => s.exited = false → s.control = true)
    (fun _ => rfl) ?_ h hexited
  intro s i act s' es hs hI hmoves hexited
  cases hmoves with
  | removeControl hpc =>
    have hleft := (leaving hs).exited i (by rw [hpc]; rfl)
    rw [show s.exited = false from hexited] at hleft
    cases hleft
  | callExit => cases hexited
  | _ => exact hI hexited

end Works

section Undisturbed

variable [Fintype ι] {p : ι × Act} {tr : List (ι × Event)}

/-- Nobody but process `o` is at work on the name, nobody unloads the module, and no lock is
lost. -/
structure Undisturbed (s : State ι) (o : Option ι) (name : List UInt8) : Prop where
  reachable : (machine ι).Reachable s
  agree : Agree s.holder fun i => (s.pc i).holds
  running : s.exited = false
  clear : ∀ k, some k ≠ o → ¬(s.pc k).Works s name

theorem Undisturbed.ordered (h : Undisturbed s o name) : Ordered s := ⟨known h.reachable, h.agree⟩

theorem Undisturbed.lt_of_edits (h : Undisturbed s o name) (ha : a ∈ (s.pc k).edits) :
    a < s.nextNode :=
  h.ordered.known.pcs k a (edits_subset_nodes _ ha)

theorem Undisturbed.exits (h : Undisturbed s o name) (k : ι) : (s.pc k).exits = false := by
  apply Bool.eq_false_iff.mpr
  intro hk
  have hexited := (leaving h.reachable).exited k hk
  rw [h.running] at hexited
  cases hexited

theorem Undisturbed.step (h : Undisturbed s o name) (hshort : name.length < 20)
    (hstep : (machine ι).step s p = some (s', tr)) (hleak : s.leaks p = false)
    (hexit : p.2 ≠ .call .exit) (hown : some p.1 = o ∨ Leaves name s p) :
    Undisturbed s' o name := by
  obtain ⟨es, -, hmoves⟩ := moves_of_machine hstep
  have hnamed := named h.reachable
  have hold {b : Addr} (hb : b < s.nextNode) (hname : (s'.node b).nameString = name) :
      (s.node b).nameString = name := by
    rw [← nameString_of_moves hnamed hmoves hb (by rwa [hname])]
    exact hname
  refine ⟨h.reachable.step hstep, (h.ordered.step hmoves hleak).agree, ?_, fun j hj => ?_⟩
  · rw [exited_of_ne_exit hmoves hexit]
    exact h.running
  rcases eq_or_ne j p.1 with rfl | hjp
  · have hleaves := hown.resolve_left hj
    rintro (hname | ⟨b, hb, hname⟩)
    · rcases names_of_moves hmoves hname with hname | ⟨c, hact, hc⟩
      · exact h.clear _ hj (.inl hname)
      · exact (hleaves.2 c hact).2 hc
    · rcases edits_of_moves hmoves hb with hb | ⟨n, hn, hmem, hnode⟩ | ⟨n, hn, -, harray⟩ | hexits
      · exact h.clear _ hj (.inr ⟨b, hb, hold (h.lt_of_edits hb) hname⟩)
      · rw [hold (h.ordered.known.lists b hmem) hname] at hnode
        exact h.clear _ hj (.inl (hnode ▸ hn))
      · -- the node has just been given the name that its creator works on
        have hgiven := nameString_of_strncpy harray (hnamed.names _ n hn) (by rwa [hname])
        rw [hname] at hgiven
        exact h.clear _ hj (.inl (hgiven ▸ hn))
      · rw [h.exits] at hexits
        cases hexits
  · rw [pc_of_ne hmoves hjp]
    rintro (hname | ⟨b, hb, hname⟩)
    · exact h.clear j hj (.inl hname)
    · exact h.clear j hj (.inr ⟨b, hb, hold (h.lt_of_edits hb) hname⟩)

end Undisturbed

section Slot

/-- Where the entry `a` with the name is, and that it is the only one with the name. -/
structure Slot (s : State ι) (name : List UInt8) (a : Addr) (registered listed marked : Bool) :
    Prop where
  lt : a < s.nextNode
  array : (s.node a).name = strncpy name 20
  mark : (s.node a).markedForRemoval = marked
  procs : s.procs.count (name, a) = registered.toNat
  lists : s.lists.count a = listed.toNat
  onlyRegistered : ∀ e ∈ s.procs, e.1 = name → e = (name, a)
  onlyListed : ∀ b ∈ s.lists, (s.node b).nameString = name → b = a

variable {registered listed marked registered' listed' marked' : Bool}

omit [DecidableEq ι] in
theorem Slot.ended (h : Slot s name a registered listed marked) (hshort : name.length < 20) :
    0 ∈ (s.node a).name := by
  rw [h.array]
  exact zero_mem_strncpy hshort

omit [DecidableEq ι] in
theorem Slot.nameString (h : Slot s name a registered listed marked) (hzero : 0 ∉ name)
    (hshort : name.length < 20) : (s.node a).nameString = name := by
  rw [Node.nameString_of_mem (h.ended hshort), h.array, cstring_strncpy hzero hshort]

variable [Fintype ι]

/-- A step after which the entry may be somewhere else, and still is the only one. -/
theorem Slot.shift (h : Slot s name a registered listed marked) (hs : (machine ι).Reachable s)
    (hshort : name.length < 20) (hmoves : Moves s k act s' es)
    (hmark : (s'.node a).markedForRemoval = marked')
    (hprocs : s'.procs.count (name, a) = registered'.toNat)
    (hlists : s'.lists.count a = listed'.toNat)
    (hregistered : ∀ e ∈ s'.procs, e ∈ s.procs ∨ e.1 ≠ name ∨ e = (name, a))
    (hlisted : ∀ b ∈ s'.lists, b ∈ s.lists ∨ b = a ∨
      b < s.nextNode ∧ (s.node b).nameString ≠ name) :
    Slot s' name a registered' listed' marked' := by
  refine ⟨h.lt.trans_le (nextNode_le hmoves), ?_, hmark, hprocs, hlists, fun e he hname => ?_,
    fun b hb hname => ?_⟩
  · rw [(name_of_moves hmoves h.lt).1]
    exact h.array
  · rcases hregistered e he with he | hne | he
    · exact h.onlyRegistered e he hname
    · exact absurd hname hne
    · exact he
  · have hold (hlt : b < s.nextNode) : (s.node b).nameString = name := by
      rw [← nameString_of_moves (named hs) hmoves hlt (by rwa [hname])]
      exact hname
    rcases hlisted b hb with hb | hb | ⟨hlt, hne⟩
    · exact h.onlyListed b hb (hold ((known hs).lists b hb))
    · exact hb
    · exact absurd (hold hlt) hne

/-- A step that moves no entry. -/
theorem Slot.stays (h : Slot s name a registered listed marked) (hs : (machine ι).Reachable s)
    (hshort : name.length < 20) (hmoves : Moves s k act s' es)
    (hmark : (s'.node a).markedForRemoval = marked') (hprocs : s'.procs = s.procs)
    (hlists : s'.lists = s.lists) : Slot s' name a registered listed marked' := by
  apply h.shift hs hshort hmoves hmark
  · rw [hprocs, h.procs]
  · rw [hlists, h.lists]
  · exact fun e he => .inl (hprocs ▸ he)
  · exact fun b hb => .inl (hlists ▸ hb)

/-- The steps of the others leave the entry where it is. -/
theorem Slot.bystander (h : Slot s name a registered listed marked)
    (hU : Undisturbed s o name) (hk : some k ≠ o) (hzero : 0 ∉ name) (hshort : name.length < 20)
    (hmoves : Moves s k act s' es) : Slot s' name a registered listed marked := by
  have hname := h.nameString hzero hshort
  have hedits {b : Addr} (hb : b ∈ (s.pc k).edits) : (s.node b).nameString ≠ name :=
    fun heq => hU.clear k hk (.inr ⟨b, hb, heq⟩)
  have hne {b : Addr} (hb : b ∈ (s.pc k).edits) : a ≠ b := by
    rintro rfl
    exact hedits hb hname
  refine h.shift hU.reachable hshort hmoves ?_ ?_ ?_ (fun e he => ?_) (fun b hb => ?_)
  · rcases node_name_of_moves hmoves a with ⟨-, hmark | ⟨⟨w, hpc⟩, -⟩⟩ | ⟨heq, -⟩
    · rw [hmark]
      exact h.mark
    · exact absurd rfl (hne (b := a) (by rw [hpc]; exact List.mem_singleton_self _))
    · exact absurd h.lt (by rw [heq]; exact lt_irrefl _)
  · rw [← h.procs]
    rcases procs_of_moves hmoves with hprocs | ⟨n, hn, b, hprocs⟩ | ⟨b, hb, e, he, hprocs⟩
    · rw [hprocs]
    · have hnn : (n, b) ≠ (name, a) := by
        rintro ⟨⟩
        exact hU.clear k hk (.inl hn)
      rw [hprocs, List.count_append, List.count_singleton, if_neg (by simpa using hnn),
        Nat.add_zero]
    · rw [hprocs, List.count_erase_of_ne]
      rintro rfl
      exact hedits hb he.symm
  · rw [← h.lists]
    rcases lists_of_moves hmoves with hlists | ⟨b, hb, hlists | hlists⟩
    · rw [hlists]
    · rw [hlists, List.count_append, List.count_singleton, if_neg (by simpa using (hne hb).symm),
        Nat.add_zero]
    · rw [hlists, List.count_erase_of_ne (hne hb)]
  · rcases procs_of_moves hmoves with hprocs | ⟨n, hn, b, hprocs⟩ | ⟨b, hb, e', -, hprocs⟩
    · exact .inl (hprocs ▸ he)
    · rw [hprocs] at he
      rcases List.mem_append.mp he with he | he
      · exact .inl he
      · rw [List.mem_singleton.mp he]
        refine .inr (.inl ?_)
        rintro rfl
        exact hU.clear k hk (.inl hn)
    · rw [hprocs] at he
      exact .inl (List.mem_of_mem_erase he)
  · rcases lists_of_moves hmoves with hlists | ⟨c, hc, hlists | hlists⟩
    · exact .inl (hlists ▸ hb)
    · rw [hlists] at hb
      rcases List.mem_append.mp hb with hb | hb
      · exact .inl hb
      · rw [List.mem_singleton.mp hb]
        exact .inr (.inr ⟨hU.lt_of_edits hc, hedits hc⟩)
    · rw [hlists] at hb
      exact .inl (List.mem_of_mem_erase hb)

end Slot

section Absent

/-- No entry has the name. -/
structure Absent (s : State ι) (name : List UInt8) : Prop where
  present : s.present name = false
  lists : ∀ b ∈ s.lists, (s.node b).nameString ≠ name

theorem present_of_moves (hmoves : Moves s k act s' es) (hname : name ∉ (s.pc k).names)
    (h : s.present name = false) : s'.present name = false := by
  obtain ⟨hcontrol, hany⟩ := Bool.or_eq_false_iff.mp h
  refine Bool.or_eq_false_iff.mpr ⟨?_, ?_⟩
  · cases hc : s'.control with
    | false => rfl
    | true => rwa [control_of_moves hmoves hc] at hcontrol
  · rw [List.any_eq_false] at hany ⊢
    intro e he
    rcases procs_of_moves hmoves with hprocs | ⟨n, hn, b, hprocs⟩ | ⟨b, -, e', -, hprocs⟩
    · exact hany e (hprocs ▸ he)
    · rw [hprocs] at he
      rcases List.mem_append.mp he with he | he
      · exact hany e he
      · rw [List.mem_singleton.mp he, beq_iff_eq]
        rintro rfl
        exact hname hn
    · rw [hprocs] at he
      exact hany e (List.mem_of_mem_erase he)

variable [Fintype ι]

theorem Absent.bystander (h : Absent s name) (hU : Undisturbed s o name) (hk : some k ≠ o)
    (hshort : name.length < 20) (hmoves : Moves s k act s' es) : Absent s' name := by
  refine ⟨present_of_moves hmoves (fun hn => hU.clear k hk (.inl hn)) h.present,
    fun b hb hname => ?_⟩
  have hold (hlt : b < s.nextNode) : (s.node b).nameString = name := by
    rw [← nameString_of_moves (named hU.reachable) hmoves hlt (by rwa [hname])]
    exact hname
  have hlist (hb : b ∈ s.lists) : False :=
    h.lists b hb (hold (hU.ordered.known.lists b hb))
  rcases lists_of_moves hmoves with hlists | ⟨c, hc, hlists | hlists⟩
  · exact hlist (hlists ▸ hb)
  · rw [hlists] at hb
    rcases List.mem_append.mp hb with hb | hb
    · exact hlist hb
    · obtain rfl := List.mem_singleton.mp hb
      exact hU.clear k hk (.inr ⟨b, hc, hold (hU.lt_of_edits hc)⟩)
  · rw [hlists] at hb
    exact hlist (List.mem_of_mem_erase hb)

end Absent

end LinuxInternals.Multilist
