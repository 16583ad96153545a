import LinuxInternals.Multilist.Ownership

/-!
# Entries are removed once

Step by step, the data of the module keep fitting who owns what. So each entry goes
through its life in order: it is allocated, removed, unlinked and freed once, and nobody looks
at it or at one of its items after that.
-/

namespace LinuxInternals.Multilist

open Text Lifetime Ownership

/-- The name that `control_write` reads fits its array. -/
def Act.short : Act → Bool
  | .call (.control off buf copied stack) =>
    match controlWrite off buf copied stack with
    | .parsed (.create name) | .parsed (.remove name) => decide (name.length < 20)
    | _ => true
  | _ => true

section Quiet

variable {ι : Type} [DecidableEq ι] {s s' : State ι} {i : ι} {act : Act} {es : List Event}
  {st : Addr → Status ι Phase} {it : Addr → Stage} {h₀ : Obj → Stage} {a : Addr}

/-- A step from `pc` to `pc'` after which nobody owns another entry than before. -/
theorem Entries.keep_of_pc (hE : Entries s st) (hmoves : Moves s i act s' es) {pc pc' : Pc}
    (hpc : s.pc i = pc) (hpc' : s'.pc i = pc') (howns : pc'.owns = pc.owns)
    (hlists : s'.lists = s.lists) (hprocs : s'.procs = s.procs) (hok : PcOk s' st pc')
    (halone : pc.alone = true → pc'.alone = true ∨ pc'.owns = none) : Entries s' st := by
  subst hpc hpc'
  exact hE.keep hmoves howns hlists hprocs hok halone

theorem follows_quiet (hE : Entries s st) (hI : Items s it) (hmoves : Moves s i act s' es)
    {pc pc' : Pc} (hpc : s.pc i = pc) (hpc' : s'.pc i = pc') (hquiet : pc.usesItems = false)
    (l : List Addr) (hes : es = touches (l.map .node)) (hl : ∀ a ∈ l, (stage (st a)).Alive)
    (howns : pc'.owns = pc.owns) (hlists : s'.lists = s.lists) (hprocs : s'.procs = s.procs)
    (hok : PcOk s' st pc') (halone : pc.alone = true → pc'.alone = true ∨ pc'.owns = none) :
    Follows h₀ st it s' es := by
  have hE' := hE.keep_of_pc hmoves hpc hpc' howns hlists hprocs hok halone
  subst hpc hes
  exact follows_of_touches l hl hE' (fun _ => rfl) (hI.step hmoves hquiet)

omit [DecidableEq ι] in
theorem pcOk_of_cursors {pc : Pc} (hhandles : pc.handles = none)
    (hcursors : ∀ a ∈ pc.cursors, a ∈ s.lists) (hlocal : pc.Local s) : PcOk s st pc := by
  refine ⟨fun a ha => ?_, hcursors, hlocal⟩
  rw [hhandles] at ha
  cases ha

omit [DecidableEq ι] in
/-- A place in the program where a process is not concerned with any entry. -/
theorem pcOk_of_free {pc : Pc} (hhandles : pc.handles = none) (hcursors : pc.cursors = [])
    (hlocal : pc.Local s) : PcOk s st pc := by
  refine pcOk_of_cursors hhandles ?_ hlocal
  rw [hcursors]
  exact List.forall_mem_nil _

omit [DecidableEq ι] in
theorem pcOk_of_handler {pc : Pc} (hhandles : pc.handles = some a)
    (hserving : serving (st a) = true) (hcursors : pc.cursors = []) (hlocal : pc.Local s) :
    PcOk s st pc := by
  refine ⟨fun b hb => ?_, fun b hb => ?_, hlocal⟩
  · rw [hhandles] at hb
    cases hb
    exact hserving
  · rw [hcursors] at hb
    cases hb

omit [DecidableEq ι] in
theorem pcOk_of_remove {k : Caller} {c : RemovePc} (hk : ∀ b ∈ k.nodes, b ∈ s.lists)
    (ha : a ∉ k.nodes) (hwait : ∀ b, c = .wait b → b = a) : PcOk s st (.remove k a c) := by
  refine ⟨nofun, hk, ?_⟩
  cases c with
  | wait b => exact ⟨hwait b rfl, ha⟩
  | _ => exact ha

omit [DecidableEq ι] in
theorem Entries.serving_of_open (hE : Entries s st) (h : s.Open (.entry a)) :
    serving (st a) = true := by
  obtain ⟨⟨n, b⟩, hmem, rfl⟩ := List.mem_map.mp h
  have hopen := ((hE.procs n b).mp hmem).1
  cases hst : st b with
  | fresh | freed =>
    rw [hst] at hopen
    cases hopen
  | shared => rfl
  | owned j g =>
    rw [hst] at hopen
    cases g <;> first | rfl | cases hopen

end Quiet

section Life

variable {ι : Type} [DecidableEq ι] {s s' : State ι} {i : ι} {act : Act} {es : List Event}
  {st : Addr → Status ι Phase} {it : Addr → Stage} {h₀ : Obj → Stage} {a : Addr}

attribute [local simp] State.goto State.setNode State.unlock State.unlockLists

omit [DecidableEq ι] in
theorem Entries.not_mem_lists (hE : Entries s st) (ha : onList (st a) = false) : a ∉ s.lists := by
  rw [hE.lists, ha]
  decide

omit [DecidableEq ι] in
theorem Entries.not_mem_procs (hE : Entries s st) (ha : isOpen (st a) = false)
    (n : List UInt8) : (n, a) ∉ s.procs := by
  rw [hE.procs, ha]
  rintro ⟨h, -⟩
  cases h

omit [DecidableEq ι] in
theorem Entries.not_handled (hE : Entries s st) (ha : serving (st a) = false) (j : ι) :
    (s.pc j).handles ≠ some a := by
  intro hj
  have hserving := (hE.pcs j).handles a hj
  rw [ha] at hserving
  cases hserving

omit [DecidableEq ι] in
/-- Nobody but the exit and the claimants takes an entry that is in the list. -/
theorem Entries.shared_of_unowned (hE : Entries s st) (ha : a ∈ s.lists)
    (hown : ∀ j g, (s.pc j).owns = some (a, g) → g.onList = false) : st a = .shared := by
  have honList := (hE.lists a).mp ha
  cases hst : st a with
  | fresh | freed =>
    rw [hst] at honList
    cases honList
  | shared => rfl
  | owned j g =>
    have hnot := hown j g ((hE.owner j a g).mp hst)
    rw [hst, onList, hnot] at honList
    cases honList

theorem vmalloc_entries (hE : Entries s st) {w : Write} {name : List UInt8}
    (hpc : s.pc i = .create w (.vmalloc name)) :
    Entries { (s.goto i (.create w (.procCreateData name s.nextNode))).setNode s.nextNode
        { list := [], sp := none, name := strncpy name 20, markedForRemoval := false } with
        nextNode := s.nextNode + 1 }
      (Function.update st s.nextNode (.owned i .built)) := by
  have hfresh : st s.nextNode = .fresh := hE.fresh _ le_rfl
  have hshort : name.length < 20 ∧ 0 ∉ name := by
    have hlocal := (hE.pcs i).locals
    rw [hpc] at hlocal
    exact hlocal
  have hnodes : s.nextNode ∉ s.lists := hE.not_mem_lists (by rw [hfresh]; rfl)
  have hprocs := hE.not_mem_procs (a := s.nextNode) (by rw [hfresh]; rfl)
  refine hE.shift (.vmalloc hpc) ?_ (fun hle => ?_) (fun _ _ => Iff.rfl) ?_ hE.nodup
    (fun _ _ _ => Iff.rfl) (fun n => ?_) hE.names ?_ (fun j _ hj => ?_) (fun j _ hj => ?_) ?_
  · simp only [State.goto, State.setNode, Function.update_self]
    refine hE.owner.acquire ?_ ?_ .built
    · simp [hpc, Pc.owns]
    · simp [hfresh]
  · exact absurd hle (Nat.not_succ_le_self _)
  · exact iff_of_false hnodes (by simp [onList, Phase.onList])
  · exact iff_of_false (hprocs n) (fun h => by cases h.1)
  · refine ⟨?_, ?_, ?_⟩
    · simp [Pc.handles]
    · simp [Pc.cursors]
    · simp [Pc.Local, cstring_strncpy hshort.2 hshort.1]
  · exact absurd hj (hE.not_handled (by rw [hfresh]; rfl) j)
  · exact absurd ((hE.pcs j).cursors _ hj) hnodes
  · intro b g hb hg
    simp [Pc.owns] at hb
    rw [← hb.2] at hg
    cases hg

theorem register_entries (hE : Entries s st) {w : Write} {name : List UInt8}
    (hpc : s.pc i = .create w (.procCreateData name a)) (hname : s.present name = false) :
    Entries { s.goto i (.create w (.lockAdd a)) with procs := s.procs ++ [(name, a)] }
      (Function.update st a (.owned i .published)) := by
  have hown : (s.pc i).owns = some (a, .built) := by rw [hpc]; rfl
  have hst := hE.status hown
  have hlists : a ∉ s.lists := hE.not_mem_lists (by rw [hst]; rfl)
  have hprocs := hE.not_mem_procs (a := a) (by rw [hst]; rfl)
  have hnamed : cstring (s.node a).name = name := by
    have hlocal := (hE.pcs i).locals
    rw [hpc] at hlocal
    exact hlocal
  have hnew : name ∉ s.procs.map Prod.fst := by
    simp only [State.present, Bool.or_eq_false_iff, List.any_eq_false] at hname
    rintro hmem
    obtain ⟨e, he, rfl⟩ := List.mem_map.mp hmem
    exact hname.2 e he (beq_self_eq_true _)
  refine hE.shift (.register hpc hname) ?_ (fun hle => ?_) (fun _ _ => Iff.rfl) ?_ hE.nodup
    (fun n b hb => ?_) (fun n => ?_) ?_ ?_ (fun _ _ _ => rfl) (fun j _ hj => ?_) ?_
  · simp only [State.goto, Function.update_self]
    exact hE.owner.advance hown .published
  · exact absurd (hE.lt_of_owns hown) (not_lt.mpr hle)
  · exact iff_of_false hlists (by simp [onList, Phase.onList])
  · simp [hb]
  · simp [hprocs n, isOpen, Phase.isOpen, hnamed]
  · rw [List.map_append, List.map_singleton]
    refine List.nodup_append.mpr ⟨hE.names, List.nodup_singleton _, ?_⟩
    rintro n hn m hm rfl
    rw [List.mem_singleton.mp hm] at hn
    exact hnew hn
  · refine pcOk_of_free ?_ ?_ ?_ <;> simp [Pc.handles, Pc.cursors, Pc.Local]
  · exact absurd ((hE.pcs j).cursors _ hj) hlists
  · intro b g hb hg
    simp [Pc.owns] at hb
    rw [← hb.2] at hg
    cases hg

theorem lockAdd_entries (hE : Entries s st) {w : Write} (hpc : s.pc i = .create w (.lockAdd a))
    (hsp : s.spLists = none) :
    Entries { s.goto i (.create w .unlock) with lists := s.lists ++ [a], spLists := some i }
      (Function.update st a .shared) := by
  have hown : (s.pc i).owns = some (a, .published) := by rw [hpc]; rfl
  have hst := hE.status hown
  have hlists : a ∉ s.lists := hE.not_mem_lists (by rw [hst]; rfl)
  refine hE.shift (.lockAdd hpc hsp) ?_ (fun hle => ?_) (fun b hb => ?_) ?_ ?_
    (fun _ _ _ => Iff.rfl) (fun n => ?_) hE.names ?_ (fun _ _ _ => rfl) (fun _ _ _ => rfl) ?_
  · simp only [State.goto, Function.update_self]
    apply hE.owner.release hown
    nofun
  · exact absurd (hE.lt_of_owns hown) (not_lt.mpr hle)
  · simp [hb]
  · simp [onList]
  · refine List.nodup_append.mpr ⟨hE.nodup, List.nodup_singleton _, ?_⟩
    rintro n hn m hm rfl
    rw [List.mem_singleton.mp hm] at hn
    exact hlists hn
  · have hproc := hE.procs n a
    rw [hst] at hproc
    exact hproc
  · refine pcOk_of_free ?_ ?_ ?_ <;> simp [Pc.handles, Pc.cursors, Pc.Local]
  · intro b g hb
    simp [Pc.owns] at hb

theorem lockFailed_entries (hE : Entries s st) {w : Write}
    (hpc : s.pc i = .create w (.lockFailed a)) (hsp : s.spLists = none) :
    Entries { s.goto i (.ret .control w.done) with spLists := some i }
      (Function.update st a .freed) := by
  have hown : (s.pc i).owns = some (a, .built) := by rw [hpc]; rfl
  have hst := hE.status hown
  refine hE.restage (.lockFailed hpc hsp) (by simp [hst]) ?_ rfl rfl (by rw [hst]; rfl)
    (by rw [hst]; rfl) (fun j _ hj => ?_) ?_ ?_
  · simp only [State.goto, Function.update_self]
    apply hE.owner.release hown
    nofun
  · exact absurd hj (hE.not_handled (by rw [hst]; rfl) j)
  · refine pcOk_of_free ?_ ?_ ?_ <;> simp [Pc.handles, Pc.cursors, Pc.Local]
  · intro b g hb
    simp [Pc.owns] at hb

theorem claim_entries (hE : Entries s st) (hL : Leaving s) {w : Write}
    (hpc : s.pc i = .mark w (.lock a)) (hsp : (s.node a).sp = none)
    (hmark : (s.node a).markedForRemoval = false) :
    st a = .shared ∧
      Entries ((s.goto i (.mark w (.unlock a))).setNode a
        { s.node a with sp := some i, markedForRemoval := true })
        (Function.update st a (.owned i .claimed)) := by
  have hmem : a ∈ s.lists := (hE.pcs i).cursors a (by rw [hpc]; exact List.mem_singleton_self a)
  have hst : st a = .shared := by
    apply hE.shared_of_unowned hmem
    intro j g hj
    -- an owner would have set the mark, or be alone
    apply Bool.eq_false_iff.mpr
    intro hg
    have htaken : g.taken = true := by cases g <;> first | rfl | cases hg
    rcases hE.marked j a g hj htaken with hset | halone
    · rw [hmark] at hset
      cases hset
    · have hcontrols := hL.alone j halone i
      rw [hpc] at hcontrols
      cases hcontrols
  refine ⟨hst, ?_⟩
  refine hE.restage (.claim hpc hsp hmark) (by simp [hst]) ?_ rfl rfl (by rw [hst]; rfl)
    (by rw [hst]; rfl) (fun _ _ _ => rfl) ?_ ?_
  · simp only [State.goto, State.setNode, Function.update_self]
    refine hE.owner.acquire ?_ ?_ .claimed
    · simp [hpc, Pc.owns]
    · simp [hst]
  · refine pcOk_of_free ?_ ?_ ?_ <;> simp [Pc.handles, Pc.cursors, Pc.Local]
  · intro b g hb _
    simp [Pc.owns] at hb
    simp [hb.1]

theorem controlRemove_entries (hE : Entries s st) {w : Write}
    (hpc : s.pc i = .mark w (.unlockLists a)) :
    Entries (s.goto i (.remove (.control w) a .removeProcEntry)).unlockLists
      (Function.update st a (.owned i .closing)) := by
  have hown : (s.pc i).owns = some (a, .claimed) := by rw [hpc]; rfl
  have hst := hE.status hown
  refine hE.restage (.controlRemove hpc) (by simp [hst]) ?_ rfl rfl (by rw [hst]; rfl)
    (by rw [hst]; rfl) (fun _ _ _ => rfl) ?_ ?_
  · simp only [State.goto, State.unlockLists, Function.update_self]
    exact hE.owner.advance hown .closing
  · simp only [State.goto, State.unlockLists, Function.update_self]
    exact pcOk_of_remove (by simp [Caller.nodes]) (by simp [Caller.nodes]) nofun
  · intro b g hb _
    simp [Pc.owns] at hb
    obtain ⟨rfl, -⟩ := hb
    rcases hE.marked i a .claimed hown rfl with hmark | halone
    · exact .inl hmark
    · rw [hpc] at halone
      cases halone

omit [DecidableEq ι] in
theorem Entries.of_remove (hE : Entries s st) {k : Caller} {c : RemovePc}
    (hpc : s.pc i = .remove k a c) :
    (∀ b ∈ k.nodes, b ∈ s.lists) ∧ a ∉ k.nodes ∧ ∀ b, c = .wait b → b = a := by
  obtain ⟨-, hcursors, hlocal⟩ := hE.pcs i
  rw [hpc] at hcursors hlocal
  refine ⟨hcursors, ?_, ?_⟩
  · cases c with
    | wait b => exact hlocal.2
    | _ => exact hlocal
  · rintro b rfl
    exact hlocal.1

omit [DecidableEq ι] in
theorem Entries.marked_of_remove (hE : Entries s st) {k : Caller} {c c' : RemovePc}
    (hpc : s.pc i = .remove k a c) (hpc' : s'.pc i = .remove k a c') (hnode : s'.node = s.node)
    (b : Addr) (g : Phase) (hb : (s'.pc i).owns = some (b, g)) (_ : g.taken = true) :
    (s'.node b).markedForRemoval = true ∨ (s'.pc i).alone = true := by
  have hab : a = b := by
    rw [hpc'] at hb
    cases c' <;> cases hb <;> rfl
  subst hab
  have hown : ∃ g, (s.pc i).owns = some (a, g) ∧ g.taken = true := by
    rw [hpc]
    cases c <;> exact ⟨_, rfl, rfl⟩
  obtain ⟨g, hown, hg⟩ := hown
  have hmark := hE.marked i a g hown hg
  rw [hpc] at hmark
  rw [hnode, hpc']
  exact hmark

theorem unregister_entries (hE : Entries s st) {k : Caller} {e : List UInt8 × Addr}
    (hpc : s.pc i = .remove k a .removeProcEntry) (he : e ∈ s.procs)
    (hname : e.1 = (s.node a).nameString) :
    Entries { s.goto i (.remove k a (.wait e.2)) with procs := s.procs.erase e }
      (Function.update st a (.owned i .draining)) := by
  have hown : (s.pc i).owns = some (a, .closing) := by rw [hpc]; rfl
  have hst := hE.status hown
  have hmoves := Moves.unregister hpc he hname
  rw [Node.nameString_of_mem (hE.named a)] at hname
  have hmem : (cstring (s.node a).name, a) ∈ s.procs :=
    (hE.procs _ a).mpr ⟨by rw [hst]; rfl, rfl⟩
  -- the name finds the entry itself
  have heq : e = (cstring (s.node a).name, a) := List.inj_on_of_nodup_map hE.names he hmem hname
  have hnodup : s.procs.Nodup := hE.names.of_map
  obtain ⟨hk, ha, -⟩ := hE.of_remove hpc
  refine hE.shift hmoves ?_ (fun hle => ?_) (fun _ _ => Iff.rfl) ?_ hE.nodup
    (fun n b hb => ?_) (fun n => ?_) (hE.names.sublist (List.erase_sublist.map _)) ?_
    (fun _ _ _ => rfl) (fun _ _ _ => rfl) ?_
  · simp only [State.goto, Function.update_self]
    exact hE.owner.advance hown .draining
  · exact absurd (hE.lt_of_owns hown) (not_lt.mpr hle)
  · have hlist := hE.lists a
    rw [hst] at hlist
    exact hlist
  · apply List.mem_erase_of_ne
    rw [heq]
    simp [hb]
  · refine iff_of_false (fun hn => ?_) (fun h => by cases h.1)
    obtain ⟨hne, hn⟩ := hnodup.mem_erase_iff.mp hn
    rw [heq, ((hE.procs n a).mp hn).2] at hne
    exact hne rfl
  · simp only [State.goto, Function.update_self]
    exact pcOk_of_remove hk ha fun b hb => by rw [← (RemovePc.wait.inj hb), heq]
  · exact hE.marked_of_remove hpc (Function.update_self ..) rfl

theorem waited_entries (hE : Entries s st) {k : Caller} {b : Addr}
    (hpc : s.pc i = .remove k a (.wait b)) (hwait : ∀ j, (s.pc j).handles ≠ some b) :
    Entries (s.goto i (.remove k a .lockLists)) (Function.update st a (.owned i .drained)) := by
  have hown : (s.pc i).owns = some (a, .draining) := by rw [hpc]; rfl
  have hst := hE.status hown
  obtain ⟨hk, ha, hb⟩ := hE.of_remove hpc
  obtain rfl := hb b rfl
  refine hE.restage (.waited hpc hwait) (by simp [hst]) ?_ rfl rfl (by rw [hst]; rfl)
    (by rw [hst]; rfl) (fun j _ hj => absurd hj (hwait j)) ?_ ?_
  · simp only [State.goto, Function.update_self]
    exact hE.owner.advance hown .drained
  · simp only [State.goto, Function.update_self]
    exact pcOk_of_remove hk ha nofun
  · exact hE.marked_of_remove hpc (Function.update_self ..) rfl

theorem unlink_entries [Fintype ι] (hs : (machine ι).Reachable s) (hE : Entries s st)
    {k : Caller} (hpc : s.pc i = .remove k a .lockLists) (hsp : s.spLists = none) :
    Entries
      { s.goto i (.remove k a .unlockLists) with lists := s.lists.erase a, spLists := some i }
      (Function.update st a (.owned i .unlinked)) := by
  have hown : (s.pc i).owns = some (a, .drained) := by rw [hpc]; rfl
  have hst := hE.status hown
  obtain ⟨hk, ha, -⟩ := hE.of_remove hpc
  have hL := leaving hs
  -- nobody else is on his way to the entry
  have hcursors : ∀ j, j ≠ i → a ∉ (s.pc j).cursors := by
    intro j hji hj
    have hlocks : (s.pc j).holdsLists = false := (sound_locks hs).not_held (l := .lists) hsp j
    have halone : (s.pc j).alone = false := by
      apply Bool.eq_false_iff.mpr
      intro halone
      have hcontrols := hL.alone j halone i
      rw [hpc] at hcontrols
      cases k with
      | control w => cases hcontrols
      | exit tmp =>
        have hi : (s.pc i).exits = true := by rw [hpc]; rfl
        exact hji (hL.unique j i (Pc.exits_of_closes (Pc.closes_of_alone halone)) hi)
    unfold Pc.cursors at hj
    split at hj
    case h_1 hpcj | h_2 hpcj =>
      rw [hpcj] at hlocks
      cases hlocks
    case h_3 k' b c hpcj =>
      rw [hpcj] at halone
      cases k' with
      | control w => cases hj
      | exit tmp => cases halone
    case h_4 pos hpcj =>
      rw [hpcj] at halone
      cases halone
    case h_5 => cases hj
  refine hE.shift (.unlink hpc hsp) ?_ (fun hle => ?_) (fun b hb => ?_) ?_ (hE.nodup.erase a)
    (fun _ _ _ => Iff.rfl) (fun n => ?_) hE.names ?_ (fun j _ hj => ?_) (fun j hji hj => ?_) ?_
  · simp only [State.goto, Function.update_self]
    exact hE.owner.advance hown .unlinked
  · exact absurd (hE.lt_of_owns hown) (not_lt.mpr hle)
  · exact List.mem_erase_of_ne hb
  · exact iff_of_false (hE.nodup.not_mem_erase) (by simp [onList, Phase.onList])
  · have hproc := hE.procs n a
    rw [hst] at hproc
    exact hproc
  · simp only [State.goto, Function.update_self]
    refine pcOk_of_remove (fun b hb => ?_) ha nofun
    refine (List.mem_erase_of_ne ?_).mpr (hk b hb)
    rintro rfl
    exact ha hb
  · exact absurd hj (hE.not_handled (by rw [hst]; rfl) j)
  · exact absurd hj (hcursors j hji)
  · exact hE.marked_of_remove hpc (Function.update_self ..) rfl

theorem vfree_entries (hE : Entries s st) {k : Caller} (hpc : s.pc i = .remove k a .vfree) :
    Entries (s.goto i k.pc) (Function.update st a .freed) := by
  have hown : (s.pc i).owns = some (a, .unlinked) := by rw [hpc]; rfl
  have hst := hE.status hown
  have hk := (hE.of_remove hpc).1
  have hnone : k.pc.owns = none := by cases k <;> rfl
  refine hE.restage (.vfree hpc) (by simp [hst]) ?_ rfl rfl (by rw [hst]; rfl)
    (by rw [hst]; rfl) (fun j _ hj => ?_) ?_ ?_
  · simp only [State.goto, Function.update_self]
    rw [hnone]
    apply hE.owner.release hown
    nofun
  · exact absurd hj (hE.not_handled (by rw [hst]; rfl) j)
  · simp only [State.goto, Function.update_self]
    cases k with
    | control w => exact pcOk_of_free rfl rfl trivial
    | exit tmp => exact ⟨nofun, hk, trivial⟩
  · intro b g hb
    simp [hnone] at hb

/-- Who has an entry in his hands is in `control_write`, or in the exit. -/
theorem exits_of_owns {pc : Pc} {g : Phase} (h : pc.owns = some (a, g))
    (hcontrols : pc.controls = false) : pc.exits = true := by
  cases pc with
  | create | mark => cases hcontrols
  | remove k =>
    cases k with
    | control => cases hcontrols
    | exit => rfl
  | user | exit | read | write | ret => cases h

theorem exitRemove_entries [Fintype ι] (hs : (machine ι).Reachable s) (hE : Entries s st)
    (hpc : s.pc i = .exit (.next (some a))) :
    st a = .shared ∧
      Entries (s.goto i (.remove (.exit (nextOf a s.lists)) a .removeProcEntry))
        (Function.update st a (.owned i .closing)) := by
  have hL := leaving hs
  have halone : (s.pc i).alone = true := by rw [hpc]; rfl
  have hmem : a ∈ s.lists := (hE.pcs i).cursors a (by rw [hpc]; exact List.mem_singleton_self a)
  have hst : st a = .shared := by
    apply hE.shared_of_unowned hmem
    intro j g hj
    exfalso
    have hexits := exits_of_owns hj (hL.alone i halone j)
    have hji := hL.unique j i hexits (by rw [hpc]; rfl)
    subst hji
    rw [hpc] at hj
    cases hj
  refine ⟨hst, ?_⟩
  refine hE.restage (.exitRemove hpc) (by simp [hst]) ?_ rfl rfl (by rw [hst]; rfl)
    (by rw [hst]; rfl) (fun _ _ _ => rfl) ?_ ?_
  · simp only [State.goto, Function.update_self]
    refine hE.owner.acquire ?_ ?_ .closing
    · simp [hpc, Pc.owns]
    · simp [hst]
  · simp only [State.goto, Function.update_self]
    refine pcOk_of_remove (fun b hb => ?_) (fun hb => ?_) nofun
    · exact nextOf_mem (Option.mem_toList.mp hb)
    · exact nextOf_ne hE.nodup (Option.mem_toList.mp hb) rfl
  · intro b g _ _
    exact .inr (by simp [Pc.alone, Caller.exits])

end Life

section Run

variable {ι : Type} [DecidableEq ι] [Fintype ι] {s s' : State ι} {i : ι} {act : Act}
  {es : List Event} {st : Addr → Status ι Phase} {it : Addr → Stage} {h₀ : Obj → Stage}

omit [DecidableEq ι] [Fintype ι] in
/-- Who tries to take the `sp` of an entry knows the entry to be alive. -/
theorem alive_of_target (hE : Entries s st) {a : Addr} (h : (s.pc i).target = some a) :
    (stage (st a)).Alive := by
  unfold Pc.target at h
  split at h <;> cases h
  case h_1 w hpc => exact hE.alive_of_mem ((hE.pcs i).cursors a (by rw [hpc]; simp [Pc.cursors]))
  case h_2 k hpc => exact hE.alive_of_owns (g := .unlinked) (by rw [hpc]; rfl)
  case h_3 q hpc | h_4 w job hpc =>
    exact alive_of_serving ((hE.pcs i).handles a (by rw [hpc]; rfl))

omit [Fintype ι] in
theorem follows_vmalloc (hE : Entries s st) (hI : Items s it) {w : Write} {name : List UInt8}
    (hpc : s.pc i = .create w (.vmalloc name)) {u : State ι}
    (hu : u = { (s.goto i (.create w (.procCreateData name s.nextNode))).setNode s.nextNode
      { list := [], sp := none, name := strncpy name 20, markedForRemoval := false } with
      nextNode := s.nextNode + 1 }) :
    Follows h₀ st it u [(.node s.nextNode, .alloc), (.node s.nextNode, .touch)] := by
  subst hu
  refine ⟨_, it, ?_, vmalloc_entries hE hpc, hI.step (.vmalloc hpc) (by rw [hpc]; rfl)⟩
  have hfresh : stage (st s.nextNode) = .fresh := by rw [hE.fresh _ le_rfl]; rfl
  rw [stage_update, ← heap_update_node]
  apply exec_cons (g := .live) (by rw [heap, hfresh]; rfl)
  apply exec_cons (g := .live) (by rw [Function.update_self]; rfl)
  rw [Function.update_idem]
  rfl

omit [Fintype ι] in
theorem follows_newItem (hE : Entries s st) (hI : Items s it) {a : Addr} {w : Write}
    {num : Int32} (hpc : s.pc i = .write a w (.vmalloc num)) :
    Follows h₀ st it
      { s.goto i (.write a w (.lock (.add s.nextItem num))) with nextItem := s.nextItem + 1 }
      [(.item s.nextItem, .alloc), (.item s.nextItem, .touch)] := by
  refine ⟨st, Function.update it s.nextItem .live, ?_, ?_, hI.newItem hpc⟩
  · rw [← heap_update_item]
    apply exec_cons (g := .live) (by rw [heap, hI.fresh _ le_rfl]; rfl)
    apply exec_cons (g := .live) (by rw [Function.update_self]; rfl)
    rw [Function.update_idem]
    rfl
  · have hserving := (hE.pcs i).handles a (by rw [hpc]; rfl)
    exact hE.keep_of_pc (.newItem hpc) hpc (Function.update_self ..) rfl rfl rfl
      (pcOk_of_handler rfl hserving rfl trivial) (by simp [Pc.alone])

omit [DecidableEq ι] [Fintype ι] in
theorem follows_of_items {a : Addr} (ha : (stage (st a)).Alive) (hE : Entries s' st)
    (hitems : ∃ it', (pool h₀).exec (heap (fun a => stage (st a)) it) es =
      some (heap (fun a => stage (st a)) it', es) ∧ Items s' it') :
    Follows h₀ st it s' ((.node a, .touch) :: es) := by
  obtain ⟨it', hexec, hI⟩ := hitems
  refine ⟨st, it', exec_cons (next_touch ha) ?_, hE, hI⟩
  rw [Function.update_eq_self]
  exact hexec

theorem follows_of_moves (hs : (machine ι).Reachable s) (hE : Entries s st) (hI : Items s it)
    (hshort : act.short = true) (hmoves : Moves s i act s' es) : Follows h₀ st it s' es := by
  have hm := hmoves
  have hself {p : ι → Pc} {pc : Pc} : Function.update p i pc i = pc := Function.update_self ..
  have hnil : ∀ a ∈ [], (stage (st a)).Alive := List.forall_mem_nil _
  cases hmoves with
  | @answer _ hd r hpc hopen =>
    refine follows_quiet hE hI hm hpc hself rfl [] rfl hnil rfl rfl rfl ?_ (by simp [Pc.alone])
    cases hd with
    | control => exact pcOk_of_free rfl rfl trivial
    | entry a => exact pcOk_of_handler rfl (hE.serving_of_open hopen) rfl trivial
  | @callCreate _ _ _ _ name hpc _ hparse =>
    have hname : name.length < 20 := by simpa [Act.short, hparse] using hshort
    exact follows_quiet hE hI hm hpc hself rfl [] rfl hnil rfl rfl rfl
      (pcOk_of_free rfl rfl ⟨hname, zero_not_mem_name (.inl hparse)⟩) (by simp [Pc.alone])
  | callRemove hpc | callExit hpc | unlockAdd hpc | unlockNotFound hpc | unlockListsMarked hpc
  | removeControl hpc | exited hpc | ret hpc =>
    exact follows_quiet hE hI hm hpc hself rfl [] rfl hnil rfl rfl rfl
      (pcOk_of_free rfl rfl trivial) (by simp [Pc.alone, Pc.owns])
  | callRead hpc hopen | callWrite hpc hopen =>
    exact follows_quiet hE hI hm hpc hself rfl [] rfl hnil rfl rfl rfl
      (pcOk_of_handler rfl (hE.serving_of_open hopen) rfl trivial) (by simp [Pc.alone])
  | readLockLists hpc | readUnlockLists hpc =>
    have hserving := (hE.pcs i).handles _ (by rw [hpc]; rfl)
    exact follows_quiet hE hI hm hpc hself rfl [] rfl hnil rfl rfl rfl
      (pcOk_of_handler rfl hserving rfl trivial) (by simp [Pc.alone])
  | readUnlock hpc | writeUnlock hpc =>
    have hserving := (hE.pcs i).handles _ (by rw [hpc]; rfl)
    refine follows_quiet hE hI hm hpc hself rfl [_] rfl ?_ rfl rfl rfl
      (pcOk_of_handler rfl hserving rfl trivial) (by simp [Pc.alone])
    exact List.forall_mem_singleton.mpr (alive_of_serving hserving)
  | spinLists => exact ⟨st, it, rfl, hE, hI⟩
  | spin htarget =>
    exact follows_of_touches [_] (by simpa using alive_of_target hE htarget) hE (fun _ => rfl) hI
  | vmalloc hpc => exact follows_vmalloc hE hI hpc rfl
  | newItem hpc => exact follows_newItem hE hI hpc
  | @createFailed _ w name a hpc =>
    have halive := hE.alive_of_owns (a := a) (g := .built) (by rw [hpc]; rfl)
    exact follows_quiet hE hI hm hpc hself rfl [a] rfl (List.forall_mem_singleton.mpr halive) rfl
      rfl rfl (pcOk_of_free rfl rfl trivial) (by simp [Pc.alone])
  | @register w name a hpc hname =>
    have hown : (s.pc i).owns = some (a, .built) := by rw [hpc]; rfl
    refine follows_of_touches [a] ?_ (register_entries hE hpc hname) ?_
      (hI.step hm (by rw [hpc]; rfl))
    · simpa using hE.alive_of_owns hown
    · exact stage_of_restage (by rw [hE.status hown]; rfl)
  | @lockFailed w a hpc hsp =>
    have hst := hE.status (a := a) (g := .built) (by rw [hpc]; rfl)
    exact follows_of_use [] hnil (by rw [hst]; rfl) (lockFailed_entries hE hpc hsp)
      (hI.step hm (by rw [hpc]; rfl))
  | @lockAdd w a hpc hsp =>
    have hown : (s.pc i).owns = some (a, .published) := by rw [hpc]; rfl
    have hlast : touches ((s.lists.getLast?.map Obj.node).toList ++ [.node a]) =
        touches ((s.lists.getLast?.toList ++ [a]).map .node) := by
      cases s.lists.getLast? <;> rfl
    rw [hlast]
    refine follows_of_touches _ (fun b hb => ?_) (lockAdd_entries hE hpc hsp) ?_
      (hI.step hm (by rw [hpc]; rfl))
    · rcases List.mem_append.mp hb with hb | hb
      · exact hE.alive_of_mem (List.mem_of_mem_getLast? (Option.mem_toList.mp hb))
      · rw [List.mem_singleton.mp hb]
        exact hE.alive_of_owns hown
    · exact stage_of_restage (by rw [hE.status hown]; rfl)
  | notFound hpc =>
    refine follows_quiet hE hI hm hpc hself rfl _ rfl (fun b hb => ?_) rfl rfl rfl
      (pcOk_of_free rfl rfl trivial) (by simp [Pc.alone])
    exact hE.alive_of_mem ((List.takeWhile_sublist _).mem hb)
  | @found w name a hpc _ hmem =>
    refine follows_quiet hE hI hm hpc hself rfl _ rfl (fun b hb => ?_) rfl rfl rfl
      (pcOk_of_cursors rfl (List.forall_mem_singleton.mpr hmem) trivial) (by simp [Pc.alone])
    rcases List.mem_append.mp hb with hb | hb
    · exact hE.alive_of_mem ((List.takeWhile_sublist _).mem hb)
    · rw [List.mem_singleton.mp hb]
      exact hE.alive_of_mem hmem
  | @isMarked w a hpc =>
    have hmem : a ∈ s.lists := (hE.pcs i).cursors a (by rw [hpc]; simp [Pc.cursors])
    have halive := hE.alive_of_mem hmem
    exact follows_quiet hE hI hm hpc hself rfl [a] rfl (List.forall_mem_singleton.mpr halive) rfl
      rfl rfl (pcOk_of_cursors rfl (List.forall_mem_singleton.mpr hmem) trivial)
      (by simp [Pc.alone])
  | @unlockMarked w a hpc =>
    have hmem : a ∈ s.lists := (hE.pcs i).cursors a (by rw [hpc]; simp [Pc.cursors])
    have halive := hE.alive_of_mem hmem
    exact follows_quiet hE hI hm hpc hself rfl [a] rfl (List.forall_mem_singleton.mpr halive) rfl
      rfl rfl (pcOk_of_free rfl rfl trivial) (by simp [Pc.alone])
  | @claim w a hpc hsp hmark =>
    obtain ⟨hst, hE'⟩ := claim_entries hE (leaving hs) hpc hsp hmark
    refine follows_of_touches [a] ?_ hE' (stage_of_restage (by rw [hst]; rfl))
      (hI.step hm (by rw [hpc]; rfl))
    simpa [hst] using alive_of_onList (x := st a) (by rw [hst]; rfl)
  | @unlockClaimed w a hpc =>
    have halive := hE.alive_of_owns (a := a) (g := .claimed) (by rw [hpc]; rfl)
    exact follows_quiet hE hI hm hpc hself rfl [a] rfl (List.forall_mem_singleton.mpr halive) rfl
      rfl rfl (pcOk_of_free rfl rfl trivial) (by simp [Pc.alone])
  | @controlRemove w a hpc =>
    have hst := hE.status (a := a) (g := .claimed) (by rw [hpc]; rfl)
    exact follows_of_use [] hnil (by rw [hst]; rfl) (controlRemove_entries hE hpc)
      (hI.step hm (by rw [hpc]; rfl))
  | @missing k a hpc hmissing =>
    have hst := hE.status (a := a) (g := .closing) (by rw [hpc]; rfl)
    refine absurd ?_ (hmissing _ ((hE.procs _ a).mpr ⟨by rw [hst]; rfl, rfl⟩))
    exact (Node.nameString_of_mem (hE.named a)).symm
  | @unregister k a e hpc he hname =>
    have hown : (s.pc i).owns = some (a, .closing) := by rw [hpc]; rfl
    refine follows_of_touches [a] ?_ (unregister_entries hE hpc he hname) ?_
      (hI.step hm (by rw [hpc]; rfl))
    · simpa using hE.alive_of_owns hown
    · exact stage_of_restage (by rw [hE.status hown]; rfl)
  | @waited k a b hpc hwait =>
    have hst := hE.status (a := a) (g := .draining) (by rw [hpc]; rfl)
    exact follows_of_touches [] hnil (waited_entries hE hpc hwait)
      (stage_of_restage (by rw [hst]; rfl)) (hI.step hm (by rw [hpc]; rfl))
  | @unlink k a hpc hsp =>
    have hst := hE.status (a := a) (g := .drained) (by rw [hpc]; rfl)
    refine follows_of_use _ (fun b hb => hE.alive_of_mem ?_) (by rw [hst]; rfl)
      (unlink_entries hs hE hpc hsp) (hI.step hm (by rw [hpc]; rfl))
    rcases List.mem_append.mp hb with hb | hb
    · exact prevOf_mem (Option.mem_toList.mp hb)
    · exact nextOf_mem (Option.mem_toList.mp hb)
  | unlockUnlinked hpc =>
    obtain ⟨hk, ha, -⟩ := hE.of_remove hpc
    exact follows_quiet hE hI hm hpc hself rfl [] rfl hnil rfl rfl rfl
      (pcOk_of_remove hk ha (by simp)) .inl
  | @unlockEmpty k a hpc =>
    have halive := hE.alive_of_owns (a := a) (g := .unlinked) (by rw [hpc]; rfl)
    obtain ⟨hk, ha, -⟩ := hE.of_remove hpc
    exact follows_quiet hE hI hm hpc hself rfl [a] rfl (List.forall_mem_singleton.mpr halive) rfl
      rfl rfl (pcOk_of_remove hk ha (by simp)) .inl
  | @vfree k a hpc =>
    have hst := hE.status (a := a) (g := .unlinked) (by rw [hpc]; rfl)
    exact follows_of_use [] hnil (by rw [hst]; rfl) (vfree_entries hE hpc)
      (hI.step hm (by rw [hpc]; rfl))
  | waitedControl hpc =>
    refine follows_quiet hE hI hm hpc hself rfl [] rfl hnil rfl rfl rfl
      (pcOk_of_cursors rfl (fun b hb => ?_) trivial) (by simp [Pc.alone])
    exact List.mem_of_mem_head? (Option.mem_toList.mp hb)
  | @exitRemove a hpc =>
    obtain ⟨hst, hE'⟩ := exitRemove_entries hs hE hpc
    refine follows_of_use [a] ?_ (by rw [hst]; rfl) hE' (hI.step hm (by rw [hpc]; rfl))
    simpa [hst] using alive_of_onList (x := st a) (by rw [hst]; rfl)
  | @cleanup k a hpc hsp =>
    have halive := hE.alive_of_owns (a := a) (g := .unlinked) (by rw [hpc]; rfl)
    obtain ⟨hk, ha, -⟩ := hE.of_remove hpc
    have hE' := hE.keep_of_pc hm hpc hself rfl rfl rfl (pcOk_of_remove hk ha (by simp)) .inl
    exact follows_of_items halive hE' (hI.run_delete halive rfl rfl hm)
  | @readLock a q hpc hsp =>
    have hserving := (hE.pcs i).handles a (by rw [hpc]; rfl)
    have hE' := hE.keep_of_pc hm hpc hself rfl rfl rfl (pcOk_of_handler rfl hserving rfl trivial)
      (by simp [Pc.alone])
    refine follows_of_items (alive_of_serving hserving) hE'
      ⟨it, exec_touch_list fun o ho => ?_, hI.step hm (by rw [hpc]; rfl)⟩
    obtain ⟨x, hx, rfl⟩ := List.mem_map.mp ho
    rw [heap, hI.live a x (readLoop_subset hx)]
    exact Stage.alive_live
  | @writeLock a w job hpc hsp =>
    have hserving := (hE.pcs i).handles a (by rw [hpc]; rfl)
    have halive := alive_of_serving hserving
    have hE' := hE.keep_of_pc hm hpc hself rfl rfl rfl (pcOk_of_handler rfl hserving rfl trivial)
      (by simp [Pc.alone])
    exact follows_of_items halive hE' (hI.run_job halive hpc rfl hm)

/-- The entry "default" is there from the start. -/
def status₀ (ι : Type) (a : Addr) : Status ι Phase := if a = 0 then .shared else .fresh

theorem entries_init : Entries (machine ι).init (status₀ ι) := by
  have honList (a : Addr) : onList (status₀ ι a) = true ↔ a = 0 := by
    rw [status₀]
    split <;> simp_all [onList]
  have hisOpen (a : Addr) : isOpen (status₀ ι a) = true ↔ a = 0 := by
    rw [status₀]
    split <;> simp_all [isOpen]
  refine ⟨fun a ha => ?_, fun i a g => ?_, fun a => ?_, List.nodup_singleton _, fun a => ?_,
    fun n a => ?_, List.nodup_singleton _, fun i => pcOk_of_free rfl rfl trivial, nofun⟩
  · exact if_neg (Nat.ne_of_gt ha)
  · refine iff_of_false (fun h => ?_) nofun
    rw [status₀] at h
    split at h <;> cases h
  · rw [honList]
    exact List.mem_singleton
  · change 0 ∈ strncpy (if a = 0 then bytes "default" else []) 20
    split <;> decide
  · have hdefault : cstring ((machine ι).init.node 0).name = bytes "default" :=
      cstring_strncpy (by decide) (by decide)
    rw [hisOpen]
    constructor
    · intro h
      cases List.mem_singleton.mp h
      exact ⟨rfl, hdefault.symm⟩
    · rintro ⟨rfl, rfl⟩
      exact List.mem_singleton.mpr (congrArg (·, 0) hdefault)

theorem items_init : Items (machine ι).init fun _ => .fresh := by
  refine ⟨fun _ _ => rfl, nofun, nofun, nofun, ?_, fun _ => List.nodup_nil, ?_⟩
  · intro a x hx
    cases hx
  · intro a b x hx
    cases hx

/-- The trace is one that objects with a life of their own can produce. -/
theorem pool_of_run {as : List (ι × Act)} {tr : List (ι × Event)}
    (hshort : ∀ p ∈ as, p.2.short = true) (h : (machine ι).Run as s tr) :
    ∃ bs u, (pool (heap (fun a => stage (status₀ ι a)) fun _ => .fresh)).Run bs u
      (tr.map Prod.snd) := by
  have hsimulated : ∃ bs u,
      (pool (heap (fun a => stage (status₀ ι a)) fun _ => .fresh)).Run bs u (tr.map Prod.snd) ∧
        ∃ st it, u = heap (fun a => stage (st a)) it ∧ Entries s st ∧ Items s it := by
    refine h.simulated (N := pool _) (C := fun _ p => p.2.short = true)
      (R := fun s u => ∃ st it, u = heap (fun a => stage (st a)) it ∧ Entries s st ∧ Items s it)
      ⟨_, _, rfl, entries_init, items_init⟩ ?_ (Machine.along_of_forall hshort _)
    rintro s u p s' es hs ⟨st, it, rfl, hE, hI⟩ hp hstep
    obtain ⟨es, rfl, hmoves⟩ := moves_of_machine hstep
    obtain ⟨st', it', hexec, hE', hI'⟩ := follows_of_moves hs hE hI hp hmoves
    refine ⟨es, _, ?_, st', it', rfl, hE', hI'⟩
    rw [List.map_map]
    simpa using hexec
  obtain ⟨bs, u, hrun, -⟩ := hsimulated
  exact ⟨bs, u, hrun⟩

/-- `control_remove` runs once for a node, it is unlinked once and freed once, and nothing is done
to it or to an item after it was freed. -/
structure RemovedOnce (tr : List (ι × Event)) : Prop where
  remove : ∀ a, (tr.map Prod.snd).count (.node a, .remove) ≤ 1
  unlink : ∀ a, (tr.map Prod.snd).count (.node a, .unlink) ≤ 1
  free : ∀ o, (tr.map Prod.snd).count (o, .free) ≤ 1
  unused : ∀ o pre post, tr.map Prod.snd = pre ++ (o, .free) :: post → ∀ e ∈ post, e.1 ≠ o

theorem removed_once {as : List (ι × Act)} {tr : List (ι × Event)}
    (hshort : ∀ p ∈ as, p.2.short = true) (h : (machine ι).Run as s tr) : RemovedOnce tr := by
  obtain ⟨bs, u, hrun⟩ := pool_of_run hshort h
  have hlife := pairwise_of_exec hrun
  exact ⟨fun a => count_le_one hlife (by decide) _, fun a => count_le_one hlife (by decide) _,
    fun o => count_le_one hlife (by decide) _, fun o pre post => ne_of_freed hlife⟩

/-- An entry is created and filled by one process, and removed by another. -/
def createAndRemove : List (Bool × Act) :=
  (false, .call (.control 0 (bytes "create a") true (bytes "create a"))) ::
    List.replicate 5 (false, .run) ++
  (true, .call (.write 1 0 (bytes "add 5") true (bytes "add 5"))) ::
    List.replicate 4 (true, .run) ++
  (true, .call (.control 0 (bytes "remove a") true (bytes "remove a"))) ::
    List.replicate 12 (true, .run)

theorem removed_once_createAndRemove :
    ∃ s tr, (machine Bool).Run createAndRemove s tr ∧
      (.node 1, .free) ∈ tr.map Prod.snd ∧ (.item 0, .free) ∈ tr.map Prod.snd ∧
      RemovedOnce tr := by
  have heval : ((machine Bool).exec (machine Bool).init createAndRemove).map
      (fun r => decide ((.node 1, .free) ∈ r.2.map Prod.snd ∧
        (.item 0, .free) ∈ r.2.map Prod.snd)) = some true := by
    decide +kernel
  obtain ⟨s, tr, hrun, hs⟩ := Machine.exists_run_of_eval heval
  obtain ⟨hnode, hitem⟩ := of_decide_eq_true hs
  exact ⟨s, tr, hrun, hnode, hitem, removed_once (by decide +kernel) hrun⟩

end Run

end LinuxInternals.Multilist
