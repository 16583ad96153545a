import LinuxInternals.ListHead.Lists

/-!
# `list.h` keeps to the lists

Each call that is allowed on the lists has an outcome in memory, and the memory holds the lists
that the call makes.
-/

namespace LinuxInternals.ListHead

open Links

variable {m m' : Heap} {s s' : Lists} {a head : Addr} {l : List Addr}

theorem Holds.taken (h : Holds m s ∅) (ht : s.Taken a s') : Holds m s' {a} := by
  cases ht with
  | loose ha =>
    apply (h.take ha).hand_congr
    simp
  | head ha =>
    apply (h.open ha).hand_congr
    simp

theorem Holds.initListHead (h : Holds m s {a}) :
    ∃ m', initListHead a m = some m' ∧ Holds m' (s.put a []) ∅ := by
  obtain ⟨m', hrun, hr, hw⟩ := initListHead_spec ((h.live a).mpr (Or.inr rfl))
  refine ⟨m', hrun, ((h.writes hw (le_refl _)).close hr ?_).hand_congr ?_⟩
  · simp
  · simp

theorem Holds.listAdd (h : Holds m s {a}) (hl : s.entries head = some l) :
    ∃ m', listAdd a head m = some m' ∧ Holds m' (s.put head (a :: l)) ∅ := by
  have hout : a ∉ head :: l := fun hmem => h.held a rfl (Or.inr ⟨head, l, hl, hmem⟩)
  obtain ⟨m', hrun, hr, hw⟩ :=
    listAdd_spec (h.ring head l hl) ((h.live a).mpr (Or.inr rfl)) hout
  refine ⟨m', hrun, h.replace hl hw hr ?_ ?_ ?_⟩
  · intro x hx
    exact List.mem_cons.mp hx
  · intro x hx
    exact List.mem_cons.mp ((List.Perm.swap a head l).mem_iff.mp hx)
  · simp
    tauto

theorem Holds.listAddTail (h : Holds m s {a}) (hl : s.entries head = some l) :
    ∃ m', listAddTail a head m = some m' ∧ Holds m' (s.put head (l ++ [a])) ∅ := by
  have hout : a ∉ head :: l := fun hmem => h.held a rfl (Or.inr ⟨head, l, hl, hmem⟩)
  have hperm : (head :: (l ++ [a])).Perm (a :: head :: l) :=
    List.perm_append_singleton a (head :: l)
  obtain ⟨m', hrun, hr, hw⟩ :=
    listAddTail_spec (h.ring head l hl) ((h.live a).mpr (Or.inr rfl)) hout
  refine ⟨m', hrun, h.replace hl hw hr ?_ ?_ ?_⟩
  · intro x hx
    exact List.mem_cons.mp hx
  · intro x hx
    exact List.mem_cons.mp (hperm.mem_iff.mp hx)
  · intro x
    rw [hperm.mem_iff]
    simp
    tauto

section Entries

variable {entry : Addr} {xs ys : List Addr}

theorem mem_entries_iff {x : Addr} :
    x ∈ head :: (xs ++ entry :: ys) ↔ x = entry ∨ x ∈ head :: (xs ++ ys) := by
  have hperm : (head :: (xs ++ entry :: ys)).Perm (entry :: head :: (xs ++ ys)) :=
    (List.perm_middle : (head :: xs ++ entry :: ys).Perm _)
  rw [hperm.mem_iff, List.mem_cons]

theorem Holds.unlinked {t : Set Addr} (h : Holds m s ∅)
    (hl : s.entries head = some (xs ++ entry :: ys)) (hw : m.Writes t m')
    (hr : m'.Ring (head :: (xs ++ ys) : List Addr))
    (ht : ∀ x ∈ t, x ∈ entry :: head :: (xs ++ ys)) :
    Holds m' (s.put head (xs ++ ys)) {entry} := by
  have hout := (h.ring head _ hl).notMem
  apply h.replace hl hw hr
  · intro x hx
    exact Or.inr (mem_entries_iff.mpr (List.mem_cons.mp (ht x hx)))
  · intro x hx
    exact Or.inr (mem_entries_iff.mpr (Or.inr hx))
  · intro x
    rw [mem_entries_iff, Set.mem_singleton_iff]
    constructor
    · rintro rfl
      exact ⟨Or.inr (Or.inl rfl), hout⟩
    · rintro ⟨(hx | hx | hx), hxl⟩
      · exact absurd hx (Set.notMem_empty x)
      · exact hx
      · exact absurd hx hxl

theorem Holds.unlink (h : Holds m s ∅) (hl : s.entries head = some (xs ++ entry :: ys)) :
    ∃ m', unlink entry m = some m' ∧ Holds m' (s.put head (xs ++ ys)) {entry} := by
  obtain ⟨m', hrun, hr, hw⟩ := unlink_spec (h.ring head _ hl)
  exact ⟨m', hrun, h.unlinked hl hw hr fun x hx => List.mem_cons_of_mem entry hx⟩

theorem Holds.listDel (h : Holds m s ∅) (hl : s.entries head = some (xs ++ entry :: ys)) :
    ∃ m', listDel entry m = some m' ∧ Holds m' (s.put head (xs ++ ys)) {entry} := by
  obtain ⟨m', hrun, hr, hw⟩ := listDel_spec (h.ring head _ hl)
  exact ⟨m', hrun, h.unlinked hl hw hr fun x hx => hx⟩

theorem Holds.listDelInit (h : Holds m s ∅) (hl : s.entries head = some (xs ++ entry :: ys)) :
    ∃ m', listDelInit entry m = some m' ∧
      Holds m' ((s.put head (xs ++ ys)).put entry []) ∅ := by
  obtain ⟨m₁, hrun, h₁⟩ := h.unlink hl
  obtain ⟨m', hinit, h'⟩ := h₁.initListHead
  refine ⟨m', ?_, h'⟩
  rw [ListHead.listDelInit, hrun]
  exact hinit

theorem Holds.listMove {k : Addr} (h : Holds m s ∅)
    (hl : s.entries head = some (xs ++ entry :: ys))
    (hk : (s.put head (xs ++ ys)).entries k = some l) :
    ∃ m', listMove entry k m = some m' ∧
      Holds m' ((s.put head (xs ++ ys)).put k (entry :: l)) ∅ := by
  obtain ⟨m₁, hrun, h₁⟩ := h.unlink hl
  obtain ⟨m', hadd, h'⟩ := h₁.listAdd hk
  refine ⟨m', ?_, h'⟩
  rw [ListHead.listMove, hrun]
  exact hadd

theorem Holds.listMoveTail {k : Addr} (h : Holds m s ∅)
    (hl : s.entries head = some (xs ++ entry :: ys))
    (hk : (s.put head (xs ++ ys)).entries k = some l) :
    ∃ m', listMoveTail entry k m = some m' ∧
      Holds m' ((s.put head (xs ++ ys)).put k (l ++ [entry])) ∅ := by
  obtain ⟨m₁, hrun, h₁⟩ := h.unlink hl
  obtain ⟨m', hadd, h'⟩ := h₁.listAddTail hk
  refine ⟨m', ?_, h'⟩
  rw [ListHead.listMoveTail, hrun]
  exact hadd

end Entries

section Splice

variable {list : Addr} {xs : List Addr}

/-- The entries of `list` go before those of `head`; `list` itself stays in the hand. -/
theorem Holds.internalListSplice (h : Holds m s ∅) (hne : list ≠ head)
    (hk : s.entries list = some xs) (hl : s.entries head = some l) (hxs : xs ≠ []) :
    ∃ m', internalListSplice list head m = some m' ∧
      Holds m' ((s.drop list).put head (xs ++ l)) {list} := by
  have hd := h.apart list head xs l hk hl hne
  have hl' : (s.drop list).entries head = some l :=
    (s.entries_drop_of_ne (Ne.symm hne)).trans hl
  have hlist : list ∉ head :: (xs ++ l) := by
    have hout := (List.nodup_cons.mp (h.ring list xs hk).nodup).1
    have hout' := hd List.mem_cons_self
    rw [List.mem_cons, List.mem_append]
    rw [List.mem_cons] at hout'
    tauto
  obtain ⟨m', hrun, hr, hw⟩ :=
    internalListSplice_spec (h.ring list xs hk) (h.ring head l hl) hxs hd
  have hin : ∀ x ∈ head :: (xs ++ l), x ∈ ∅ ∪ {x | x ∈ list :: xs} ∨ x ∈ head :: l := by
    intro x hx
    rw [List.mem_cons, List.mem_append] at hx
    simp only [Set.empty_union, Set.mem_ofPred_eq, List.mem_cons]
    tauto
  refine ⟨m', hrun, (h.open hk).replace hl' hw hr hin hin ?_⟩
  intro x
  constructor
  · rintro rfl
    exact ⟨Or.inl (Or.inr List.mem_cons_self), hlist⟩
  · rintro ⟨((hx | hx) | hx), hout⟩
    · exact absurd hx (Set.notMem_empty x)
    · cases List.mem_cons.mp hx with
      | inl hx => exact hx
      | inr hx => exact absurd (List.mem_cons_of_mem head (List.mem_append_left l hx)) hout
    · cases List.mem_cons.mp hx with
      | inl hx => exact absurd (hx ▸ List.mem_cons_self) hout
      | inr hx => exact absurd (List.mem_cons_of_mem head (List.mem_append_right xs hx)) hout

theorem Holds.listSplice (h : Holds m s ∅) (hne : list ≠ head) (hk : s.entries list = some xs)
    (hl : s.entries head = some l) (hxs : xs ≠ []) :
    ∃ m', listSplice list head m = some m' ∧
      Holds m' (((s.drop list).release list).put head (xs ++ l)) ∅ := by
  obtain ⟨m', hrun, h'⟩ := h.internalListSplice hne hk hl hxs
  refine ⟨m', ?_, (h'.release rfl).hand_congr (by simp)⟩
  simp [ListHead.listSplice, listEmpty_spec (h.ring list xs hk), hxs, hrun]

theorem listSplice_of_empty (h : Holds m s ∅) (hk : s.entries list = some []) :
    listSplice list head m = some m := by
  simp [ListHead.listSplice, listEmpty_spec (h.ring list [] hk)]

theorem Holds.listSpliceInit (h : Holds m s ∅) (hne : list ≠ head)
    (hk : s.entries list = some xs) (hl : s.entries head = some l) :
    ∃ m', listSpliceInit list head m = some m' ∧
      Holds m' ((s.put list []).put head (xs ++ l)) ∅ := by
  have hempty := listEmpty_spec (h.ring list xs hk)
  by_cases hxs : xs = []
  · subst hxs
    refine ⟨m, by simp [ListHead.listSpliceInit, hempty], ?_⟩
    rw [Lists.put_eq_self hk, List.nil_append, Lists.put_eq_self hl]
    exact h
  · obtain ⟨m₁, hrun, h₁⟩ := h.internalListSplice hne hk hl hxs
    obtain ⟨m', hinit, h'⟩ := h₁.initListHead
    refine ⟨m', by simp [ListHead.listSpliceInit, hempty, hxs, hrun, hinit], ?_⟩
    rw [Lists.drop_put_of_ne s hne, Lists.put_drop] at h'
    rw [Lists.put_comm s hne]
    exact h'

end Splice

section Walk

variable {done todo victims : List Addr} {pos : Addr}

/-- The lists when a walk that deletes the `victims` has been over `done`, and has `todo` ahead. -/
def Lists.walked (s : Lists) (head : Addr) (done todo victims : List Addr) : Lists :=
  (s.delete head done victims).put head (done.filter (· ∉ victims) ++ todo)

theorem Lists.walked_start (hl : s.entries head = some l) : s.walked head [] l victims = s := by
  have hput := Lists.put_eq_self hl
  simpa [walked, delete, put] using hput

theorem Lists.walked_end : s.walked head l [] victims = s.delete head l victims := by
  rw [walked, List.append_nil]
  exact Lists.put_eq_self (Function.update_self ..)

theorem Lists.walked_keep (hpos : pos ∉ victims) :
    s.walked head done (pos :: todo) victims = s.walked head (done ++ [pos]) todo victims := by
  have hloose : ∀ x, x ∈ done ++ [pos] ∧ x ∈ victims ↔ x ∈ done ∧ x ∈ victims := by
    intro x
    rw [List.mem_append, List.mem_singleton]
    constructor
    · rintro ⟨hx | rfl, hv⟩
      · exact ⟨hx, hv⟩
      · exact absurd hv hpos
    · rintro ⟨hx, hv⟩
      exact ⟨Or.inl hx, hv⟩
  simp only [walked, delete, put, hloose, Function.update_idem, List.filter_append,
    List.filter_cons, hpos, not_false_eq_true, decide_true, if_true, List.filter_nil,
    List.append_assoc, List.singleton_append]

theorem Lists.walked_delete (hpos : pos ∈ victims) :
    ((s.walked head done (pos :: todo) victims).put head
      (done.filter (· ∉ victims) ++ todo)).release pos =
      s.walked head (done ++ [pos]) todo victims := by
  have hloose : insert pos (s.loose ∪ {x | x ∈ done ∧ x ∈ victims}) =
      s.loose ∪ {x | x ∈ done ++ [pos] ∧ x ∈ victims} := by
    ext x
    simp only [Set.mem_insert_iff, Set.mem_union, Set.mem_ofPred_eq, List.mem_append,
      List.mem_singleton]
    constructor
    · rintro (rfl | hx | ⟨hx, hv⟩)
      · exact Or.inr ⟨Or.inr rfl, hpos⟩
      · exact Or.inl hx
      · exact Or.inr ⟨Or.inl hx, hv⟩
    · rintro (hx | ⟨hx | hx, hv⟩)
      · exact Or.inr (Or.inl hx)
      · exact Or.inr (Or.inr ⟨hx, hv⟩)
      · exact Or.inl hx
  simp only [walked, delete, put, release, hloose, Function.update_idem, List.filter_append,
    List.filter_cons, hpos, not_true_eq_false, decide_false, Bool.false_eq_true, if_false,
    List.filter_nil, List.append_nil]

/-- The walk reads its next node before its body deletes the one that it is at. -/
theorem Holds.listForEachSafe (h : Holds m s ∅) (hl : s.entries head = some l)
    (victims : List Addr) {fuel : Nat} (hfuel : l.length < fuel) :
    ∃ m', listForEachSafe id (delete victims) head fuel m = some m' ∧
      Holds m' (s.delete head l victims) ∅ := by
  let I : List Addr → Heap → Prop := fun todo m' =>
    ∃ done, l = done ++ todo ∧ Holds m' (s.walked head done todo victims) ∅
  have hstart : I l m := ⟨[], rfl, by rwa [Lists.walked_start hl]⟩
  have hring : ∀ todo m', I todo m' → ∃ seen, m'.Ring (head :: (seen ++ todo) : List Addr) := by
    rintro todo m' ⟨done, -, hm⟩
    exact ⟨_, hm.ring head _ (Lists.entries_put_self _ _ _)⟩
  have hbody : ∀ pos todo m', I (pos :: todo) m' →
      ∃ m'', delete victims pos m' = some m'' ∧ I todo m'' := by
    rintro pos todo m' ⟨done, hdone, hm⟩
    have hdone : l = (done ++ [pos]) ++ todo := by rw [hdone, List.append_cons]
    by_cases hpos : pos ∈ victims
    · obtain ⟨m'', hdel, hm''⟩ := hm.listDel (Lists.entries_put_self _ _ _)
      refine ⟨m'', by rw [delete, if_pos hpos, hdel], done ++ [pos], hdone, ?_⟩
      rw [← Lists.walked_delete hpos]
      exact (hm''.release rfl).hand_congr (by simp)
    · refine ⟨m', by rw [delete, if_neg hpos], done ++ [pos], hdone, ?_⟩
      rwa [← Lists.walked_keep hpos]
  obtain ⟨m', hrun, done, hdone, hm⟩ :=
    listForEachSafe_rule hring hbody (h.ring head l hl) hstart hfuel
  rw [List.append_nil] at hdone
  subst hdone
  rw [Lists.walked_end] at hm
  exact ⟨m', hrun, hm⟩

end Walk

theorem Holds.alloc (h : Holds m s ∅) (ha : a ∉ s.nodes) (garbage : Link Addr) :
    Holds (Function.update m a (some garbage)) s {a} := by
  constructor
  · intro k r he
    apply (h.ring k r he).of_agrees (fun x hx => Function.update_of_ne hx _ _)
    rintro x hx rfl
    exact ha (Or.inr ⟨k, r, he, hx⟩)
  · exact h.apart
  · exact h.loose
  · rintro x rfl
    exact ha
  · intro x
    by_cases hx : x = a
    · simp [Live, hx]
    · have hlive := h.live x
      simpa [Live, hx] using hlive

theorem Holds.notMem_nodes_iff (h : Holds m s ∅) : a ∉ s.nodes ↔ m a = none := by
  have hlive := h.live a
  rw [or_iff_left (Set.notMem_empty a)] at hlive
  rw [← hlive, Live, Bool.not_eq_true, Option.isSome_eq_false_iff, Option.isNone_iff_eq_none]

theorem Holds.free (h : Holds m s {a}) :
    (m a).isSome ∧ Holds (Function.update m a none) s ∅ := by
  have ha : a ∉ s.nodes := h.held a rfl
  refine ⟨(h.live a).mpr (Or.inr rfl), ?_⟩
  constructor
  · intro k r he
    apply (h.ring k r he).of_agrees (fun x hx => Function.update_of_ne hx _ _)
    rintro x hx rfl
    exact ha (Or.inr ⟨k, r, he, hx⟩)
  · exact h.apart
  · exact h.loose
  · intro x hx
    exact absurd hx (Set.notMem_empty x)
  · intro x
    by_cases hx : x = a
    · simp [Live, hx, ha]
    · have hlive := h.live x
      simpa [Live, hx] using hlive

/-- The call has an outcome in memory, with the answer that the lists give. -/
theorem Calls.outcome {op : Op} {ans : Answer} (hc : Calls s op s' ans) (h : Holds m s ∅) :
    ∃ m', op.run m = some (m', ans) ∧ Holds m' s' ∅ := by
  cases hc with
  | alloc garbage ha =>
    have h' := (h.alloc ha garbage).release rfl
    exact ⟨_, by simp [Op.run, h.notMem_nodes_iff.mp ha], h'.hand_congr (by simp)⟩
  | free ht =>
    obtain ⟨hsome, h'⟩ := (h.taken ht).free
    exact ⟨_, by simp [Op.run, hsome], h'⟩
  | initListHead ht =>
    obtain ⟨m', hrun, h'⟩ := (h.taken ht).initListHead
    exact ⟨m', by simp [Op.run, hrun], h'⟩
  | listAdd ht hl =>
    obtain ⟨m', hrun, h'⟩ := (h.taken ht).listAdd hl
    exact ⟨m', by simp [Op.run, hrun], h'⟩
  | listAddTail ht hl =>
    obtain ⟨m', hrun, h'⟩ := (h.taken ht).listAddTail hl
    exact ⟨m', by simp [Op.run, hrun], h'⟩
  | listDel hl =>
    obtain ⟨m', hrun, h'⟩ := h.listDel hl
    exact ⟨m', by simp [Op.run, hrun], (h'.release rfl).hand_congr (by simp)⟩
  | listDelInit hl =>
    obtain ⟨m', hrun, h'⟩ := h.listDelInit hl
    exact ⟨m', by simp [Op.run, hrun], h'⟩
  | listMove hl hk =>
    obtain ⟨m', hrun, h'⟩ := h.listMove hl hk
    exact ⟨m', by simp [Op.run, hrun], h'⟩
  | listMoveTail hl hk =>
    obtain ⟨m', hrun, h'⟩ := h.listMoveTail hl hk
    exact ⟨m', by simp [Op.run, hrun], h'⟩
  | listEmpty hl => exact ⟨m, by simp [Op.run, listEmpty_spec (h.ring _ _ hl)], h⟩
  | listSplice hne hk hl hxs =>
    obtain ⟨m', hrun, h'⟩ := h.listSplice hne hk hl hxs
    exact ⟨m', by simp [Op.run, hrun], h'⟩
  | listSpliceEmpty hk => exact ⟨m, by simp [Op.run, listSplice_of_empty h hk], h⟩
  | listSpliceInit hne hk hl =>
    obtain ⟨m', hrun, h'⟩ := h.listSpliceInit hne hk hl
    exact ⟨m', by simp [Op.run, hrun], h'⟩
  | listForEach hl hfuel =>
    exact ⟨m, by simp [Op.run, listForEach_spec (h.ring _ _ hl) hfuel], h⟩
  | listForEachEntryReverse hl hfuel =>
    exact ⟨m, by simp [Op.run, listForEachEntryReverse_spec (h.ring _ _ hl) hfuel], h⟩
  | listForEachSafe victims hl hfuel =>
    obtain ⟨m', hrun, h'⟩ := h.listForEachSafe hl victims hfuel
    exact ⟨m', by simp [Op.run, hrun], h'⟩

theorem holds_empty : Holds machine.init Lists.empty ∅ := by
  have hno : ∀ k r, Lists.empty.entries k = some r → False := fun k r he =>
    absurd he (Option.some_ne_none r).symm
  constructor
  · intro k r he
    exact (hno k r he).elim
  · intro k k' r r' he
    exact (hno k r he).elim
  · intro x hx
    exact absurd hx (Set.notMem_empty x)
  · intro x hx
    exact absurd hx (Set.notMem_empty x)
  · intro x
    constructor
    · intro hx
      exact absurd hx (by simp [Live, machine])
    · rintro ((hx | ⟨k, r, he, -⟩) | hx)
      · exact absurd hx (Set.notMem_empty x)
      · exact (hno k r he).elim
      · exact absurd hx (Set.notMem_empty x)

theorem Session.outcome {ops : List Op} {answers : List Answer}
    (hs : Session s ops s' answers) (h : Holds m s ∅) :
    ∃ m', machine.exec m ops = some (m', answers) ∧ Holds m' s' ∅ := by
  induction hs generalizing m with
  | nil s => exact ⟨m, rfl, h⟩
  | @cons s s₁ s' op ops ans answers hcall _ ih =>
    obtain ⟨m₁, hrun, h₁⟩ := hcall.outcome h
    obtain ⟨m', hrest, h'⟩ := ih h₁
    refine ⟨m', ?_, h'⟩
    have hstep : machine.step m op = some (m₁, [ans]) := by
      simp only [machine, hrun, Option.map_some]
    rw [Machine.exec_cons hstep, hrest]
    rfl

/-- Whatever calls a program makes, as long as each is allowed on the lists as they are, each has
its outcome: no store and no load hits a node that is not allocated, the answers are those of
the lists, and the nodes that are allocated in the end are those of the lists. -/
theorem session_run {ops : List Op} {answers : List Answer}
    (hs : Session Lists.empty ops s answers) :
    ∃ m, machine.Run ops m answers ∧ Holds m s ∅ :=
  hs.outcome holds_empty

/-- A list of three nodes: one is deleted and freed, and a safe walk deletes another. -/
theorem session_run_del :
    ∃ m, machine.Run [.alloc 8 ⟨0, 0⟩, .initListHead 8, .alloc 16 ⟨0, 0⟩, .listAddTail 16 8,
      .alloc 24 ⟨0, 0⟩, .listAddTail 24 8, .alloc 32 ⟨0, 0⟩, .listAddTail 32 8, .listForEach 4 8,
      .listDel 16, .free 16, .listForEachSafe [24] 3 8, .listForEach 2 8, .free 24,
      .listEmpty 8] m [.nothing, .nothing, .nothing, .nothing, .nothing, .nothing, .nothing,
        .nothing, .nodes [16, 24, 32], .nothing, .nothing, .nothing, .nodes [32], .nothing,
        .truth false] := by
  have hs : ∃ s, Session Lists.empty [.alloc 8 ⟨0, 0⟩, .initListHead 8, .alloc 16 ⟨0, 0⟩,
      .listAddTail 16 8, .alloc 24 ⟨0, 0⟩, .listAddTail 24 8, .alloc 32 ⟨0, 0⟩,
      .listAddTail 32 8, .listForEach 4 8, .listDel 16, .free 16, .listForEachSafe [24] 3 8,
      .listForEach 2 8, .free 24, .listEmpty 8] s [.nothing, .nothing, .nothing, .nothing,
        .nothing, .nothing, .nothing, .nothing, .nodes [16, 24, 32], .nothing, .nothing, .nothing,
        .nodes [32], .nothing, .truth false] := by
    refine ⟨_, .cons (.alloc _ ?_) <| .cons (.initListHead (.loose ?_)) <| .cons (.alloc _ ?_) <|
      .cons (@Calls.listAddTail _ 16 8 [] _ (.loose ?_) ?_) <| .cons (.alloc _ ?_) <|
      .cons (@Calls.listAddTail _ 24 8 [16] _ (.loose ?_) ?_) <| .cons (.alloc _ ?_) <|
      .cons (@Calls.listAddTail _ 32 8 [16, 24] _ (.loose ?_) ?_) <| .cons (.listForEach ?_ ?_) <|
      .cons (@Calls.listDel _ 8 16 [] [24, 32] ?_) <| .cons (.free (.loose ?_)) <|
      .cons (@Calls.listForEachSafe _ [24] _ 8 [24, 32] ?_ ?_) <| .cons (.listForEach ?_ ?_) <|
      .cons (.free (.loose ?_)) <| .cons (@Calls.listEmpty _ 8 [32] ?_) <| .nil _⟩
    all_goals simp [Lists.nodes, Lists.Member, Lists.empty, Lists.put, Lists.take, Lists.release,
      Lists.delete, Function.update_apply]
  obtain ⟨s, hs⟩ := hs
  obtain ⟨m, hrun, -⟩ := session_run hs
  exact ⟨m, hrun⟩

end LinuxInternals.ListHead
