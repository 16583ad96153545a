import LinuxInternals.ListHead.Basic

/-!
# The functions of `list.h` on rings

For each function, what it makes of the ring that it is called on, and that it stores in the
nodes of this ring only.
-/

namespace LinuxInternals.ListHead

open Links

variable {m : Heap}

theorem initListHead_spec {ptr : Addr} (h : m.Live ptr) :
    ∃ m', initListHead ptr m = some m' ∧ m'.Ring ([ptr] : List Addr) ∧ m.Writes {ptr} m' := by
  obtain ⟨m₁, h₁⟩ := exists_setNext h ptr
  obtain ⟨m', h₂⟩ := exists_setPrev ((writes_setNext h₁).live ptr |>.mpr h) ptr
  have hr := rejoins_of_setNext h₁ h₂
  refine ⟨m', ?_, ring_singleton hr, hr.writes.mono (by simp)⟩
  rw [initListHead, h₁]
  exact h₂

theorem internalListAdd_spec {new prev next : Addr} (hnew : m.Live new) (hprev : m.Live prev)
    (hnext : m.Live next) :
    ∃ m₁ m', internalListAdd new prev next m = some m' ∧ m.Rejoins new next m₁ ∧
      m₁.Rejoins prev new m' := by
  obtain ⟨a, ha⟩ := exists_setPrev hnext new
  have hla := (writes_setPrev ha).live
  obtain ⟨b, hb⟩ := exists_setNext ((hla new).mpr hnew) next
  have hr := rejoins_of_setPrev ha hb
  obtain ⟨c, hc⟩ := exists_setPrev ((hr.writes.live new).mpr hnew) prev
  have hlc := (writes_setPrev hc).live
  obtain ⟨m', hd⟩ := exists_setNext ((hlc prev).mpr ((hr.writes.live prev).mpr hprev)) new
  refine ⟨b, m', ?_, hr, rejoins_of_setPrev hc hd⟩
  simp only [internalListAdd, ha, hb, hc, hd, Option.bind_eq_bind, Option.bind_some]

theorem internalListDel_spec {prev next : Addr} (hprev : m.Live prev) (hnext : m.Live next) :
    ∃ m', internalListDel prev next m = some m' ∧ m.Rejoins prev next m' := by
  obtain ⟨a, ha⟩ := exists_setPrev hnext prev
  obtain ⟨m', hb⟩ := exists_setNext ((writes_setPrev ha).live prev |>.mpr hprev) next
  refine ⟨m', ?_, rejoins_of_setPrev ha hb⟩
  rw [internalListDel, ha]
  exact hb

variable {head new : Addr} {l : List Addr}

theorem listAdd_spec (h : m.Ring (head :: l : List Addr)) (hlive : m.Live new)
    (hnew : new ∉ head :: l) :
    ∃ m', listAdd new head m = some m' ∧ m'.Ring (head :: new :: l : List Addr) ∧
      m.Writes {x | x ∈ new :: head :: l} m' := by
  obtain ⟨next, hnext, hmem⟩ := h.exists_next
  obtain ⟨m₁, m', hadd, h₁, h₂⟩ :=
    internalListAdd_spec hlive (h.live List.mem_cons_self) (h.live hmem)
  refine ⟨m', ?_, h.insert hnew hnext h₁ h₂, (h₁.writes.mono ?_).trans (h₂.writes.mono ?_)⟩
  · rw [listAdd, hnext]
    exact hadd
  · rintro x (rfl | rfl)
    · exact List.mem_cons_self
    · exact List.mem_cons_of_mem new hmem
  · rintro x (rfl | rfl)
    · exact List.mem_cons_of_mem new List.mem_cons_self
    · exact List.mem_cons_self

theorem listAddTail_spec (h : m.Ring (head :: l : List Addr)) (hlive : m.Live new)
    (hnew : new ∉ head :: l) :
    ∃ m', listAddTail new head m = some m' ∧ m'.Ring (head :: (l ++ [new]) : List Addr) ∧
      m.Writes {x | x ∈ new :: head :: l} m' := by
  obtain ⟨prev, hprev, hmem⟩ := h.exists_prev
  obtain ⟨m₁, m', hadd, h₁, h₂⟩ :=
    internalListAdd_spec hlive (h.live hmem) (h.live List.mem_cons_self)
  refine ⟨m', ?_, ?_, (h₁.writes.mono ?_).trans (h₂.writes.mono ?_)⟩
  · rw [listAddTail, hprev]
    exact hadd
  · -- read from its last node on, the ring gets the new node behind its first
    rw [h.prev_eq] at hprev
    obtain ⟨xs, hxs⟩ := List.getLast?_eq_some_iff.mp hprev
    have hlast : m.Ring (prev :: xs : List Addr) :=
      Ring.rotate (show m.Ring (xs ++ [prev] : List Addr) from hxs ▸ h)
    have hhead : m.next prev = some head := by
      rw [hlast.next_eq, ← hxs, List.head?_cons]
    have hout : new ∉ prev :: xs := by
      rw [hxs] at hnew
      intro hmem
      exact hnew (List.perm_append_singleton prev xs |>.mem_iff.mpr hmem)
    have hring : m'.Ring ((prev :: [new]) ++ xs : List Addr) := hlast.insert hout hhead h₁ h₂
    have hrot := hring.rotate
    rw [List.append_cons, ← hxs] at hrot
    exact hrot
  · rintro x (rfl | rfl)
    · exact List.mem_cons_self
    · exact List.mem_cons_of_mem _ List.mem_cons_self
  · rintro x (rfl | rfl)
    · exact List.mem_cons_of_mem new hmem
    · exact List.mem_cons_self

variable {entry : Addr} {xs ys : List Addr}

theorem unlink_spec (h : m.Ring (head :: (xs ++ entry :: ys) : List Addr)) :
    ∃ m', unlink entry m = some m' ∧ m'.Ring (head :: (xs ++ ys) : List Addr) ∧
      m.Writes {x | x ∈ head :: (xs ++ ys)} m' := by
  have hentry := h.to_front
  have hne : ys ++ head :: xs ≠ [] := List.append_ne_nil_of_right_ne_nil ys (List.cons_ne_nil _ _)
  have hperm : (ys ++ head :: xs).Perm (head :: (xs ++ ys)) := List.perm_append_comm
  obtain ⟨prev, hprev, hmp⟩ := hentry.exists_prev_of_ne_nil hne
  obtain ⟨next, hnext, hmn⟩ := hentry.exists_next_of_ne_nil hne
  obtain ⟨m', hdel, hr⟩ := internalListDel_spec (hentry.live (List.mem_cons_of_mem entry hmp))
    (hentry.live (List.mem_cons_of_mem entry hmn))
  refine ⟨m', ?_, ?_, hr.writes.mono ?_⟩
  · simp only [unlink, hprev, hnext, Option.bind_eq_bind, Option.bind_some]
    exact hdel
  · exact Ring.rotate (hentry.remove hne hprev hnext hr)
  · rintro x (rfl | rfl)
    · exact hperm.mem_iff.mp hmp
    · exact hperm.mem_iff.mp hmn

theorem listDel_spec (h : m.Ring (head :: (xs ++ entry :: ys) : List Addr)) :
    ∃ m', listDel entry m = some m' ∧ m'.Ring (head :: (xs ++ ys) : List Addr) ∧
      m.Writes {x | x ∈ entry :: head :: (xs ++ ys)} m' := by
  obtain ⟨m₁, hunlink, hring, hw⟩ := unlink_spec h
  have hlive := (hw.live entry).mpr (h.to_front.live List.mem_cons_self)
  obtain ⟨m₂, hnext⟩ := exists_setNext hlive LIST_POISON1
  obtain ⟨m', hprev⟩ := exists_setPrev ((writes_setNext hnext).live entry |>.mpr hlive) LIST_POISON2
  have hpoison := (writes_setNext hnext).trans (writes_setPrev hprev)
  refine ⟨m', ?_, ?_, (hw.mono ?_).trans (hpoison.mono ?_)⟩
  · simp only [listDel, hunlink, hnext, hprev, Option.bind_eq_bind, Option.bind_some]
  · apply hring.of_agrees hpoison.agrees
    intro x hx hxe
    exact h.notMem (Set.mem_singleton_iff.mp hxe ▸ hx)
  · exact fun x hx => List.mem_cons_of_mem entry hx
  · rintro x rfl
    exact List.mem_cons_self

theorem listEmpty_spec (h : m.Ring (head :: l : List Addr)) :
    listEmpty head m = some (decide (l = [])) := by
  rw [listEmpty, h.next_eq]
  cases l with
  | nil => simp
  | cons x l =>
    have hne : x ≠ head := fun hx => (List.nodup_cons.mp h.nodup).1 (hx ▸ List.mem_cons_self)
    simp [hne]

variable {list : Addr}

theorem internalListSplice_spec (hlist : m.Ring (list :: xs : List Addr))
    (h : m.Ring (head :: l : List Addr)) (hxs : xs ≠ [])
    (hd : List.Disjoint (list :: xs) (head :: l)) :
    ∃ m', internalListSplice list head m = some m' ∧
      m'.Ring (head :: (xs ++ l) : List Addr) ∧ m.Writes {x | x ∈ head :: (xs ++ l)} m' := by
  obtain ⟨first, hfirst, hmf⟩ := hlist.exists_next_of_ne_nil hxs
  obtain ⟨last, hlast, hml⟩ := hlist.exists_prev_of_ne_nil hxs
  obtain ⟨at_, hat, hma⟩ := h.exists_next
  obtain ⟨a, ha⟩ := exists_setPrev (hlist.live (List.mem_cons_of_mem list hmf)) head
  have hla := (writes_setPrev ha).live
  obtain ⟨b, hb⟩ := exists_setNext ((hla head).mpr (h.live List.mem_cons_self)) first
  have hr₁ := rejoins_of_setPrev ha hb
  have hlb := hr₁.writes.live
  obtain ⟨c, hc⟩ := exists_setNext
    ((hlb last).mpr (hlist.live (List.mem_cons_of_mem list hml))) at_
  have hlc := (writes_setNext hc).live
  obtain ⟨m', hm'⟩ := exists_setPrev ((hlc at_).mpr ((hlb at_).mpr (h.live hma))) last
  have hr₂ := rejoins_of_setNext hc hm'
  have hhead : head ∈ head :: (xs ++ l) := List.mem_cons_self
  have hmid : ∀ x ∈ xs, x ∈ head :: (xs ++ l) := fun x hx =>
    List.mem_cons_of_mem head (List.mem_append_left l hx)
  refine ⟨m', ?_, hlist.splice h hxs hd hfirst hlast hat hr₁ hr₂,
    (hr₁.writes.mono ?_).trans (hr₂.writes.mono ?_)⟩
  · simp only [internalListSplice, hfirst, hlast, hat, ha, hb, hc, hm', Option.bind_eq_bind,
      Option.bind_some]
  · rintro x (rfl | rfl)
    · exact hhead
    · exact hmid x hmf
  · rintro x (rfl | rfl)
    · exact hmid x hml
    · rcases List.mem_cons.mp hma with rfl | hx
      · exact hhead
      · exact List.mem_cons_of_mem head (List.mem_append_right xs hx)

/-- The body of `list_for_each` runs on the entries in order. -/
theorem forEach_spec (hseg : m.Seg (l ++ [head])) (hn : head ∉ l) {fuel : Nat}
    (hfuel : l.length < fuel) {pos : Addr} (hpos : (l ++ [head]).head? = some pos) :
    forEach head m fuel pos = some l := by
  induction l generalizing fuel pos with
  | nil =>
    obtain ⟨fuel, rfl⟩ := Nat.exists_eq_add_one.mpr hfuel
    rw [forEach, if_pos (Option.some.inj hpos).symm]
  | cons x l ih =>
    obtain ⟨fuel, rfl⟩ := Nat.exists_eq_add_one.mpr (Nat.zero_lt_of_lt hfuel)
    obtain rfl := Option.some.inj hpos
    obtain ⟨hx, hrest⟩ := List.isChain_cons.mp hseg
    have hne : x ≠ head := fun h => hn (h ▸ List.mem_cons_self)
    have hsome : ∃ next, (l ++ [head]).head? = some next := by
      cases l with
      | nil => exact ⟨head, rfl⟩
      | cons y l => exact ⟨y, rfl⟩
    obtain ⟨next, hnext⟩ := hsome
    have hload : m.next x = some next := (hx next hnext).1
    have hloop := ih hrest (fun h => hn (List.mem_cons_of_mem x h))
      (Nat.lt_of_succ_lt_succ hfuel) hnext
    simp only [forEach, if_neg hne, hload, hloop, Option.bind_eq_bind, Option.bind_some,
      Option.pure_def]

theorem listForEach_spec (h : m.Ring (head :: l : List Addr)) {fuel : Nat}
    (hfuel : l.length < fuel) : listForEach fuel head m = some l := by
  obtain ⟨pos, hpos, -⟩ := h.exists_next
  rw [listForEach, hpos]
  rw [h.next_eq] at hpos
  exact forEach_spec (List.isChain_cons.mp h.seg_append).2 (List.nodup_cons.mp h.nodup).1 hfuel hpos

theorem forEachReverse_eq_forEach (head : Addr) (m : Heap) (fuel : Nat) (pos : Addr) :
    forEachReverse head m fuel pos = forEach head m.mirror fuel pos := by
  induction fuel generalizing pos with
  | zero => rfl
  | succ fuel ih => simp only [forEachReverse, forEach, next_mirror, ih]

theorem listForEachEntryReverse_spec (h : m.Ring (head :: l : List Addr)) {fuel : Nat}
    (hfuel : l.length < fuel) : listForEachEntryReverse fuel head m = some l.reverse := by
  obtain ⟨pos, hpos, -⟩ := h.exists_prev
  rw [listForEachEntryReverse, hpos]
  have hseg : m.mirror.Seg (l.reverse ++ [head]) := by
    rw [← List.reverse_cons]
    exact h.seg.mirror
  have hout : head ∉ l.reverse := fun hmem =>
    (List.nodup_cons.mp h.nodup).1 (List.mem_reverse.mp hmem)
  rw [h.prev_eq, ← List.head?_reverse, List.reverse_cons] at hpos
  exact (forEachReverse_eq_forEach head m fuel pos).trans
    (forEach_spec hseg hout (by rwa [List.length_reverse]) hpos)

section Loop

variable {σ : Type} {links : σ → Heap} {body : Addr → σ → Option σ}
  {I : List Addr → σ → Prop}

/-- The nodes `todo` are those that the loop has not seen. Its body may take the one it is at out
of the list. -/
theorem forEachSafe_rule
    (hring : ∀ todo s, I todo s → ∃ seen, (links s).Ring (head :: (seen ++ todo) : List Addr))
    (hbody : ∀ pos todo s, I (pos :: todo) s → ∃ s', body pos s = some s' ∧ I todo s')
    {todo : List Addr} {fuel : Nat} {pos n : Addr} {s : σ} (hI : I todo s)
    (hfuel : todo.length < fuel) (hpos : (todo ++ [head]).head? = some pos)
    (hn : (links s).next pos = some n) :
    ∃ s', forEachSafe links body head fuel pos n s = some s' ∧ I [] s' := by
  induction todo generalizing fuel pos n s with
  | nil =>
    obtain ⟨fuel, rfl⟩ := Nat.exists_eq_add_one.mpr hfuel
    refine ⟨s, ?_, hI⟩
    rw [forEachSafe, if_pos (Option.some.inj hpos).symm]
  | cons x todo ih =>
    obtain ⟨fuel, rfl⟩ := Nat.exists_eq_add_one.mpr (Nat.zero_lt_of_lt hfuel)
    obtain rfl := Option.some.inj hpos
    obtain ⟨seen, hr⟩ := hring _ s hI
    have hne : x ≠ head := by
      rintro rfl
      exact (List.nodup_cons.mp hr.nodup).1 (List.mem_append_right _ List.mem_cons_self)
    -- the pointer read before the body leads to the next node that is to be seen
    have hnext : (todo ++ [head]).head? = some n := by
      have hx := hr.to_front.next_eq
      rw [hn] at hx
      cases todo with
      | nil => exact hx.symm
      | cons y todo => exact hx.symm
    obtain ⟨s₁, hs₁, hI₁⟩ := hbody x todo s hI
    obtain ⟨seen₁, hr₁⟩ := hring todo s₁ hI₁
    have hmem : n ∈ head :: (seen₁ ++ todo) := by
      cases todo with
      | nil => exact Option.some.inj hnext ▸ List.mem_cons_self
      | cons y todo =>
        obtain rfl := Option.some.inj hnext
        exact List.mem_cons_of_mem head (List.mem_append_right _ List.mem_cons_self)
    obtain ⟨n', hn'⟩ := live_iff_next.mp (hr₁.live hmem)
    obtain ⟨s', hs', hI'⟩ := ih hI₁ (Nat.lt_of_succ_lt_succ hfuel) hnext hn'
    refine ⟨s', ?_, hI'⟩
    simp only [forEachSafe, if_neg hne, hs₁, hn', Option.bind_eq_bind, Option.bind_some]
    exact hs'

theorem listForEachSafe_rule
    (hring : ∀ todo s, I todo s → ∃ seen, (links s).Ring (head :: (seen ++ todo) : List Addr))
    (hbody : ∀ pos todo s, I (pos :: todo) s → ∃ s', body pos s = some s' ∧ I todo s')
    {l : List Addr} {fuel : Nat} {s : σ} (hr : (links s).Ring (head :: l : List Addr))
    (hI : I l s) (hfuel : l.length < fuel) :
    ∃ s', listForEachSafe links body head fuel s = some s' ∧ I [] s' := by
  obtain ⟨pos, hpos, hmem⟩ := hr.exists_next
  obtain ⟨n, hn⟩ := live_iff_next.mp (hr.live hmem)
  have hfirst : (l ++ [head]).head? = some pos := by rw [← hr.next_eq, hpos]
  obtain ⟨s', hs', hI'⟩ := forEachSafe_rule hring hbody hI hfuel hfirst hn
  refine ⟨s', ?_, hI'⟩
  simp only [listForEachSafe, hpos, hn, Option.bind_eq_bind, Option.bind_some]
  exact hs'

end Loop

end LinuxInternals.ListHead
