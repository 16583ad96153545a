import LinuxInternals.Multilist.Linear

/-!
# The module is unloaded

`exit_modlist_module` first sees to it that nobody is in `control_write` any more, and then takes
the entries off the front of `list_of_proc_lists` one after another. When it is through, no entry
is left, nobody is in the module, and all that the module ever allocated has been freed.
-/

namespace LinuxInternals.Multilist

open Text Lifetime Ownership

section Exit

variable {ι : Type} [DecidableEq ι] {s s' : State ι} {i : ι} {act : Act} {es : List Event}

/-- The entry is still in the list. -/
def RemovePc.linked : RemovePc → Bool
  | .removeProcEntry | .wait _ | .lockLists => true
  | _ => false

/-- How the loop of `exit_modlist_module` finds the list of the entries. -/
def Pc.Leads (l : List Addr) : Pc → Prop
  | .exit (.next pos) => l.head? = pos
  | .remove (.exit tmp) a c => if c.linked then l.head? = some a ∧ l.tail.head? = tmp
    else l.head? = tmp
  | _ => True

theorem Pc.leads_of_not_alone {pc : Pc} (h : pc.alone = false) (l : List Addr) : pc.Leads l := by
  unfold Pc.Leads
  split
  · cases h
  · cases h
  · trivial

theorem nextOf_head {a : Addr} {l : List Addr} (h : l.head? = some a) :
    nextOf a l = l.tail.head? := by
  cases l with
  | nil => cases h
  | cons b l =>
    cases h
    simp [nextOf]

theorem lists_eq_of_moves (hmoves : Moves s i act s' es) (hcontrols : (s.pc i).controls = false)
    (hexits : (s.pc i).exits = false) : s'.lists = s.lists := by
  cases hmoves with
  | lockAdd hpc =>
    rw [hpc] at hcontrols
    cases hcontrols
  | @unlink k a hpc =>
    rw [hpc] at hcontrols hexits
    cases k with
    | control => cases hcontrols
    | exit => cases hexits
  | _ => rfl

theorem leads_of_moves (hmoves : Moves s i act s' es) (h : (s.pc i).Leads s.lists) :
    (s'.pc i).Leads s'.lists := by
  have hself {p : ι → Pc} {pc : Pc} : Function.update p i pc i = pc := Function.update_self ..
  cases hmoves with
  | spinLists | spin => exact h
  | waitedControl =>
    simp only [State.goto, hself]
    rfl
  | exitRemove hpc =>
    rw [hpc] at h
    simp only [State.goto, hself]
    exact ⟨h, (nextOf_head h).symm⟩
  | @unlink k a hpc =>
    rw [hpc] at h
    simp only [State.goto, hself]
    cases k with
    | control => trivial
    | exit tmp =>
      obtain ⟨hhead, hnext⟩ : s.lists.head? = some a ∧ s.lists.tail.head? = tmp := h
      cases hl : s.lists with
      | nil =>
        rw [hl] at hhead
        cases hhead
      | cons b l =>
        rw [hl] at hhead hnext
        cases hhead
        rwa [List.erase_cons_head]
  | @vfree k a hpc =>
    rw [hpc] at h
    simp only [State.goto, hself]
    cases k with
    | control => trivial
    | exit tmp => exact h
  | @missing k a hpc | @waited k a _ hpc | @unregister k a _ hpc | @unlockUnlinked k a hpc
  | @cleanup k a hpc | @unlockEmpty k a hpc =>
    rw [hpc] at h
    simp only [State.goto, State.setNode, State.unlock, State.unlockLists, hself]
    cases k with
    | control => trivial
    | exit tmp => exact h
  | _ =>
    simp only [State.goto, State.setNode, State.unlock, State.unlockLists, hself]
    trivial

/-- `exit_modlist_module` has returned. -/
def State.Unloaded (s : State ι) : Prop := s.exited = true ∧ ∀ i, (s.pc i).exits = false

structure Leads (s : State ι) : Prop where
  leads : ∀ i, (s.pc i).Leads s.lists
  unloaded : s.Unloaded → s.control = false ∧ s.lists = [] ∧ ∀ j, (s.pc j).controls = false

theorem Leads.step (h : Leads s) (hL : Leaving s) (hmoves : Moves s i act s' es) : Leads s' := by
  constructor
  · intro j
    rcases eq_or_ne j i with rfl | hji
    · exact leads_of_moves hmoves (h.leads j)
    · rw [pc_of_ne hmoves hji]
      cases halone : (s.pc j).alone with
      | false => exact Pc.leads_of_not_alone halone _
      | true =>
        have hj : (s.pc j).exits = true := Pc.exits_of_closes (Pc.closes_of_alone halone)
        rw [lists_eq_of_moves hmoves (hL.alone j halone i)]
        · exact h.leads j
        · apply Bool.eq_false_iff.mpr
          intro hi
          exact hji (hL.unique j i hj hi)
  · rintro ⟨hexited, hexits⟩
    have hothers {j : ι} (hj : (s.pc j).exits = true) : j = i := by
      by_contra hji
      have hnot := hexits j
      rw [pc_of_ne hmoves hji, hj] at hnot
      cases hnot
    cases hi : (s.pc i).exits with
    | true =>
      -- the loop has come to the end of the list
      have hnot := hexits i
      have hleads := h.leads i
      cases hmoves with
      | exited hpc =>
        rw [hpc] at hleads
        refine ⟨hL.closed i (by rw [hpc]; rfl), List.head?_eq_none_iff.mp hleads, fun j => ?_⟩
        have hcontrols := hL.alone i (by rw [hpc]; rfl)
        rcases eq_or_ne j i with rfl | hji
        · simp [State.goto, Pc.controls]
        · simpa [State.goto, hji] using hcontrols j
      | @vfree k a hpc =>
        rw [hpc] at hi
        cases k with
        | control => cases hi
        | exit tmp => simp [State.goto, Pc.exits, Caller.pc] at hnot
      | _ => simp_all [State.goto, State.setNode, State.unlock, State.unlockLists, Pc.exits,
          Caller.exits]
    | false =>
      have hall : ∀ j, (s.pc j).exits = false := by
        intro j
        apply Bool.eq_false_iff.mpr
        intro hj
        rw [← hothers hj, hj] at hi
        cases hi
      have hwas : s.exited = true := by
        cases hmoves with
        | callExit =>
          have hnot := hexits i
          simp [State.goto, Pc.exits] at hnot
        | _ => exact hexited
      obtain ⟨hcontrol, hlists, hcontrols⟩ := h.unloaded ⟨hwas, hall⟩
      refine ⟨?_, ?_, fun j => ?_⟩
      · apply Bool.eq_false_iff.mpr
        intro hc
        rw [control_of_moves hmoves hc] at hcontrol
        cases hcontrol
      · rw [lists_eq_of_moves hmoves (hcontrols i) hi, hlists]
      · rcases eq_or_ne j i with rfl | hji
        · apply Bool.eq_false_iff.mpr
          intro hc
          rcases controls_of_moves hmoves hc with hc | hc
          · rw [hcontrols j] at hc
            cases hc
          · rw [hcontrol] at hc
            cases hc
        · rw [pc_of_ne hmoves hji]
          exact hcontrols j

theorem leads [Fintype ι] (h : (machine ι).Reachable s) : Leads s := by
  apply reachable_of_moves (I := Leads) _ _ h
  · constructor
    · exact fun _ => trivial
    · rintro ⟨⟨⟩, -⟩
  · exact fun s i act s' es hs hI hmoves => hI.step (leaving hs) hmoves

end Exit

section Frees

variable {ι : Type} [DecidableEq ι] {s s' : State ι} {i : ι} {act : Act} {es : List Event}
  {a x : Addr}

theorem not_free_deleteLoop (del : Int32 → Bool) (head prev : Obj) (l : List (Addr × Int32)) :
    (.node a, .free) ∉ (deleteLoop del head prev l).2 := by
  induction l generalizing prev with
  | nil => exact List.not_mem_nil
  | cons y l ih =>
    rw [deleteLoop]
    cases del y.2 with
    | true => simp [touches, ih]
    | false => simp [ih]

/-- What the loop takes out of the list it frees. -/
theorem deleteLoop_frees (del : Int32 → Bool) (head prev : Obj) {l : List (Addr × Int32)}
    (h : x ∈ l.map Prod.fst) : x ∈ (deleteLoop del head prev l).1.map Prod.fst ∨
      (.item x, .free) ∈ (deleteLoop del head prev l).2 := by
  induction l generalizing prev with
  | nil => cases h
  | cons y l ih =>
    rw [deleteLoop]
    rcases List.mem_cons.mp h with rfl | h
    · cases del y.2 with
      | true => exact .inr (by simp)
      | false => exact .inl (by simp)
    · cases del y.2 with
      | true =>
        refine (ih prev h).imp_right fun hfree => ?_
        simp [hfree]
      | false =>
        rcases ih (.item y.1) h with hkept | hfree
        · exact .inl (List.mem_cons_of_mem _ hkept)
        · exact .inr (List.mem_cons_of_mem _ hfree)

/-- The entry in the hands of the process has an empty list. -/
def Pc.hollow : Pc → Option Addr
  | .create _ (.procCreateData _ a) | .create _ (.lockFailed a) | .remove _ a .unlock
  | .remove _ a .vfree => some a
  | _ => none

theorem hollow_of_free (hmoves : Moves s i act s' es) (h : (.node a, .free) ∈ es) :
    (s.pc i).hollow = some a := by
  cases hmoves with
  | lockFailed hpc | vfree hpc =>
    rw [hpc]
    simp only [List.mem_singleton, Prod.mk.injEq, Obj.node.injEq, and_true] at h
    rw [h]
    rfl
  | cleanup =>
    simp [not_free_deleteLoop] at h
  | @writeLock a w job =>
    cases job with
    | add => simp [Job.run, touches] at h
    | remove | cleanup => simp [Job.run, not_free_deleteLoop] at h
  | _ => simp [touches] at h

theorem hollow_of_moves (hmoves : Moves s i act s' es) (h : (s'.pc i).hollow = some a) :
    (s.pc i).hollow = some a ∨ s'.listing a = [] := by
  cases hmoves with
  | spinLists | spin => exact .inl h
  | vmalloc | cleanup =>
    simp only [State.goto, State.setNode, Function.update_self, Pc.hollow, Option.some.injEq] at h
    subst h
    right
    simp [State.listing, State.setNode, deleteLoop_eq]
  | createFailed hpc | unlockEmpty hpc =>
    simp only [State.goto, State.setNode, State.unlock, Function.update_self, Pc.hollow,
      Option.some.injEq] at h
    rw [hpc, h]
    exact .inl rfl
  | @vfree k => cases k <;> simp [State.goto, Caller.pc, Pc.hollow] at h
  | _ => simp [State.goto, State.setNode, State.unlock, State.unlockLists, Pc.hollow] at h

/-- An item stays in its list until it is freed, unless its entry is a new one. -/
theorem items_of_moves (hmoves : Moves s i act s' es) (ha : a < s.nextNode)
    (h : x ∈ s.items a) : x ∈ s'.items a ∨ (.item x, .free) ∈ es := by
  have hset {b : Addr} {n : Node ι}
      (hn : a = b → x ∈ n.list.map Prod.fst ∨ (.item x, .free) ∈ es) :
      x ∈ (Function.update s.node b n a).list.map Prod.fst ∨ (.item x, .free) ∈ es := by
    rcases eq_or_ne a b with rfl | hab
    · rw [Function.update_self]
      exact hn rfl
    · rw [Function.update_of_ne hab]
      exact .inl h
  cases hmoves with
  | vmalloc => exact hset fun heq => absurd heq ha.ne
  | isMarked | claim | unlockMarked | unlockClaimed | unlockEmpty | readLock | readUnlock
  | writeUnlock => exact hset (by rintro rfl; exact .inl h)
  | cleanup =>
    apply hset
    rintro rfl
    exact (deleteLoop_frees _ _ _ h).imp_right (List.mem_cons_of_mem _)
  | @writeLock b w job =>
    apply hset
    rintro rfl
    cases job with
    | add y num =>
      simp only [Job.run, List.map_append]
      exact .inl (List.mem_append_left _ h)
    | remove | cleanup =>
      exact (deleteLoop_frees _ _ _ h).imp_right (List.mem_cons_of_mem _)
  | _ => exact .inl h

/-- An item that a process has stays with him until he adds it to a list. -/
theorem item_of_pc (hmoves : Moves s i act s' es) (h : (s.pc i).item = some x) :
    (s'.pc i).item = some x ∨ ∃ a, (s.pc i).handles = some a ∧ x ∈ s'.items a := by
  cases hmoves with
  | spinLists | spin => exact .inl h
  | @writeLock a w job hpc =>
    rw [hpc] at h
    cases job with
    | add y num =>
      cases h
      exact .inr ⟨a, by rw [hpc]; rfl, by simp [State.items, State.setNode, Job.run]⟩
    | remove | cleanup => cases h
  | answer hpc | callCreate hpc | callRemove hpc | callRead hpc | callWrite hpc | callExit hpc
  | ret hpc | vmalloc hpc | createFailed hpc | register hpc | lockFailed hpc | lockAdd hpc
  | unlockAdd hpc | notFound hpc | found hpc | unlockNotFound hpc | isMarked hpc | claim hpc
  | unlockMarked hpc | unlockListsMarked hpc | unlockClaimed hpc | controlRemove hpc | missing hpc
  | unregister hpc | waited hpc | unlink hpc | unlockUnlinked hpc | cleanup hpc | unlockEmpty hpc
  | vfree hpc | removeControl hpc | waitedControl hpc | exited hpc | exitRemove hpc
  | readLockLists hpc | readLock hpc | readUnlock hpc | readUnlockLists hpc | newItem hpc
  | writeUnlock hpc =>
    rw [hpc] at h
    cases h

theorem nextNode_of_moves (hmoves : Moves s i act s' es) (ha : a < s'.nextNode) :
    a < s.nextNode ∨ (.node a, .alloc) ∈ es := by
  cases hmoves with
  | vmalloc =>
    rcases Nat.lt_succ_iff_lt_or_eq.mp ha with hlt | rfl
    · exact .inl hlt
    · exact .inr List.mem_cons_self
  | _ => exact .inl ha

theorem nextItem_of_moves (hmoves : Moves s i act s' es) (hx : x < s'.nextItem) :
    x < s.nextItem ∨ (s'.pc i).item = some x := by
  cases hmoves with
  | newItem =>
    rcases Nat.lt_succ_iff_lt_or_eq.mp hx with hlt | rfl
    · exact .inl hlt
    · right
      simp only [State.goto, Function.update_self]
      rfl
  | _ => exact .inl hx

end Frees

section Run

variable {ι : Type} [DecidableEq ι] [Fintype ι] {s s' : State ι} {i : ι} {act : Act}
  {es : List Event} {st : Addr → Status ι Phase} {it : Addr → Stage} {a x : Addr}

/-- What is allocated before the first call. -/
def heap₀ (ι : Type) : Obj → Stage := heap (fun a => stage (status₀ ι a)) fun _ => .fresh

/-- Every object can be found somewhere until it is freed. -/
structure Found (s : State ι) (nodes it : Addr → Stage) : Prop where
  allocated : ∀ a < s.nextNode, nodes a ≠ .fresh
  kept : ∀ x < s.nextItem,
    it x = .freed ∨ (∃ a < s.nextNode, x ∈ s.items a) ∨ ∃ j, (s.pc j).item = some x
  empty : ∀ a, nodes a = .freed ∨ (∃ j, (s.pc j).hollow = some a) → s.listing a = []

omit [DecidableEq ι] [Fintype ι] in
theorem stage_freed_iff {y : Status ι Phase} : stage y = .freed ↔ y = .freed := by
  constructor
  · intro h
    cases y with
    | freed => rfl
    | fresh | shared => cases h
    | owned j g => cases g <;> cases h
  · rintro rfl
    rfl

theorem owns_of_hollow {pc : Pc} (h : pc.hollow = some a) :
    ∃ g, pc.owns = some (a, g) ∧ g.serving = false := by
  unfold Pc.hollow at h
  split at h <;> cases h
  · exact ⟨.built, rfl, rfl⟩
  · exact ⟨.built, rfl, rfl⟩
  · exact ⟨.unlinked, rfl, rfl⟩
  · exact ⟨.unlinked, rfl, rfl⟩

omit [Fintype ι] in
/-- An entry that nobody can look at keeps an empty list. -/
theorem Found.listing_eq {nodes it : Addr → Stage} (hf : Found s nodes it)
    (hnodes : ∀ a, nodes a = stage (st a)) (hE : Entries s st) (hmoves : Moves s i act s' es)
    (ha : nodes a = .freed ∨ ∃ j, (s.pc j).hollow = some a) : s'.listing a = [] := by
  rw [← hf.empty a ha]
  have hcases : st a = .freed ∨ ∃ j g, (s.pc j).hollow = some a ∧ st a = .owned j g ∧
      g.serving = false := by
    refine ha.imp (fun h => stage_freed_iff.mp ((hnodes a).symm.trans h)) ?_
    rintro ⟨j, hj⟩
    obtain ⟨g, hown, hg⟩ := owns_of_hollow hj
    exact ⟨j, g, hj, hE.status hown, hg⟩
  apply listing_of_moves hmoves
  · apply hE.lt_nextNode
    rcases hcases with h | ⟨j, g, -, h, -⟩ <;> rw [h] <;> nofun
  · intro k hk
    have hst := hE.status (a := a) (g := .unlinked) (i := i) (by rw [hk]; rfl)
    rcases hcases with h | ⟨j, g, hj, h, -⟩
    · rw [h] at hst
      cases hst
    · rw [h] at hst
      cases hst
      rw [hk] at hj
      cases hj
  · intro w job hw
    have hserving := (hE.pcs i).handles a (by rw [hw]; rfl)
    rcases hcases with h | ⟨j, g, -, h, hg⟩
    · rw [h] at hserving
      cases hserving
    · rw [h, serving, hg] at hserving
      cases hserving

omit [Fintype ι] in
theorem Found.step {nodes it nodes' it' : Addr → Stage} (hf : Found s nodes it)
    (hnodes : ∀ a, nodes a = stage (st a)) (hE : Entries s st) (hmoves : Moves s i act s' es)
    (hexec : (pool (heap₀ ι)).exec (heap nodes it) es = some (heap nodes' it', es)) :
    Found s' nodes' it' := by
  constructor
  · intro a ha
    apply (ne_fresh_iff hexec (o := .node a)).mpr
    exact (nextNode_of_moves hmoves ha).imp_left (hf.allocated a)
  · intro x hx
    have hfreed := freed_iff hexec (o := .item x)
    rcases nextItem_of_moves hmoves hx with hx | hi
    · rcases hf.kept x hx with hfree | ⟨a, ha, hxa⟩ | ⟨j, hj⟩
      · exact .inl (hfreed.mpr (.inl hfree))
      · rcases items_of_moves hmoves ha hxa with hkept | hfree
        · exact .inr (.inl ⟨a, ha.trans_le (nextNode_le hmoves), hkept⟩)
        · exact .inl (hfreed.mpr (.inr hfree))
      · rcases eq_or_ne j i with rfl | hji
        · rcases item_of_pc hmoves hj with hj | ⟨a, ha, hxa⟩
          · exact .inr (.inr ⟨j, hj⟩)
          · have hserving := (hE.pcs j).handles a ha
            have hlt : a < s.nextNode := by
              apply hE.lt_nextNode
              intro hfresh
              rw [hfresh] at hserving
              cases hserving
            exact .inr (.inl ⟨a, hlt.trans_le (nextNode_le hmoves), hxa⟩)
        · rw [← pc_of_ne hmoves hji] at hj
          exact .inr (.inr ⟨j, hj⟩)
    · exact .inr (.inr ⟨i, hi⟩)
  · rintro a (hfree | ⟨j, hj⟩)
    · apply hf.listing_eq hnodes hE hmoves
      refine ((freed_iff hexec (o := .node a)).mp hfree).imp_right fun h => ?_
      exact ⟨i, hollow_of_free hmoves h⟩
    · rcases eq_or_ne j i with rfl | hji
      · rcases hollow_of_moves hmoves hj with hj | hempty
        · exact hf.listing_eq hnodes hE hmoves (.inr ⟨j, hj⟩)
        · exact hempty
      · rw [pc_of_ne hmoves hji] at hj
        exact hf.listing_eq hnodes hE hmoves (.inr ⟨j, hj⟩)

theorem found_init : Found (machine ι).init (fun a => stage (status₀ ι a)) fun _ => .fresh := by
  constructor
  · intro a ha
    obtain rfl : a = 0 := Nat.lt_one_iff.mp ha
    rintro ⟨⟩
  · intro x hx
    exact absurd hx (Nat.not_lt_zero x)
  · intro a _
    rfl

/-- The objects after a run, and what the run has done to them. -/
theorem found_of_run {as : List (ι × Act)} {tr : List (ι × Event)}
    (hshort : ∀ p ∈ as, p.2.short = true) (h : (machine ι).Run as s tr) :
    ∃ st it, Entries s st ∧ Items s it ∧ Found s (fun a => stage (st a)) it ∧
      (pool (heap₀ ι)).exec (heap₀ ι) (tr.map Prod.snd) =
        some (heap (fun a => stage (st a)) it, tr.map Prod.snd) := by
  have hinv : (machine ι).Reachable s ∧ ∃ st it, Entries s st ∧ Items s it ∧
      Found s (fun a => stage (st a)) it ∧ (pool (heap₀ ι)).exec (heap₀ ι) (tr.map Prod.snd) =
        some (heap (fun a => stage (st a)) it, tr.map Prod.snd) := by
    refine h.invariant (C := fun _ p => p.2.short = true)
      (I := fun s tr => (machine ι).Reachable s ∧ ∃ st it, Entries s st ∧ Items s it ∧
        Found s (fun a => stage (st a)) it ∧ (pool (heap₀ ι)).exec (heap₀ ι) (tr.map Prod.snd) =
          some (heap (fun a => stage (st a)) it, tr.map Prod.snd))
      ⟨Machine.run_nil.reachable, _, _, entries_init, items_init, found_init, rfl⟩ ?_
      (Machine.along_of_forall hshort _)
    rintro s tr ⟨i, act⟩ s' es ⟨hs, st, it, hE, hI, hfound, hexec⟩ hact hstep
    obtain ⟨es, rfl, hmoves⟩ := moves_of_machine hstep
    have hfollows : Follows (heap₀ ι) st it s' es := follows_of_moves hs hE hI hact hmoves
    obtain ⟨st', it', hes, hE', hI'⟩ := hfollows
    refine ⟨hs.step hstep, st', it', hE', hI', hfound.step (fun _ => rfl) hE hmoves hes, ?_⟩
    rw [List.map_append, List.map_map]
    simpa using exec_append hexec hes
  exact hinv.2

/-- When `exit_modlist_module` has returned, every entry and every item that there ever was has
been freed, once, and nobody is in the module. -/
theorem exit_frees_everything {as : List (ι × Act)} {tr : List (ι × Event)}
    (hshort : ∀ p ∈ as, p.2.short = true) (h : (machine ι).Run as s tr) (hs : s.Unloaded) :
    (∀ i, s.pc i = .user) ∧ s.lists = [] ∧ s.procs = [] ∧ s.control = false ∧
      (∀ a < s.nextNode, (tr.map Prod.snd).count (.node a, .free) = 1) ∧
      ∀ x < s.nextItem, (tr.map Prod.snd).count (.item x, .free) = 1 := by
  obtain ⟨st, it, hE, -, hfound, hexec⟩ := found_of_run hshort h
  obtain ⟨hcontrol, hlists, hcontrols⟩ := (leads h.reachable).unloaded hs
  -- an entry that is not in the list is in the hands of whoever creates or removes it
  have hgone : ∀ a, st a = .fresh ∨ st a = .freed := by
    intro a
    cases hst : st a with
    | fresh => exact .inl rfl
    | freed => exact .inr rfl
    | shared =>
      have hmem := (hE.lists a).mpr (by rw [hst]; rfl)
      rw [hlists] at hmem
      cases hmem
    | owned j g =>
      have hexits := exits_of_owns ((hE.owner j a g).mp hst) (hcontrols j)
      rw [hs.2 j] at hexits
      cases hexits
  have hserving : ∀ a, serving (st a) = false := by
    intro a
    rcases hgone a with h | h <;> rw [h] <;> rfl
  have huser : ∀ i, s.pc i = .user := by
    intro i
    have hcontrols := hcontrols i
    have hexits := hs.2 i
    have hhandles := fun a => hE.not_handled (hserving a) i
    cases hpc : s.pc i with
    | user => rfl
    | create | mark =>
      rw [hpc] at hcontrols
      cases hcontrols
    | remove k =>
      rw [hpc] at hcontrols hexits
      cases k with
      | control => cases hcontrols
      | exit => cases hexits
    | exit =>
      rw [hpc] at hexits
      cases hexits
    | read a | write a =>
      rw [hpc] at hhandles
      exact absurd rfl (hhandles a)
    | ret hd =>
      rw [hpc] at hcontrols hhandles
      cases hd with
      | control => cases hcontrols
      | entry a => exact absurd rfl (hhandles a)
  refine ⟨huser, hlists, ?_, hcontrol, fun a ha => ?_, fun x hx => ?_⟩
  · apply List.eq_nil_iff_forall_not_mem.mpr
    rintro ⟨n, a⟩ ha
    have hopen := ((hE.procs n a).mp ha).1
    rcases hgone a with h | h <;> rw [h] at hopen <;> cases hopen
  · have hfreed : heap (fun a => stage (st a)) it (.node a) = .freed := by
      rcases hgone a with h | h
      · exact absurd (congrArg stage h) (hfound.allocated a ha)
      · exact congrArg stage h
    have hstart : heap₀ ι (.node a) ≠ .freed := by
      change stage (status₀ ι a) ≠ .freed
      rw [status₀]
      split <;> rintro ⟨⟩
    have hcount := count_free hexec (.node a)
    rwa [if_pos hfreed, if_neg hstart, Nat.add_zero] at hcount
  · have hfreed : it x = .freed := by
      rcases hfound.kept x hx with hfree | ⟨a, ha, hxa⟩ | ⟨j, hj⟩
      · exact hfree
      · rcases hgone a with h | h
        · exact absurd (congrArg stage h) (hfound.allocated a ha)
        · have hempty := List.map_eq_nil_iff.mp (hfound.empty a (.inl (congrArg stage h)))
          rw [State.items, hempty] at hxa
          cases hxa
      · rw [huser j] at hj
        cases hj
    have hcount := count_free hexec (.item x)
    rwa [if_pos (show heap (fun a => stage (st a)) it (.item x) = .freed from hfreed),
      if_neg (show heap₀ ι (.item x) ≠ .freed by rintro ⟨⟩), Nat.add_zero] at hcount

/-- The module is unloaded with an item in an entry that nobody has removed. -/
def loadedEntry : List (Bool × Act) :=
  (false, .call (.control 0 (bytes "create a") true (bytes "create a"))) ::
    List.replicate 5 (false, .run) ++
  (true, .call (.write 1 0 (bytes "add 5") true (bytes "add 5"))) ::
    List.replicate 4 (true, .run) ++
  (false, .call .exit) :: List.replicate 19 (false, .run)

theorem exit_frees_everything_loaded :
    ∃ s tr, (machine Bool).Run loadedEntry s tr ∧ s.lists = [] ∧
      (tr.map Prod.snd).count (.node 1, .free) = 1 ∧
      (tr.map Prod.snd).count (.item 0, .free) = 1 := by
  have heval : ((machine Bool).exec (machine Bool).init loadedEntry).map (fun r =>
      decide (r.1.exited = true ∧ (∀ i, (r.1.pc i).exits = false) ∧ 1 < r.1.nextNode ∧
        0 < r.1.nextItem)) = some true := by decide +kernel
  obtain ⟨s, tr, hrun, hs⟩ := Machine.exists_run_of_eval heval
  obtain ⟨hexited, hexits, hnode, hitem⟩ := of_decide_eq_true hs
  obtain ⟨-, hlists, -, -, hnodes, hitems⟩ :=
    exit_frees_everything (by decide +kernel) hrun ⟨hexited, hexits⟩
  exact ⟨s, tr, hrun, hlists, hnodes 1 hnode, hitems 0 hitem⟩

end Run

end LinuxInternals.Multilist
