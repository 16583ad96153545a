import LinuxInternals.Multilist.Bystanders
import LinuxInternals.Multilist.Commands

/-!
# Creating an entry and removing it again

`control_create` copies the name twice, into the array of `control_write` and into the node, and
registers the entry under it. A later "remove" looks for the copy in the node. Whatever the
others do to their entries meanwhile, the one undoes the other exactly when the name leaves room
for a terminator, the kernel registers it, and `sp_lists` is not lost before.
-/

namespace LinuxInternals.Multilist

open Text SpinLock Relation

variable {ι : Type} [DecidableEq ι] [Fintype ι] {s s' u v t : State ι} {i j k : ι} {act : Act}
  {es : List Event} {name : List UInt8} {a : Addr} {refused : Bool}

section Calls

/-- Process `i` goes on with its call, where `proc_create_data` returns `NULL` if it is `refused`,
and the others leave the name alone. -/
def Minds (i : ι) (name : List UInt8) (refused : Bool) (s : State ι) (p : ι × Act) : Prop :=
  if p.1 = i then p.2 = (s.pc i).act refused else Leaves name s p

/-- If the step is one of `i`, it takes the state from `s` to one that `P` relates to `s`. -/
def Own (i : ι) (P : State ι → State ι → Prop) (s : State ι) (p : ι × Act) : Prop :=
  p.1 = i → ∀ s' tr, (machine ι).step s p = some (s', tr) → P s s'

/-- There is a way on on which `i` comes back from its call. -/
def CanReturn (s : State ι) (i : ι) (name : List UInt8) (refused : Bool) : Prop :=
  ∃ as s' tr, (machine ι).Along (Minds i name refused) s as ∧
    (machine ι).exec s as = some (s', tr) ∧ (s'.pc i).outside = true

theorem canReturn_of_turns (h : ReflTransGen (Turn refused i) s s')
    (hout : (s'.pc i).outside = true) (name : List UInt8) : CanReturn s i name refused := by
  induction h using ReflTransGen.head_induction_on with
  | refl => exact ⟨[], s', [], trivial, rfl, hout⟩
  | @head s u hturn _ ih =>
    obtain ⟨as, s', tr, hminds, hexec, hout⟩ := ih
    obtain ⟨k, es, hstep, hleak⟩ := hturn
    let p : ι × Act := (k, if k = i then (s.pc i).act refused else .run)
    have hmachine : (machine ι).step s p = some (u, es.map (Prod.mk k)) := by
      simp only [machine, p, hstep, Option.map_some]
    refine ⟨p :: as, s', _, (Machine.along_cons hmachine as).mpr ⟨?_, hminds⟩,
      Machine.exec_cons_eq_some.mpr ⟨u, _, _, hmachine, hexec, rfl⟩, hout⟩
    by_cases hki : k = i
    · simp [Minds, p, hki]
    · simp only [Minds, p, hki, if_false]
      exact ⟨hleak hki, fun c hcall => Act.noConfusion hcall⟩

theorem canReturn_of_ordered (h : Ordered s) (hrank : (s.pc i).rank < 13) (name : List UInt8)
    (refused : Bool) : CanReturn s i name refused := by
  obtain ⟨u, hu, hout⟩ := comes_back refused h hrank
  exact canReturn_of_turns hu hout name

end Calls

section Effects

structure Unchanged (s s' : State ι) : Prop where
  lists : s'.lists = s.lists
  procs : s'.procs = s.procs
  node : ∀ b ∈ s.lists, s'.node b = s.node b

/-- The state is the same but for the entry `a`, which may have been registered or appended. -/
structure Adds (name : List UInt8) (a : Addr) (s s' : State ι) : Prop where
  lists : s'.lists = s.lists ∨ s'.lists = s.lists ++ [a]
  procs : s'.procs = s.procs ∨ s'.procs = s.procs ++ [(name, a)]
  node : ∀ b, b ≠ a → s'.node b = s.node b

/-- The state is the same but for the entry `a`, which may have been taken out. -/
structure Takes (name : List UInt8) (a : Addr) (s s' : State ι) : Prop where
  lists : s'.lists = s.lists ∨ s'.lists = s.lists.erase a
  procs : s'.procs = s.procs ∨ s'.procs = s.procs.erase (name, a)
  node : ∀ b, b ≠ a → s'.node b = s.node b

/-- The entry is in the list and registered under the name, which stands in its array with a
terminator behind it. -/
structure Present (s : State ι) (name : List UInt8) (a : Addr) : Prop where
  listed : a ∈ s.lists
  registered : (name, a) ∈ s.procs
  ended : 0 ∈ (s.node a).name
  named : cstring (s.node a).name = name
  unmarked : (s.node a).markedForRemoval = false

/-- The call of `j` takes the entry out and nothing else, calls `remove_proc_entry` with the name
that is registered, and comes back. -/
def Restores (s : State ι) (j : ι) (remove : Call) (name : List UInt8) (a : Addr) : Prop :=
  ∃ u tr, (machine ι).step s (j, .call remove) = some (u, tr) ∧ Unchanged s u ∧
    ∀ as t tr, (machine ι).Along (Minds j name false) u as →
      (machine ι).exec u as = some (t, tr) →
      CanReturn t j name false ∧ (machine ι).Along (Own j (Takes name a)) u as ∧
        (∀ k b, t.pc j = .remove k b .removeProcEntry →
          b = a ∧ (t.node b).nameString = name ∧ (name, a) ∈ t.procs) ∧
        ((t.pc j).outside = true → a ∉ t.lists ∧ (name, a) ∉ t.procs ∧ t.spLists ≠ some j)

/-- Process `i` creates an entry with the name while the others leave the name alone. The call
comes back without `sp_lists`, and either it has changed nothing, or the copies of the name fit
and the entry is there, until a process `j` calls the remove and takes it out again. -/
def RoundTrip (s : State ι) (i j : ι) (refused : Bool) (create remove : Call)
    (name : List UInt8) : Prop :=
  ∃ u tr, (machine ι).step s (i, .call create) = some (u, tr) ∧ Unchanged s u ∧
    ∀ as t tr, (machine ι).Along (Minds i name refused) u as →
      (machine ι).exec u as = some (t, tr) →
      CanReturn t i name refused ∧
        ((t.pc i).outside = true → t.spLists ≠ some i ∧
          ((machine ι).Along (Own i Unchanged) u as ∨
            (∀ k ∈ nameStores name, k < 20) ∧
              ∃ a, a ∉ s.lists ∧ (machine ι).Along (Own i (Adds name a)) u as ∧
                ∀ bs v tr, (machine ι).Along (Leaves name) t bs →
                  (machine ι).exec t bs = some (v, tr) →
                  Present v name a ∧ (v.pc j = .user → Restores v j remove name a)))

omit [DecidableEq ι] [Fintype ι] in
theorem Adds.refl (name : List UInt8) (a : Addr) (s : State ι) : Adds name a s s :=
  ⟨.inl rfl, .inl rfl, fun _ _ => rfl⟩

omit [DecidableEq ι] [Fintype ι] in
theorem Takes.refl (name : List UInt8) (a : Addr) (s : State ι) : Takes name a s s :=
  ⟨.inl rfl, .inl rfl, fun _ _ => rfl⟩

theorem nameStores_lt_iff : (∀ k ∈ nameStores name, k < 20) ↔ name.length < 20 := by
  constructor
  · exact fun h => h _ (List.mem_append_right _ (List.mem_singleton_self _))
  · intro h k hk
    rcases List.mem_append.mp hk with hk | hk
    · exact (List.mem_range.mp hk).trans h
    · rwa [List.mem_singleton.mp hk]

omit [DecidableEq ι] [Fintype ι] in
theorem Slot.present (h : Slot s name a true true false) (hzero : 0 ∉ name)
    (hshort : name.length < 20) : Present s name a := by
  refine ⟨?_, ?_, h.ended hshort, ?_, h.mark⟩
  · rw [← List.count_pos_iff, h.lists]
    exact Nat.one_pos
  · rw [← List.count_pos_iff, h.procs]
    exact Nat.one_pos
  · rw [h.array]
    exact cstring_strncpy hzero hshort

end Effects

section Creating

/-- Where the entry is while `control_create` runs, from the allocation of its node on. -/
def Creating (s : State ι) (name : List UInt8) (a : Addr) : Pc → Prop
  | .create _ (.procCreateData n b) =>
    n = name ∧ b = a ∧ Slot s name a false false false ∧ s.present name = false
  | .create _ (.lockAdd b) => b = a ∧ Slot s name a true false false
  | .create _ .unlock | .ret _ _ | .user => Slot s name a true true false
  | _ => False

theorem Creating.bystander {pc : Pc} (h : Creating s name a pc)
    (hU : Undisturbed s (some i) name) (hki : k ≠ i) (hzero : 0 ∉ name) (hshort : name.length < 20)
    (hmoves : Moves s k act s' es) : Creating s' name a pc := by
  have hk : some k ≠ some i := fun heq => hki (Option.some.inj heq)
  have hslot {r l m : Bool} (h : Slot s name a r l m) : Slot s' name a r l m :=
    h.bystander hU hk hzero hshort hmoves
  unfold Creating at h ⊢
  split at h
  · obtain ⟨hn, hb, h, hpresent⟩ := h
    exact ⟨hn, hb, hslot h,
      present_of_moves hmoves (fun hn => hU.clear k hk (.inl hn)) hpresent⟩
  · exact ⟨h.1, hslot h.2⟩
  · exact hslot h
  · exact hslot h
  · exact hslot h
  · exact h

omit [DecidableEq ι] [Fintype ι] in
theorem Creating.slot_of_outside {pc : Pc} (h : Creating s name a pc) (hout : pc.outside = true) :
    Slot s name a true true false := by
  unfold Pc.outside at hout
  split at hout
  · exact h
  · exact h
  · cases hout

/-- `vmalloc` gives the entry a node of its own. -/
theorem Absent.allocate {w : Write} (h : Absent s name) (hs : (machine ι).Reachable s)
    (hpc : s.pc i = .create w (.vmalloc name))
    (hstep : step s i ((s.pc i).act false) = some (s', es)) :
    Creating s' name s.nextNode (s'.pc i) ∧ Adds name s.nextNode s s' := by
  have hknown := known hs
  have hregistered : ∀ e ∈ s.procs, e.1 ≠ name := by
    intro e he heq
    have hany := (Bool.or_eq_false_iff.mp h.present).2
    exact List.any_eq_false.mp hany e he (beq_iff_eq.mpr heq)
  simp only [hpc, Pc.act, step, State.create, Option.some.injEq, Prod.mk.injEq] at hstep
  obtain ⟨rfl, -⟩ := hstep
  refine ⟨?_, .inl rfl, .inl rfl, fun b hb => Function.update_of_ne hb ..⟩
  simp only [State.goto, State.setNode, Function.update_self, Creating, true_and]
  refine ⟨⟨Nat.lt_succ_self _, ?_, ?_, ?_, ?_, fun e he hname => absurd hname (hregistered e he),
    fun b hb hname => ?_⟩, h.present⟩
  · simp
  · simp
  · rw [Bool.toNat_false, List.count_eq_zero]
    exact fun hmem => lt_irrefl _ (hknown.procs _ hmem)
  · rw [Bool.toNat_false, List.count_eq_zero]
    exact fun hmem => lt_irrefl _ (hknown.lists _ hmem)
  · have hlt := hknown.lists b hb
    dsimp only at hname
    rw [Function.update_of_ne hlt.ne] at hname
    exact absurd hname (h.lists b hb)

/-- A step of `control_create` keeps to its entry, and loses no lock. -/
theorem Creating.own (h : Creating s name a (s.pc i)) (hs : (machine ι).Reachable s)
    (hshort : name.length < 20) (hstep : step s i ((s.pc i).act false) = some (s', es)) :
    Creating s' name a (s'.pc i) ∧ Adds name a s s' ∧
      s.leaks (i, (s.pc i).act false) = false := by
  have hmoves := moves_of_step hstep
  cases hpc : s.pc i with
  | user => simp [step, hpc, Pc.act] at hstep
  | mark | remove | exit | read | write =>
    rw [hpc] at h
    exact absurd h id
  | ret hd r =>
    rw [hpc] at h hmoves
    simp only [step, hpc, Pc.act, Option.some.injEq, Prod.mk.injEq] at hstep
    obtain ⟨rfl, -⟩ := hstep
    refine ⟨?_, ⟨.inl rfl, .inl rfl, fun _ _ => rfl⟩, by simp [State.leaks, hpc]⟩
    simp only [State.goto, Function.update_self, Creating]
    exact h.stays hs hshort hmoves h.mark rfl rfl
  | create w c =>
    rw [hpc] at h hmoves
    cases c with
    | vmalloc | lockFailed => exact absurd h id
    | procCreateData n b =>
      obtain ⟨rfl, rfl, h, hpresent⟩ := h
      simp only [step, hpc, Pc.act, State.create, hpresent, Bool.false_eq_true, if_false,
        Option.some.injEq, Prod.mk.injEq] at hstep
      obtain ⟨rfl, -⟩ := hstep
      refine ⟨?_, ⟨.inl rfl, .inr rfl, fun _ _ => rfl⟩, by simp [State.leaks, hpc]⟩
      simp only [State.goto, Function.update_self, Creating, true_and]
      refine h.shift hs hshort hmoves h.mark ?_ h.lists (fun e he => ?_) (fun _ => .inl)
      · rw [List.count_append, h.procs, List.count_singleton_self]
        rfl
      · exact (List.mem_append.mp he).imp_right fun he => .inr (List.mem_singleton.mp he)
    | lockAdd b =>
      obtain ⟨rfl, h⟩ := h
      simp only [step, hpc, Pc.act, State.create] at hstep
      obtain ⟨-, rfl, -⟩ | ⟨-, rfl, -⟩ := lockLists_eq_some hstep
      · rw [hpc]
        exact ⟨⟨rfl, h⟩, .refl .., by simp [State.leaks, hpc]⟩
      · refine ⟨?_, ⟨.inr rfl, .inl rfl, fun _ _ => rfl⟩, by simp [State.leaks, hpc]⟩
        simp only [State.goto, Function.update_self, Creating]
        refine h.shift hs hshort hmoves h.mark h.procs ?_ (fun _ => .inl) (fun c hc => ?_)
        · rw [List.count_append, h.lists, List.count_singleton_self]
          rfl
        · exact (List.mem_append.mp hc).imp_right fun hc => .inl (List.mem_singleton.mp hc)
    | unlock =>
      simp only [step, hpc, Pc.act, State.create, Option.some.injEq, Prod.mk.injEq] at hstep
      obtain ⟨rfl, -⟩ := hstep
      refine ⟨?_, ⟨.inl rfl, .inl rfl, fun _ _ => rfl⟩, by simp [State.leaks, hpc]⟩
      simp only [State.goto, State.unlockLists, Function.update_self, Creating]
      exact h.stays hs hshort hmoves h.mark rfl rfl

end Creating

section Removing

/-- Where the entry is while "remove" looks for it and `control_remove` takes it out. -/
def Removing (s : State ι) (name : List UInt8) (a : Addr) : Pc → Prop
  | .mark _ (.lockLists n) => n = name ∧ Slot s name a true true false
  | .mark _ (.lock b) => b = a ∧ Slot s name a true true false
  | .mark _ (.unlock b) | .mark _ (.unlockLists b) => b = a ∧ Slot s name a true true true
  | .remove (.control _) b .removeProcEntry => b = a ∧ Slot s name a true true true
  | .remove (.control _) b (.wait _) | .remove (.control _) b .lockLists =>
    b = a ∧ Slot s name a false true true
  | .remove (.control _) b .unlockLists | .remove (.control _) b .lock
  | .remove (.control _) b .unlock | .remove (.control _) b .vfree =>
    b = a ∧ Slot s name a false false true
  | .ret _ _ | .user => Slot s name a false false true
  | _ => False

theorem Removing.bystander {pc : Pc} (h : Removing s name a pc)
    (hU : Undisturbed s (some j) name) (hkj : k ≠ j) (hzero : 0 ∉ name) (hshort : name.length < 20)
    (hmoves : Moves s k act s' es) : Removing s' name a pc := by
  have hk : some k ≠ some j := fun heq => hkj (Option.some.inj heq)
  have hslot {r l m : Bool} (h : Slot s name a r l m) : Slot s' name a r l m :=
    h.bystander hU hk hzero hshort hmoves
  unfold Removing at h ⊢
  split at h
  all_goals first | exact h | exact ⟨h.1, hslot h.2⟩ | exact hslot h

omit [DecidableEq ι] [Fintype ι] in
theorem Removing.slot_of_outside {pc : Pc} (h : Removing s name a pc) (hout : pc.outside = true) :
    Slot s name a false false true := by
  unfold Pc.outside at hout
  split at hout
  · exact h
  · exact h
  · cases hout

/-- "remove" finds the entry and marks it. -/
theorem Removing.own_mark {w : Write} {c : MarkPc} (hpc : s.pc j = .mark w c)
    (h : Removing s name a (.mark w c)) (hs : (machine ι).Reachable s) (hzero : 0 ∉ name)
    (hshort : name.length < 20) (hstep : s.mark j w c = some (s', es)) :
    Removing s' name a (s'.pc j) ∧ Takes name a s s' := by
  have hmoves : Moves s j .run s' es := moves_of_mark hpc hstep
  cases c with
  | unlockNotFound | unlockMarked | unlockListsMarked => exact absurd h id
  | lockLists n =>
    obtain ⟨rfl, h⟩ := h
    have hmem : a ∈ s.lists := (h.present hzero hshort).listed
    simp only [State.mark] at hstep
    split at hstep
    · exact absurd (decide_eq_true (h.nameString hzero hshort))
        (List.find?_eq_none.mp ‹List.find? _ _ = none› a hmem)
    · have hfind := ‹List.find? _ _ = some _›
      obtain rfl := h.onlyListed _ (List.mem_of_find?_eq_some hfind)
        (by simpa using List.find?_some hfind)
      obtain ⟨-, rfl, -⟩ | ⟨-, rfl, -⟩ := lockLists_eq_some hstep
      · rw [hpc]
        exact ⟨⟨rfl, h⟩, .refl ..⟩
      · refine ⟨?_, .inl rfl, .inl rfl, fun _ _ => rfl⟩
        simp only [State.goto, Function.update_self, Removing, true_and]
        exact h.stays hs hshort hmoves h.mark rfl rfl
  | lock b =>
    obtain ⟨rfl, h⟩ := h
    simp only [State.mark, h.mark, Bool.false_eq_true, if_false] at hstep
    obtain ⟨-, rfl, -⟩ | ⟨-, rfl, -⟩ := lock_eq_some hstep
    · rw [hpc]
      exact ⟨⟨rfl, h⟩, .refl ..⟩
    · refine ⟨?_, .inl rfl, .inl rfl, fun b hb => Function.update_of_ne hb ..⟩
      simp only [State.goto, State.setNode, Function.update_self, Removing, true_and]
      exact h.stays hs hshort hmoves (by simp) rfl rfl
  | unlock b =>
    obtain ⟨rfl, h⟩ := h
    simp only [State.mark, Option.some.injEq, Prod.mk.injEq] at hstep
    obtain ⟨rfl, -⟩ := hstep
    refine ⟨?_, .inl rfl, .inl rfl, fun b hb => Function.update_of_ne hb ..⟩
    simp only [State.goto, State.unlock, State.setNode, Function.update_self, Removing, true_and]
    exact h.stays hs hshort hmoves (by simp [h.mark]) rfl rfl
  | unlockLists b =>
    obtain ⟨rfl, h⟩ := h
    simp only [State.mark, Option.some.injEq, Prod.mk.injEq] at hstep
    obtain ⟨rfl, -⟩ := hstep
    refine ⟨?_, .inl rfl, .inl rfl, fun _ _ => rfl⟩
    simp only [State.goto, State.unlockLists, Function.update_self, Removing, true_and]
    exact h.stays hs hshort hmoves h.mark rfl rfl

/-- `control_remove` takes the entry out. -/
theorem Removing.own_remove {w : Write} {b : Addr} {c : RemovePc}
    (hpc : s.pc j = .remove (.control w) b c) (h : Removing s name a (.remove (.control w) b c))
    (hs : (machine ι).Reachable s) (hzero : 0 ∉ name) (hshort : name.length < 20)
    (hstep : s.remove j (.control w) b c = some (s', es)) :
    Removing s' name a (s'.pc j) ∧ Takes name a s s' := by
  have hmoves : Moves s j .run s' es := moves_of_remove hpc hstep
  cases c with
  | removeProcEntry =>
    obtain ⟨rfl, h⟩ := h
    have hmem : (name, b) ∈ s.procs := by
      rw [← List.count_pos_iff, h.procs]
      exact Nat.one_pos
    have hname := h.nameString hzero hshort
    simp only [State.remove, hname] at hstep
    split at hstep
    · have hnone := List.find?_eq_none.mp ‹List.find? _ _ = none› _ hmem
      exact absurd (decide_eq_true rfl) hnone
    · -- the name finds the entry itself
      have hfind := ‹List.find? _ _ = some _›
      obtain rfl := h.onlyRegistered _ (List.mem_of_find?_eq_some hfind)
        (by simpa using List.find?_some hfind)
      simp only [Option.some.injEq, Prod.mk.injEq] at hstep
      obtain ⟨rfl, -⟩ := hstep
      refine ⟨?_, .inl rfl, .inr rfl, fun _ _ => rfl⟩
      simp only [State.goto, Function.update_self, Removing, true_and]
      refine h.shift hs hshort hmoves h.mark ?_ h.lists
        (fun e he => .inl (List.mem_of_mem_erase he)) (fun _ => .inl)
      rw [List.count_erase_self, h.procs]
      rfl
  | wait d =>
    obtain ⟨rfl, h⟩ := h
    obtain ⟨-, hstep⟩ := Option.ite_none_right_eq_some.mp hstep
    simp only [Option.some.injEq, Prod.mk.injEq] at hstep
    obtain ⟨rfl, -⟩ := hstep
    refine ⟨?_, .inl rfl, .inl rfl, fun _ _ => rfl⟩
    simp only [State.goto, Function.update_self, Removing, true_and]
    exact h.stays hs hshort hmoves h.mark rfl rfl
  | lockLists =>
    obtain ⟨rfl, h⟩ := h
    simp only [State.remove] at hstep
    obtain ⟨-, rfl, -⟩ | ⟨-, rfl, -⟩ := lockLists_eq_some hstep
    · rw [hpc]
      exact ⟨⟨rfl, h⟩, .refl ..⟩
    · refine ⟨?_, .inr rfl, .inl rfl, fun _ _ => rfl⟩
      simp only [State.goto, Function.update_self, Removing, true_and]
      refine h.shift hs hshort hmoves h.mark h.procs ?_ (fun _ => .inl)
        (fun c hc => .inl (List.mem_of_mem_erase hc))
      rw [List.count_erase_self, h.lists]
      rfl
  | unlockLists | vfree =>
    obtain ⟨rfl, h⟩ := h
    simp only [State.remove, Option.some.injEq, Prod.mk.injEq] at hstep
    obtain ⟨rfl, -⟩ := hstep
    refine ⟨?_, .inl rfl, .inl rfl, fun _ _ => rfl⟩
    simp only [State.goto, State.unlockLists, Caller.pc, Function.update_self, Removing, true_and]
    exact h.stays hs hshort hmoves h.mark rfl rfl
  | lock =>
    obtain ⟨rfl, h⟩ := h
    simp only [State.remove] at hstep
    obtain ⟨-, rfl, -⟩ | ⟨-, rfl, -⟩ := lock_eq_some hstep
    · rw [hpc]
      exact ⟨⟨rfl, h⟩, .refl ..⟩
    · refine ⟨?_, .inl rfl, .inl rfl, fun b hb => Function.update_of_ne hb ..⟩
      simp only [State.goto, State.setNode, Function.update_self, Removing, true_and]
      exact h.stays hs hshort hmoves (by simp [h.mark]) rfl rfl
  | unlock =>
    obtain ⟨rfl, h⟩ := h
    simp only [State.remove, Option.some.injEq, Prod.mk.injEq] at hstep
    obtain ⟨rfl, -⟩ := hstep
    refine ⟨?_, .inl rfl, .inl rfl, fun b hb => Function.update_of_ne hb ..⟩
    simp only [State.goto, State.unlock, State.setNode, Function.update_self, Removing, true_and]
    exact h.stays hs hshort hmoves (by simp [h.mark]) rfl rfl

/-- A step of the remove keeps to its entry, and loses no lock. -/
theorem Removing.own (h : Removing s name a (s.pc j)) (hs : (machine ι).Reachable s)
    (hzero : 0 ∉ name) (hshort : name.length < 20)
    (hstep : step s j ((s.pc j).act false) = some (s', es)) :
    Removing s' name a (s'.pc j) ∧ Takes name a s s' ∧
      s.leaks (j, (s.pc j).act false) = false := by
  have hmoves := moves_of_step hstep
  cases hpc : s.pc j with
  | user =>
    rw [hpc] at hstep
    simp [step, hpc, Pc.act] at hstep
  | create | exit | read | write =>
    rw [hpc] at h
    exact absurd h id
  | ret hd r =>
    rw [hpc] at h hmoves hstep
    simp only [step, hpc, Pc.act, Option.some.injEq, Prod.mk.injEq] at hstep
    obtain ⟨rfl, -⟩ := hstep
    refine ⟨?_, ⟨.inl rfl, .inl rfl, fun _ _ => rfl⟩, by simp [State.leaks, hpc]⟩
    simp only [State.goto, Function.update_self, Removing]
    exact h.stays hs hshort hmoves h.mark rfl rfl
  | mark w c =>
    rw [hpc] at h
    simp only [step, hpc, Pc.act] at hstep
    obtain ⟨h', htakes⟩ := h.own_mark hpc hs hzero hshort hstep
    exact ⟨h', htakes, by simp [State.leaks, hpc]⟩
  | remove k b c =>
    rw [hpc] at h
    cases k with
    | exit tmp => exact absurd h id
    | control w =>
      simp only [step, hpc, Pc.act] at hstep
      obtain ⟨h', htakes⟩ := Removing.own_remove hpc h hs hzero hshort hstep
      exact ⟨h', htakes, by simp [State.leaks, hpc]⟩

end Removing

section Course

variable {as : List (ι × Act)} {tr : List (ι × Event)} {o : Option ι}

omit [DecidableEq ι] [Fintype ι] in
theorem rank_of_creating {pc : Pc} (h : Creating s name a pc) : pc.rank < 13 := by
  unfold Creating at h
  split at h <;> first | exact absurd h id | simp [Pc.rank, CreatePc.rank]

omit [DecidableEq ι] [Fintype ι] in
theorem rank_of_removing {pc : Pc} (h : Removing s name a pc) : pc.rank < 13 := by
  unfold Removing at h
  split at h <;> first | exact absurd h id | simp [Pc.rank, MarkPc.rank, RemovePc.rank]

omit [DecidableEq ι] [Fintype ι] in
theorem act_ne_exit (pc : Pc) : pc.act refused ≠ .call .exit := by
  unfold Pc.act
  split
  · cases refused <;> nofun
  · nofun

omit [DecidableEq ι] [Fintype ι] in
theorem idle_of_outside {pc : Pc} (h : pc.outside = true) : pc.names = [] ∧ pc.edits = [] := by
  unfold Pc.outside at h
  split at h
  · exact ⟨rfl, rfl⟩
  · exact ⟨rfl, rfl⟩
  · cases h

/-- Who is back from a call is at work on nothing. -/
theorem Undisturbed.release (h : Undisturbed s (some i) name) (hout : (s.pc i).outside = true)
    (o : Option ι) : Undisturbed s o name := by
  refine ⟨h.reachable, h.agree, h.running, fun k _ => ?_⟩
  rcases eq_or_ne k i with rfl | hki
  · obtain ⟨hnames, hedits⟩ := idle_of_outside hout
    rintro (hn | ⟨b, hb, -⟩)
    · rw [hnames] at hn
      cases hn
    · rw [hedits] at hb
      cases hb
  · exact h.clear k fun heq => hki (Option.some.inj heq)

theorem Undisturbed.not_holding (h : Undisturbed s o name) (hout : (s.pc i).outside = true) :
    s.spLists ≠ some i := (locksOk_of_agree h.agree).returned i hout .lists

theorem Undisturbed.mind (h : Undisturbed s (some i) name) (hshort : name.length < 20)
    {p : ι × Act} (hminds : Minds i name false s p) (hstep : (machine ι).step s p = some (s', tr))
    (hleak : p.1 = i → s.leaks (i, (s.pc i).act false) = false) :
    Undisturbed s' (some i) name := by
  obtain ⟨k, act⟩ := p
  rcases eq_or_ne k i with rfl | hki
  · simp only [Minds, if_true] at hminds
    subst hminds
    exact h.step hshort hstep (hleak rfl) (act_ne_exit _) (.inl rfl)
  · simp only [Minds, hki, if_false] at hminds
    exact h.step hshort hstep hminds.1 (fun hact => (hminds.2 _ hact).1 rfl) (.inr hminds)

theorem step_of_machine {p : ι × Act} (h : (machine ι).step s p = some (s', tr)) :
    ∃ es, step s p.1 p.2 = some (s', es) := by
  obtain ⟨⟨u, es⟩, hstep, heq⟩ := Option.map_eq_some_iff.mp h
  cases heq
  exact ⟨es, hstep⟩

/-- What the steps of a call keep and the others leave alone holds in its whole course. -/
theorem course (Phase : State ι → Pc → Prop) (P : State ι → State ι → Prop)
    (hshort : name.length < 20)
    (hown : ∀ s s' es, (machine ι).Reachable s → Phase s (s.pc i) →
      step s i ((s.pc i).act false) = some (s', es) →
        Phase s' (s'.pc i) ∧ P s s' ∧ s.leaks (i, (s.pc i).act false) = false)
    (hothers : ∀ s s' k act es pc, Phase s pc → Undisturbed s (some i) name → k ≠ i →
      Moves s k act s' es → Phase s' pc)
    (hU : Undisturbed u (some i) name) (h : Phase u (u.pc i))
    (hminds : (machine ι).Along (Minds i name false) u as)
    (hexec : (machine ι).exec u as = some (t, tr)) :
    (machine ι).Along (Own i P) u as ∧ Undisturbed t (some i) name ∧ Phase t (t.pc i) := by
  refine Machine.exec_along (C := Minds i name false)
    (I := fun s => Undisturbed s (some i) name ∧ Phase s (s.pc i)) ?_ ⟨hU, h⟩ hminds hexec
  rintro s ⟨k, act⟩ s' tr ⟨hU, h⟩ hminds hstep
  rcases eq_or_ne k i with rfl | hki
  · obtain rfl : act = (s.pc k).act false := by simpa [Minds] using hminds
    obtain ⟨es, hs⟩ := step_of_machine hstep
    obtain ⟨h', hP, hleak⟩ := hown s s' es hU.reachable h hs
    refine ⟨fun _ s'' tr' hstep' => ?_, hU.mind hshort hminds hstep fun _ => hleak, h'⟩
    rw [hstep] at hstep'
    cases hstep'
    exact hP
  · obtain ⟨es, -, hmoves⟩ := moves_of_machine hstep
    refine ⟨fun hk => absurd hk hki, hU.mind hshort hminds hstep fun hk => absurd hk hki, ?_⟩
    rw [pc_of_ne hmoves (Ne.symm hki)]
    exact hothers s s' k act es _ h hU hki hmoves

/-- The create keeps to its entry, whatever the others do meanwhile. -/
theorem creating_course (hzero : 0 ∉ name) (hshort : name.length < 20)
    (hU : Undisturbed u (some i) name) (h : Creating u name a (u.pc i))
    (hminds : (machine ι).Along (Minds i name false) u as)
    (hexec : (machine ι).exec u as = some (t, tr)) :
    (machine ι).Along (Own i (Adds name a)) u as ∧
      Undisturbed t (some i) name ∧ Creating t name a (t.pc i) :=
  course (fun s pc => Creating s name a pc) (Adds name a) hshort
    (fun _ _ _ hs h hstep => h.own hs hshort hstep)
    (fun _ _ _ _ _ _ h hU hki hmoves => h.bystander hU hki hzero hshort hmoves)
    hU h hminds hexec

theorem removing_course (hzero : 0 ∉ name) (hshort : name.length < 20)
    (hU : Undisturbed u (some j) name) (h : Removing u name a (u.pc j))
    (hminds : (machine ι).Along (Minds j name false) u as)
    (hexec : (machine ι).exec u as = some (t, tr)) :
    (machine ι).Along (Own j (Takes name a)) u as ∧
      Undisturbed t (some j) name ∧ Removing t name a (t.pc j) :=
  course (fun s pc => Removing s name a pc) (Takes name a) hshort
    (fun _ _ _ hs h hstep => h.own hs hzero hshort hstep)
    (fun _ _ _ _ _ _ h hU hki hmoves => h.bystander hU hki hzero hshort hmoves)
    hU h hminds hexec

/-- The create from its start on: it has not come to `vmalloc`, or it has an entry of its own. -/
theorem create_course {w : Write} (hzero : 0 ∉ name) (hshort : name.length < 20)
    (hU : Undisturbed u (some i) name) (habsent : Absent u name)
    (hpc : u.pc i = .create w (.vmalloc name))
    (hminds : (machine ι).Along (Minds i name false) u as)
    (hexec : (machine ι).exec u as = some (t, tr)) :
    ∃ a, u.nextNode ≤ a ∧ (machine ι).Along (Own i (Adds name a)) u as ∧
      Undisturbed t (some i) name ∧
        (t.pc i = .create w (.vmalloc name) ∨ Creating t name a (t.pc i)) := by
  induction as generalizing u tr with
  | nil =>
    obtain ⟨rfl, -⟩ := Prod.mk.inj (Option.some.inj hexec)
    exact ⟨u.nextNode, le_rfl, trivial, hU, .inl hpc⟩
  | cons p as ih =>
    obtain ⟨v, es, tr', hstep, hexec', -⟩ := Machine.exec_cons_eq_some.mp hexec
    obtain ⟨hmind, hminds'⟩ := (Machine.along_cons hstep as).mp hminds
    obtain ⟨k, act⟩ := p
    rcases eq_or_ne k i with rfl | hki
    · obtain rfl : act = (u.pc k).act false := by simpa [Minds] using hmind
      obtain ⟨es', hs⟩ := step_of_machine hstep
      have hleak : u.leaks (k, (u.pc k).act false) = false := by simp [State.leaks, hpc]
      obtain ⟨hcreating, hadds⟩ := habsent.allocate hU.reachable hpc hs
      obtain ⟨hown, hU', h⟩ := creating_course hzero hshort
        (hU.mind hshort hmind hstep fun _ => hleak) hcreating hminds' hexec'
      refine ⟨u.nextNode, le_rfl,
        (Machine.along_cons hstep as).mpr ⟨fun _ s' tr hstep' => ?_, hown⟩, hU', .inr h⟩
      rw [hstep] at hstep'
      cases hstep'
      exact hadds
    · obtain ⟨es', -, hmoves⟩ := moves_of_machine hstep
      have hk : some k ≠ some i := fun heq => hki (Option.some.inj heq)
      obtain ⟨a, hle, hown, h⟩ := ih (hU.mind hshort hmind hstep fun hk => absurd hk hki)
        (habsent.bystander hU hk hshort hmoves) (by rwa [pc_of_ne hmoves (Ne.symm hki)]) hminds'
        hexec'
      exact ⟨a, (nextNode_le hmoves).trans hle,
        (Machine.along_cons hstep as).mpr ⟨fun hk => absurd hk hki, hown⟩, h⟩

/-- Between the calls everybody leaves the entry alone. -/
theorem entry_stays (hzero : 0 ∉ name) (hshort : name.length < 20)
    (hU : Undisturbed t none name) (h : Slot t name a true true false)
    (hleaves : (machine ι).Along (Leaves name) t as)
    (hexec : (machine ι).exec t as = some (v, tr)) :
    Undisturbed v none name ∧ Slot v name a true true false := by
  refine (Machine.exec_along (C := Leaves name) (D := fun _ _ => True)
    (I := fun s => Undisturbed s none name ∧ Slot s name a true true false) ?_ ⟨hU, h⟩ hleaves
    hexec).2
  rintro s p s' tr ⟨hU, h⟩ hleaves hstep
  obtain ⟨es, -, hmoves⟩ := moves_of_machine hstep
  refine ⟨trivial, ?_, h.bystander hU (Option.some_ne_none _) hzero hshort hmoves⟩
  exact hU.step hshort hstep hleaves.1 (fun hact => (hleaves.2 _ hact).1 rfl) (.inr hleaves)

end Course

section Positive

variable {off off' : Nat} {buf buf' stack stack' : List UInt8} {copied copied' : Bool}

theorem step_control (hpc : s.pc i = .user) (hcontrol : s.control = true)
    (hparse : controlWrite off buf copied stack = .parsed (.create name)) :
    (machine ι).step s (i, .call (.control off buf copied stack)) =
      some (s.goto i (.create ⟨off, buf.length⟩ (.vmalloc name)), []) := by
  simp only [machine, step, hpc, State.call, hcontrol, if_true, hparse, Option.map_some,
    List.map_nil]

theorem step_remove (hpc : s.pc i = .user) (hcontrol : s.control = true)
    (hparse : controlWrite off buf copied stack = .parsed (.remove name)) :
    (machine ι).step s (i, .call (.control off buf copied stack)) =
      some (s.goto i (.mark ⟨off, buf.length⟩ (.lockLists name)), []) := by
  simp only [machine, step, hpc, State.call, hcontrol, if_true, hparse, Option.map_some,
    List.map_nil]

theorem restores_present (hU : Undisturbed v none name) (h : Slot v name a true true false)
    (hj : v.pc j = .user) (hremove : controlWrite off buf copied stack = .parsed (.remove name))
    (hshort : name.length < 20) : Restores v j (.control off buf copied stack) name a := by
  have hzero : 0 ∉ name := zero_not_mem_name (.inr hremove)
  have hstep := step_remove hj (control_of_running hU.reachable hU.running) hremove
  obtain ⟨es, -, hmoves⟩ := moves_of_machine hstep
  have hU' : Undisturbed v (some j) name :=
    ⟨hU.reachable, hU.agree, hU.running, fun k _ => hU.clear k (Option.some_ne_none k)⟩
  have hslot := h.stays hU.reachable hshort hmoves h.mark rfl rfl
  refine ⟨_, _, hstep, ⟨rfl, rfl, fun _ _ => rfl⟩, fun as t tr hminds hexec => ?_⟩
  obtain ⟨hown, hUt, hremoving⟩ := removing_course (a := a) hzero hshort
    (hU'.step hshort hstep (by simp [State.leaks, hj]) (by simp) (.inl rfl))
    (by simpa [State.goto, Removing] using hslot) hminds hexec
  refine ⟨canReturn_of_ordered hUt.ordered (rank_of_removing hremoving) name false, hown,
    fun k b hpc => ?_, fun hout => ?_⟩
  · rw [hpc] at hremoving
    cases k with
    | exit tmp => exact absurd hremoving id
    | control w =>
      obtain ⟨rfl, hslot⟩ := hremoving
      refine ⟨rfl, hslot.nameString hzero hshort, ?_⟩
      rw [← List.count_pos_iff, hslot.procs]
      exact Nat.one_pos
  · have hslot := hremoving.slot_of_outside hout
    refine ⟨?_, ?_, hUt.not_holding hout⟩
    · rw [← List.count_eq_zero, hslot.lists]
      rfl
    · rw [← List.count_eq_zero, hslot.procs]
      rfl

/-- Short names make the round trip. -/
theorem roundTrip_of_short (hs : (machine ι).Reachable s) (hi : s.pc i = .user)
    (hexited : s.exited = false) (hunused : ¬s.Uses name)
    (hcreate : controlWrite off buf copied stack = .parsed (.create name))
    (hremove : controlWrite off' buf' copied' stack' = .parsed (.remove name))
    (hshort : name.length < 20)
    (hlists : ∀ k, s.spLists = some k → (s.pc k).holdsLists = true) :
    RoundTrip s i j false (.control off buf copied stack) (.control off' buf' copied' stack')
      name := by
  have hzero : 0 ∉ name := zero_not_mem_name (.inl hcreate)
  have hstep := step_control hi (control_of_running hs hexited) hcreate
  have hU : Undisturbed s (some i) name :=
    ⟨hs, agree_of_lists hs hlists, hexited, fun k _ hk => hunused (.inr (.inr ⟨k, hk⟩))⟩
  have hpresent : s.present name = false := Bool.eq_false_iff.mpr fun h => hunused (.inl h)
  have habsent : Absent (s.goto i (.create ⟨off, buf.length⟩ (.vmalloc name))) name :=
    ⟨hpresent, fun b hb hname => hunused (.inr (.inl ⟨b, hb, hname⟩))⟩
  refine ⟨_, _, hstep, ⟨rfl, rfl, fun _ _ => rfl⟩, fun as t tr hminds hexec => ?_⟩
  obtain ⟨a, hle, hown, hUt, hphase⟩ := create_course hzero hshort
    (hU.step hshort hstep (by simp [State.leaks, hi]) (by simp) (.inl rfl)) habsent
    (Function.update_self ..) hminds hexec
  refine ⟨canReturn_of_ordered hUt.ordered ?_ name false, fun hout => ⟨hUt.not_holding hout, .inr
    ⟨nameStores_lt_iff.mpr hshort, a, ?_, hown, fun bs v tr hleaves hexec' => ?_⟩⟩⟩
  · rcases hphase with hpc | hcreating
    · simp [hpc, Pc.rank, CreatePc.rank]
    · exact rank_of_creating hcreating
  · exact fun hmem => absurd ((known hs).lists a hmem) (not_lt.mpr hle)
  · have hcreating : Creating t name a (t.pc i) := by
      refine hphase.resolve_left fun hpc => ?_
      rw [hpc] at hout
      cases hout
    obtain ⟨hUv, hslot⟩ := entry_stays hzero hshort (hUt.release hout none)
      (hcreating.slot_of_outside hout) hleaves hexec'
    exact ⟨hslot.present hzero hshort, fun hj => restores_present hUv hslot hj hremove hshort⟩

end Positive

section Negative

variable {as : List (ι × Act)} {tr : List (ι × Event)}

/-- In `control_create`, with the lock of `sp_lists` still ahead. -/
def Pc.beforeLock : Pc → Bool
  | .create _ .unlock => false
  | .create _ _ => true
  | _ => false

omit [Fintype ι] in
theorem beforeLock_of_moves (hmoves : Moves s i act s' es) (h : (s.pc i).beforeLock = true)
    (hsp : s.spLists ≠ none) : (s'.pc i).beforeLock = true := by
  cases hmoves with
  | _ => simp_all [State.goto, State.setNode, Pc.beforeLock]

/-- Without `sp_lists` no create comes back. -/
theorem not_canReturn_of_lost (hs : (machine ι).Reachable s) (hsp : s.spLists = some k)
    (hk : (s.pc k).holdsLists = false) (hi : (s.pc i).beforeLock = true) :
    ¬CanReturn s i name refused := by
  rintro ⟨as, t, tr, -, hexec, hout⟩
  have hI := (Machine.exec_along (C := fun _ _ => True) (D := fun _ _ => True)
    (I := fun s => (machine ι).Reachable s ∧ (s.spLists = some k ∧ (s.pc k).holdsLists = false) ∧
      (s.pc i).beforeLock = true) ?_ ⟨hs, ⟨hsp, hk⟩, hi⟩ (Machine.along_true _ _) hexec).2
  · have hbefore := hI.2.2
    unfold Pc.beforeLock at hbefore
    split at hbefore
    · cases hbefore
    · rw [‹t.pc i = _›] at hout
      cases hout
    · cases hbefore
  · rintro s p s' tr ⟨hs, ⟨hsp, hk⟩, hi⟩ - hstep
    obtain ⟨es, -, hmoves⟩ := moves_of_machine hstep
    refine ⟨trivial, hs.step hstep, lost_of_moves hs hmoves hsp hk, ?_⟩
    rcases eq_or_ne i p.1 with rfl | hip
    · exact beforeLock_of_moves hmoves hi (by rw [hsp]; exact Option.some_ne_none k)
    · rwa [pc_of_ne hmoves hip]

/-- A refused create on its way to `sp_lists`, and with it at its end. -/
def Refused (s : State ι) (i : ι) : Pc → Prop
  | .create _ (.vmalloc _) | .create _ (.procCreateData _ _) | .create _ (.lockFailed _) => True
  | .ret _ _ | .user => s.spLists = some i
  | _ => False

theorem Refused.own (h : Refused s i (s.pc i))
    (hstep : step s i ((s.pc i).act true) = some (s', es)) : Refused s' i (s'.pc i) := by
  cases hpc : s.pc i with
  | user =>
    rw [hpc] at hstep
    simp [step, hpc, Pc.act] at hstep
  | mark | remove | exit | read | write =>
    rw [hpc] at h
    exact absurd h id
  | ret hd r =>
    rw [hpc] at h hstep
    simp only [step, hpc, Pc.act, Option.some.injEq, Prod.mk.injEq] at hstep
    obtain ⟨rfl, -⟩ := hstep
    simp only [State.goto, Function.update_self]
    exact h
  | create w c =>
    rw [hpc] at h hstep
    cases c with
    | lockAdd | unlock => exact absurd h id
    | vmalloc n =>
      simp only [step, hpc, Pc.act, State.create, Option.some.injEq, Prod.mk.injEq] at hstep
      obtain ⟨rfl, -⟩ := hstep
      simp [State.goto, State.setNode, Refused]
    | procCreateData n b =>
      simp only [step, hpc, Pc.act, if_true, Option.some.injEq, Prod.mk.injEq] at hstep
      obtain ⟨rfl, -⟩ := hstep
      simp [State.goto, Refused]
    | lockFailed b =>
      simp only [step, hpc, Pc.act, State.create] at hstep
      obtain ⟨-, rfl, -⟩ | ⟨-, rfl, -⟩ := lockLists_eq_some hstep
      · rw [hpc]
        trivial
      · simp [State.goto, Refused]

/-- A refused create comes back with `sp_lists`. -/
theorem refused_course (hs : (machine ι).Reachable u) (h : Refused u i (u.pc i))
    (hminds : (machine ι).Along (Minds i name true) u as)
    (hexec : (machine ι).exec u as = some (t, tr)) : Refused t i (t.pc i) := by
  refine ((Machine.exec_along (C := Minds i name true) (D := fun _ _ => True)
    (I := fun s => (machine ι).Reachable s ∧ Refused s i (s.pc i)) ?_ ⟨hs, h⟩ hminds hexec).2).2
  rintro s ⟨k, act⟩ s' tr ⟨hs, h⟩ hminds hstep
  refine ⟨trivial, hs.step hstep, ?_⟩
  rcases eq_or_ne k i with rfl | hki
  · obtain rfl : act = (s.pc k).act true := by simpa [Minds] using hminds
    obtain ⟨es, hstep⟩ := step_of_machine hstep
    exact h.own hstep
  · obtain ⟨es, -, hmoves⟩ := moves_of_machine hstep
    have hsame := pc_of_ne hmoves (Ne.symm hki)
    rw [hsame]
    have hkeeps (hsp : s.spLists = some i) (hi : (s.pc i).holdsLists = false) :
        s'.spLists = some i := (lost_of_moves hs hmoves hsp hi).1
    unfold Refused at h ⊢
    split at h
    case h_4 hpc => exact hkeeps h (by rw [hpc]; rfl)
    case h_5 hpc => exact hkeeps h (by rw [hpc]; rfl)
    case h_6 => exact h
    all_goals trivial

/-- The create has not registered the name, and nobody else is about to. -/
structure Unregistered (s : State ι) (i : ι) (name : List UInt8) : Prop where
  pc : ∃ w, s.pc i = .create w (.vmalloc name) ∨ ∃ a, s.pc i = .create w (.procCreateData name a)
  present : s.present name = false
  alone : ∀ k, k ≠ i → name ∉ (s.pc k).names

theorem Unregistered.own (h : Unregistered s i name)
    (hstep : step s i ((s.pc i).act false) = some (s', es)) (hsame : Unchanged s s') :
    Unregistered s' i name := by
  have hmoves := moves_of_step hstep
  obtain ⟨w, hpc | ⟨a, hpc⟩⟩ := h.pc
  · refine ⟨⟨w, .inr ⟨s.nextNode, ?_⟩⟩, ?_, fun k hki => ?_⟩
    · simp only [hpc, Pc.act, step, State.create, Option.some.injEq, Prod.mk.injEq] at hstep
      rw [← hstep.1]
      exact Function.update_self ..
    · simp only [hpc, Pc.act, step, State.create, Option.some.injEq, Prod.mk.injEq] at hstep
      rw [← hstep.1]
      exact h.present
    · rw [pc_of_ne hmoves hki]
      exact h.alone k hki
  · -- the name is free, and gets registered
    simp only [hpc, Pc.act, step, State.create, h.present, Bool.false_eq_true, if_false,
      Option.some.injEq, Prod.mk.injEq] at hstep
    have hprocs := hsame.procs
    rw [← hstep.1] at hprocs
    exact absurd (congrArg List.length hprocs) (by simp)

/-- A create that changes nothing has not come to its return. -/
theorem unregistered_course (h : Unregistered u i name)
    (hminds : (machine ι).Along (Minds i name false) u as)
    (hsame : (machine ι).Along (Own i Unchanged) u as)
    (hexec : (machine ι).exec u as = some (t, tr)) : Unregistered t i name := by
  refine (Machine.exec_along
    (C := fun s p => Minds i name false s p ∧ Own i Unchanged s p) (D := fun _ _ => True)
    (I := fun s => Unregistered s i name) ?_ h (Machine.along_and hminds hsame) hexec).2
  rintro s ⟨k, act⟩ s' tr h ⟨hminds, hsame⟩ hstep
  refine ⟨trivial, ?_⟩
  rcases eq_or_ne k i with rfl | hki
  · obtain rfl : act = (s.pc k).act false := by simpa [Minds] using hminds
    obtain ⟨es, hs⟩ := step_of_machine hstep
    exact h.own hs (hsame rfl s' tr hstep)
  · obtain ⟨es, -, hmoves⟩ := moves_of_machine hstep
    simp only [Minds, hki, if_false] at hminds
    refine ⟨?_, present_of_moves hmoves (h.alone k hki) h.present, fun j hji hname => ?_⟩
    · rw [pc_of_ne hmoves (Ne.symm hki)]
      exact h.pc
    · rcases eq_or_ne j k with rfl | hjk
      · rcases names_of_moves hmoves hname with hname | ⟨c, hact, hc⟩
        · exact h.alone j hji hname
        · exact (hminds.2 c hact).2 hc
      · rw [pc_of_ne hmoves hjk] at hname
        exact h.alone j hji hname

end Negative

section Main

variable {off off' : Nat} {buf buf' stack stack' : List UInt8} {copied copied' : Bool}

theorem not_roundTrip_of_lost (hs : (machine ι).Reachable s) (hi : s.pc i = .user)
    (hexited : s.exited = false)
    (hcreate : controlWrite off buf copied stack = .parsed (.create name))
    (hsp : s.spLists = some k) (hk : (s.pc k).holdsLists = false) (remove : Call) :
    ¬RoundTrip s i j refused (.control off buf copied stack) remove name := by
  rintro ⟨u, tr, hstep, -, h⟩
  rw [step_control hi (control_of_running hs hexited) hcreate] at hstep
  cases hstep
  refine not_canReturn_of_lost (k := k)
    (hs.step (step_control hi (control_of_running hs hexited) hcreate)) hsp ?_ ?_
    (h [] _ [] trivial rfl).1
  · rcases eq_or_ne k i with rfl | hki
    · simp [State.goto, Pc.holdsLists]
    · simpa [State.goto, hki] using hk
  · simp [State.goto, Pc.beforeLock]

theorem not_roundTrip_of_refused (hs : (machine ι).Reachable s) (hi : s.pc i = .user)
    (hexited : s.exited = false)
    (hcreate : controlWrite off buf copied stack = .parsed (.create name)) (remove : Call) :
    ¬RoundTrip s i j true (.control off buf copied stack) remove name := by
  rintro ⟨u, tr, hstep, -, h⟩
  have hstep' := step_control hi (control_of_running hs hexited) hcreate
  rw [hstep'] at hstep
  cases hstep
  obtain ⟨as, t, tr, hminds, hexec, hout⟩ := (h [] _ [] trivial rfl).1
  have hrefused := refused_course (hs.step hstep') (by simp [State.goto, Refused]) hminds hexec
  apply ((h as t tr hminds hexec).2 hout).1
  unfold Pc.outside at hout
  split at hout
  · rwa [‹t.pc i = .user›] at hrefused
  · rwa [‹t.pc i = .ret _ _›] at hrefused
  · cases hout

theorem not_roundTrip_of_long (hs : (machine ι).Reachable s) (hi : s.pc i = .user)
    (hexited : s.exited = false) (hunused : ¬s.Uses name)
    (hcreate : controlWrite off buf copied stack = .parsed (.create name))
    (hlong : 20 ≤ name.length) (remove : Call) :
    ¬RoundTrip s i j false (.control off buf copied stack) remove name := by
  rintro ⟨u, tr, hstep, -, h⟩
  have hstep' := step_control hi (control_of_running hs hexited) hcreate
  rw [hstep'] at hstep
  cases hstep
  obtain ⟨as, t, tr, hminds, hexec, hout⟩ := (h [] _ [] trivial rfl).1
  rcases ((h as t tr hminds hexec).2 hout).2 with hsame | ⟨hstores, -⟩
  · have hunregistered : Unregistered t i name := by
      refine unregistered_course ⟨⟨_, .inl (Function.update_self ..)⟩, ?_, fun k hki hname => ?_⟩
        hminds hsame hexec
      · exact Bool.eq_false_iff.mpr fun h => hunused (.inl h)
      · simp only [State.goto, Function.update_of_ne hki] at hname
        exact hunused (.inr (.inr ⟨k, .inl hname⟩))
    obtain ⟨w, hpc | ⟨a, hpc⟩⟩ := hunregistered.pc
    · rw [hpc] at hout
      cases hout
    · rw [hpc] at hout
      cases hout
  · exact absurd (nameStores_lt_iff.mp hstores) (Nat.not_lt.mpr hlong)

/-- A create and a remove of one new name undo each other, whatever the others do meanwhile,
exactly where the name fits, the kernel registers it, and nobody has lost `sp_lists`. -/
theorem create_remove_iff (hs : (machine ι).Reachable s) (hi : s.pc i = .user)
    (hexited : s.exited = false) (hunused : ¬s.Uses name)
    (hcreate : controlWrite off buf copied stack = .parsed (.create name))
    (hremove : controlWrite off' buf' copied' stack' = .parsed (.remove name)) (j : ι)
    (refused : Bool) :
    RoundTrip s i j refused (.control off buf copied stack) (.control off' buf' copied' stack')
        name ↔
      name.length < 20 ∧ refused = false ∧
        ∀ k, s.spLists = some k → (s.pc k).holdsLists = true := by
  constructor
  · intro h
    have hlists : ∀ k, s.spLists = some k → (s.pc k).holdsLists = true := by
      intro k hsp
      by_contra hk
      exact not_roundTrip_of_lost hs hi hexited hcreate hsp (Bool.eq_false_iff.mpr hk) _ h
    cases refused with
    | true => exact absurd h (not_roundTrip_of_refused hs hi hexited hcreate _)
    | false =>
      refine ⟨Nat.lt_of_not_le fun hlong => ?_, rfl, hlists⟩
      exact not_roundTrip_of_long hs hi hexited hunused hcreate hlong _ h
  · rintro ⟨hshort, rfl, hlists⟩
    exact roundTrip_of_short hs hi hexited hunused hcreate hremove hshort hlists

/-- A command with a word behind it is parsed as that word. -/
theorem controlWrite_command (hne : name ≠ []) (hword : ∀ c ∈ name, isSpace c = false)
    (hzero : 0 ∉ name) (hlen : name.length ≤ 232) (rest : List UInt8) :
    controlWrite 0 (bytes "create " ++ name) true (bytes "create " ++ name ++ 0 :: rest) =
        .parsed (.create name) ∧
      controlWrite 0 (bytes "remove " ++ name) true (bytes "remove " ++ name ++ 0 :: rest) =
        .parsed (.remove name) := by
  have hcreate : directives (bytes "create %s") = (bytes "create").map .lit ++ [.space, .str] := by
    decide
  have hremove : directives (bytes "remove %s") = (bytes "remove").map .lit ++ [.space, .str] := by
    decide
  have htoken : scanToken (32 :: name) = some name := scanToken_eq_self_iff.mpr ⟨hne, hword⟩
  have hother : ¬bytes "create" <+: bytes "remove" ++ 32 :: name :=
    not_isPrefix_of_isPrefix (List.prefix_append _ _) (by decide) (by decide)
  have htext (word : List UInt8) (h : 0 ∉ word) :
      cstring (word ++ name ++ 0 :: rest) = word ++ name := by
    rw [cstring_append_zero, cstring_of_not_mem]
    exact List.not_mem_append h hzero
  have hsize (word : List UInt8) (h : word.length = 7) : (word ++ name).length ≤ 239 := by
    rw [List.length_append, h]
    exact Nat.add_le_add_left hlen 7
  constructor
  · rw [controlWrite_parsed (hsize _ (by decide)), ControlCommand.ofText, htext _ (by decide)]
    have hscan : scanStr (bytes "create " ++ name) "create %s" = some name :=
      (scanStr_of_word hcreate _).trans htoken
    rw [hscan]
  · rw [controlWrite_parsed (hsize _ (by decide)), ControlCommand.ofText, htext _ (by decide)]
    have hnone : scanStr (bytes "remove " ++ name) "create %s" = none :=
      scanStr_of_not_isPrefix hcreate hother
    have hscan : scanStr (bytes "remove " ++ name) "remove %s" = some name :=
      (scanStr_of_word hremove _).trans htoken
    rw [hnone, hscan]

omit [Fintype ι] [DecidableEq ι] in
theorem not_uses {lists : List Addr} (hpresent : s.present name = false) (hlists : s.lists = lists)
    (hnames : ∀ a ∈ lists, (s.node a).nameString ≠ name)
    (hpcs : ∀ k, (s.pc k).names = [] ∧ (s.pc k).edits = []) : ¬s.Uses name := by
  rintro (h | ⟨a, ha, hname⟩ | ⟨k, hname | ⟨b, hb, -⟩⟩)
  · rw [hpresent] at h
    cases h
  · exact hnames a (hlists ▸ ha) hname
  · rw [(hpcs k).1] at hname
    cases hname
  · rw [(hpcs k).2] at hb
    cases hb

/-- A reader of "default" has taken `sp_lists`. -/
def readerInside : List (Bool × Act) := [(true, .call (.read 0 ⟨0, 100, none⟩)), (true, .run)]

/-- The create waits for the reader, and a name of 19 bytes makes the round trip unless the kernel
refuses it. -/
theorem create_remove_iff_nineteen :
    ∃ s tr, (machine Bool).Run readerInside s tr ∧ s.spLists = some true ∧
      RoundTrip s false true false
        (.control 0 (bytes "create nineteen_characters") true
          (bytes "create nineteen_characters" ++ [0]))
        (.control 0 (bytes "remove nineteen_characters") true
          (bytes "remove nineteen_characters" ++ [0])) (bytes "nineteen_characters") ∧
      ¬RoundTrip s false true true
        (.control 0 (bytes "create nineteen_characters") true
          (bytes "create nineteen_characters" ++ [0]))
        (.control 0 (bytes "remove nineteen_characters") true
          (bytes "remove nineteen_characters" ++ [0])) (bytes "nineteen_characters") := by
  have heval : ((machine Bool).exec (machine Bool).init readerInside).map (fun r =>
      decide (r.1.spLists = some true ∧ r.1.pc false = .user ∧
        r.1.pc true = .read 0 ⟨0, 100, none⟩ .lock ∧ r.1.exited = false ∧
        r.1.present (bytes "nineteen_characters") = false ∧ r.1.lists = [0] ∧
        (r.1.node 0).nameString = bytes "default")) = some true := by
    decide +kernel
  obtain ⟨s, tr, hrun, hs⟩ := Machine.exists_run_of_eval heval
  obtain ⟨hsp, hfalse, htrue, hexited, hpresent, hlists, hname⟩ := of_decide_eq_true hs
  obtain ⟨hcreate, hremove⟩ :=
    controlWrite_command (show bytes "nineteen_characters" ≠ [] by decide) (by decide +kernel)
      (by decide) (by decide) []
  have hunused : ¬s.Uses (bytes "nineteen_characters") := by
    refine not_uses hpresent hlists ?_ ?_
    · rw [List.forall_mem_singleton, hname]
      decide
    · rw [Bool.forall_bool, hfalse, htrue]
      decide
  have hiff := create_remove_iff hrun.reachable hfalse hexited hunused hcreate hremove true
  refine ⟨s, tr, hrun, hsp, (hiff false).mpr ⟨by decide, rfl, fun k hk => ?_⟩,
    fun h => absurd ((hiff true).mp h).2.1 (by decide)⟩
  rw [hsp] at hk
  rw [← Option.some.inj hk, htrue]
  rfl

/-- An entry with a name of 20 bytes is created and removed. -/
def twentyCharacters : List (Unit × Act) :=
  ((), .call (.control 0 (bytes "create twenty_characters_12") true
    (bytes "create twenty_characters_12" ++ [0]))) :: List.replicate 5 ((), .run) ++
  ((), .call (.control 0 (bytes "remove twenty_characters_12") true
    (bytes "remove twenty_characters_12" ++ [0]))) :: List.replicate 11 ((), .run)

/-- No copy of the name of 20 bytes has room for its terminator. The remove reads it on into the
mark, and leaves the freed node registered. -/
theorem twenty_characters_not_roundTrip :
    ¬RoundTrip (machine Unit).init () () false
      (.control 0 (bytes "create twenty_characters_12") true
        (bytes "create twenty_characters_12" ++ [0]))
      (.control 0 (bytes "remove twenty_characters_12") true
        (bytes "remove twenty_characters_12" ++ [0])) (bytes "twenty_characters_12") ∧
    ∃ s tr, (machine Unit).Run twentyCharacters s tr ∧ s.pc () = .user ∧ s.lists = [0] ∧
      (bytes "twenty_characters_12", 1) ∈ s.procs ∧ ((), .node 1, .free) ∈ tr := by
  constructor
  · obtain ⟨hcreate, -⟩ :=
      controlWrite_command (show bytes "twenty_characters_12" ≠ [] by decide) (by decide +kernel)
        (by decide) (by decide) []
    have hunused : ¬(machine Unit).init.Uses (bytes "twenty_characters_12") :=
      not_uses (by decide) rfl (by decide) (fun _ => ⟨rfl, rfl⟩)
    exact not_roundTrip_of_long Machine.run_nil.reachable rfl rfl hunused hcreate (by decide) _
  · have heval : ((machine Unit).exec (machine Unit).init twentyCharacters).map (fun r =>
        (r.1.pc (), r.1.lists, decide ((bytes "twenty_characters_12", 1) ∈ r.1.procs),
          decide (((), .node 1, .free) ∈ r.2))) = some (.user, [0], true, true) := by
      decide +kernel
    obtain ⟨s, tr, hrun, hs⟩ := Machine.exists_run_of_eval heval
    simp only [Prod.mk.injEq, decide_eq_true_eq] at hs
    exact ⟨s, tr, hrun, hs⟩

end Main

end LinuxInternals.Multilist
