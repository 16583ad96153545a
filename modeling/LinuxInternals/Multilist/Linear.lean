import LinuxInternals.Lib.Linearizable
import LinuxInternals.Multilist.Reading
import LinuxInternals.Multilist.Removal

/-!
# The entries are shared lists

While entries come and go, every read and every write of an entry takes effect at one instant:
where it holds the `sp` of the entry, or, if it never takes it, where it is called. Whoever removes
an entry waits for its handlers, so that no call comes upon a list that is being freed.
-/

namespace LinuxInternals.Multilist

open Text Lifetime Ownership
open Modlist (Command)

/-- The system calls on an entry. -/
inductive Op where
  | read (q : Read)
  | write (off : Nat) (buf : List UInt8) (copied : Bool) (stack : List UInt8)
deriving DecidableEq, Repr

namespace Op

/-- What is read fits an `int`, and what is written `aux_buffer`. -/
def fits : Op → Bool
  | read q => decide (q.len < 2147483648)
  | write _ buf _ _ => decide (buf.length ≤ 239)

def apply (list : List Int32) : Op → List Int32 × Reply
  | read q => (list, modlistRead q list)
  | write off buf copied stack =>
    match (modlistWrite off buf copied stack).1 with
    | .refused r => (list, r)
    | .parsed c => (c.run list, Write.done ⟨off, buf.length⟩)

end Op

/-- A list for each entry, empty when the entry is created. -/
def entries : Object (Addr → List Int32) (Addr × Op) Reply where
  init := fun _ => []
  apply lists op r :=
    if op.2.fits = true ∧ (op.2.apply (lists op.1)).2 = r then
      some (Function.update lists op.1 (op.2.apply (lists op.1)).1)
    else none

/-- The calls on the entries, as their users see them. -/
def shown {ι : Type} (s : State ι) (p : ι × Act) :
    List (ι × Object.Event (Addr × Op) Reply) :=
  match s.pc p.1, p.2 with
  | .user, .call (.read a q) => [(p.1, .invoked (a, .read q))]
  | .user, .call (.write a off buf copied stack) =>
    [(p.1, .invoked (a, .write off buf copied stack))]
  | .ret (.entry _) r, .run => [(p.1, .returned r)]
  | _, _ => []

/-- The names fit their arrays, and the calls on entries their types. -/
def Act.fits : Act → Bool
  | .call (.read _ q) => (Op.read q).fits
  | .call (.write _ off buf copied stack) => (Op.write off buf copied stack).fits
  | act => act.short

theorem Act.short_of_fits {act : Act} (h : act.fits = true) : act.short = true := by
  unfold Act.fits at h
  split at h
  · rfl
  · rfl
  · exact h

section Lists

variable {ι : Type} [DecidableEq ι] {s s' : State ι} {i : ι} {act : Act} {es : List Event}
  {st : Addr → Status ι Phase} {lists lists' : Addr → List Int32} {b : Addr}

/-- The entry is in `/proc`, or a handler is still running on it. -/
def State.Served (s : State ι) (a : Addr) : Prop :=
  a ∈ s.procs.map Prod.snd ∨ ∃ j, (s.pc j).handles = some a

omit [DecidableEq ι] in
theorem Entries.serving_of_served (hE : Entries s st) (h : s.Served b) :
    serving (st b) = true := by
  rcases h with hopen | ⟨j, hj⟩
  · exact hE.serving_of_open hopen
  · exact (hE.pcs j).handles b hj

/-- An entry comes to be served by being registered. -/
theorem served_of_moves (hmoves : Moves s i act s' es) (h : s'.Served b) :
    s.Served b ∨ ∃ w name, s.pc i = .create w (.procCreateData name b) := by
  rcases h with hprocs | ⟨j, hj⟩
  · cases hmoves with
    | register hpc =>
      rw [List.map_append] at hprocs
      rcases List.mem_append.mp hprocs with hold | hnew
      · exact .inl (.inl hold)
      · rw [List.mem_singleton.mp hnew]
        exact .inr ⟨_, _, hpc⟩
    | unregister =>
      obtain ⟨e, he, rfl⟩ := List.mem_map.mp hprocs
      exact .inl (.inl (List.mem_map_of_mem (List.mem_of_mem_erase he)))
    | _ => exact .inl (.inl hprocs)
  · rcases eq_or_ne j i with rfl | hji
    · exact .inl ((handles_of_moves hmoves hj).symm.imp_right fun hold => ⟨j, hold⟩)
    · rw [pc_of_ne hmoves hji] at hj
      exact .inl (.inr ⟨j, hj⟩)

/-- Only a pass over the list of an entry, and its cleanup, change it. -/
theorem listing_of_moves (hmoves : Moves s i act s' es) (hb : b < s.nextNode)
    (hcleanup : ∀ k, s.pc i ≠ .remove k b .lock)
    (hwrite : ∀ w job, s.pc i ≠ .write b w (.lock job)) : s'.listing b = s.listing b := by
  have hset {a : Addr} {n : Node ι} (hn : a = b → n.list = (s.node b).list) :
      (Function.update s.node a n b).list.map Prod.snd = (s.node b).list.map Prod.snd := by
    rcases eq_or_ne b a with rfl | hba
    · rw [Function.update_self, hn rfl]
    · rw [Function.update_of_ne hba]
  cases hmoves with
  | vmalloc => exact hset fun h => absurd h hb.ne'
  | isMarked | claim | unlockMarked | unlockClaimed | unlockEmpty | readLock | readUnlock
  | writeUnlock => exact hset (by rintro rfl; rfl)
  | cleanup hpc => exact hset fun h => absurd (h ▸ hpc) (hcleanup _)
  | writeLock hpc => exact hset fun h => absurd (h ▸ hpc) (hwrite _ _)
  | _ => rfl

/-- Who gets to `proc_create_data` has just set up an empty list. -/
theorem built_of_moves (hmoves : Moves s i act s' es) {w : Write} {name : List UInt8}
    (h : s'.pc i = .create w (.procCreateData name b)) :
    s' = s ∨ b = s.nextNode ∧ s'.listing b = [] := by
  cases hmoves with
  | spinLists | spin => exact .inl rfl
  | vmalloc =>
    simp only [State.goto, State.setNode, Function.update_self, Pc.create.injEq,
      CreatePc.procCreateData.injEq] at h
    obtain ⟨-, -, rfl⟩ := h
    simp [State.listing, State.setNode]
  | @vfree k => cases k <;> simp [State.goto, Caller.pc] at h
  | _ => simp [State.goto, State.setNode, State.unlock, State.unlockLists] at h

/-- The lists are those of the entries that are served, and empty for the entries to come. -/
structure Agrees (s : State ι) (lists : Addr → List Int32) : Prop where
  served : ∀ a, s.Served a → lists a = s.listing a
  fresh : ∀ a, s.nextNode ≤ a → lists a = []
  built : ∀ j w name a, s.pc j = .create w (.procCreateData name a) →
    lists a = [] ∧ s.listing a = []

theorem Agrees.step (h : Agrees s lists) (hE : Entries s st) (hmoves : Moves s i act s' es)
    (hlists : ∀ b, ¬s.Served b → lists' b = lists b)
    (hserved : ∀ b, s.Served b → lists' b = s'.listing b) : Agrees s' lists' := by
  have hnot {j : ι} {b : Addr} {g : Phase} (hj : (s.pc j).owns = some (b, g))
      (hg : g.serving = false) : ¬s.Served b := by
    intro hb
    have hserving := hE.serving_of_served hb
    rw [hE.status hj, serving, hg] at hserving
    cases hserving
  -- what is being created is in nobody else's hands
  have hlisting {j : ι} {b : Addr} (hj : (s.pc j).owns = some (b, .built)) :
      s'.listing b = s.listing b := by
    apply listing_of_moves hmoves (hE.lt_of_owns hj)
    · intro k hi
      have hown : (s.pc i).owns = some (b, .unlinked) := by rw [hi]; rfl
      have heq := (hE.status hj).symm.trans (hE.status hown)
      cases heq
    · intro w job hi
      exact hnot hj rfl (.inr ⟨i, by rw [hi]; rfl⟩)
  constructor
  · intro b hb
    rcases served_of_moves hmoves hb with hold | ⟨w, name, hpc⟩
    · exact hserved b hold
    · have hi : (s.pc i).owns = some (b, .built) := by rw [hpc]; rfl
      obtain ⟨hempty, hlist⟩ := h.built i w name b hpc
      rw [hlists b (hnot hi rfl), hempty, hlisting hi, hlist]
  · intro b hb
    have hold := (nextNode_le hmoves).trans hb
    rw [hlists b, h.fresh b hold]
    intro hserved
    have hserving := hE.serving_of_served hserved
    rw [hE.fresh b hold] at hserving
    cases hserving
  · intro j w name b hj
    rcases eq_or_ne j i with rfl | hji
    · rcases built_of_moves hmoves hj with rfl | ⟨rfl, hlist⟩
      · have hown : (s'.pc j).owns = some (b, .built) := by rw [hj]; rfl
        obtain ⟨hempty, hlist⟩ := h.built j w name b hj
        exact ⟨(hlists b (hnot hown rfl)).trans hempty, hlist⟩
      · refine ⟨?_, hlist⟩
        rw [hlists, h.fresh _ le_rfl]
        intro hserved
        have hserving := hE.serving_of_served hserved
        rw [hE.fresh _ le_rfl] at hserving
        cases hserving
    · rw [pc_of_ne hmoves hji] at hj
      have hown : (s.pc j).owns = some (b, .built) := by rw [hj]; rfl
      obtain ⟨hempty, hlist⟩ := h.built j w name b hj
      exact ⟨(hlists b (hnot hown rfl)).trans hempty, (hlisting hown).trans hlist⟩

/-- Nothing happens to a list that is served, apart from the passes of `modlist_write`. -/
theorem Agrees.same (h : Agrees s lists) (hE : Entries s st) (hmoves : Moves s i act s' es)
    (hpc : ∀ a w job, s.pc i ≠ .write a w (.lock job)) : Agrees s' lists := by
  apply h.step hE hmoves (fun _ _ => rfl)
  intro b hb
  have hserving := hE.serving_of_served hb
  rw [listing_of_moves hmoves, h.served b hb]
  · apply hE.lt_nextNode
    intro hfresh
    rw [hfresh] at hserving
    cases hserving
  · intro k hi
    have hown : (s.pc i).owns = some (b, .unlinked) := by rw [hi]; rfl
    rw [hE.status hown] at hserving
    cases hserving
  · exact hpc b

end Lists

section Calls

variable {ι : Type} [DecidableEq ι] {s s' : State ι} {i : ι} {act : Act} {es : List Event}
  {st : Addr → Status ι Phase} {lists : Addr → List Int32} {a : Addr}

/-- A write that has been parsed and not taken effect. -/
def Parsed (a : Addr) (w : Write) (c : Command) (x : Object.Status (Addr × Op) Reply) : Prop :=
  ∃ op : Op, x = .called (a, op) ∧ op.fits = true ∧ ∀ list, op.apply list = (c.run list, w.done)

/-- How far a process has come with its call. -/
def Pc.Stands (x : Object.Status (Addr × Op) Reply) : Pc → Prop
  | .read a q .lockLists | .read a q .lock =>
    x = .called (a, .read q) ∧ q.off = 0 ∧ (Op.read q).fits = true
  | .read _ _ (.unlock r) | .read _ _ (.unlockLists r) | .ret (.entry _) r => x = .done r
  | .write a w (.vmalloc num) => Parsed a w (.add num) x
  | .write a w (.lock job) => Parsed a w job.command x
  | .write _ w .unlock => x = .done w.done
  | _ => x = .idle

theorem entries_apply {op : Op} {list : List Int32} {r : Reply} (hfits : op.fits = true)
    (happly : op.apply (lists a) = (list, r)) :
    entries.apply lists (a, op) r = some (Function.update lists a list) := by
  simp only [entries, hfits, happly, and_self, if_true]

theorem entries_apply_same {op : Op} {r : Reply} (hfits : op.fits = true)
    (happly : op.apply (lists a) = (lists a, r)) :
    entries.apply lists (a, op) r = some lists := by
  rw [entries_apply hfits happly, Function.update_eq_self]

/-- The loop of a read that starts at the beginning, as the user sees it. -/
theorem reply_eq (q : Read) (hoff : q.off = 0) (hfits : (Op.read q).fits = true)
    (items : List (Addr × Int32)) :
    q.reply (readLoop q.len q.fault items []) = modlistRead q (items.map Prod.snd) := by
  have hlen : q.len < 2147483648 := of_decide_eq_true hfits
  obtain ⟨⟨hcopied, hout, hret⟩, -, -⟩ :=
    loop_start (by omega) q.fault items (.inr hlen)
  have hzero : ¬0 < q.off := by omega
  rw [Read.reply, modlistRead, if_neg hzero]
  dsimp only
  rw [hcopied, hret, hout, Int.toNat_natCast]

theorem call_of_step [Fintype ι] {c : Call} (h : step s i (.call c) = some (s', es)) :
    s.pc i = .user ∧ s.call i c = some (s', es) := by
  unfold step at h
  split at h
  case h_1 hpc heq =>
    cases heq
    exact ⟨hpc, h⟩
  all_goals first | cases ‹Act.call _ = _› | cases h

/-- A call is an invocation, and more than that if it is answered at once. -/
theorem exec_of_call (lists : Addr → List Int32) {f : ι → Object.Status (Addr × Op) Reply}
    {c : Call}
    (hfits : (Act.call c).fits = true) (hpc : s.pc i = .user) (hi : f i = .idle)
    (h : s.call i c = some (s', es)) :
    ∃ bs x, (entries.machine ι).exec (lists, f) bs =
      some ((lists, Function.update f i x), shown s (i, .call c)) ∧ (s'.pc i).Stands x := by
  have hgoto {t : State ι} (pc : Pc) : (t.goto i pc).pc i = pc := Function.update_self ..
  have hidle : Function.update f i .idle = f := by rw [← hi, Function.update_eq_self]
  have hcalled (op : Addr × Op) : ∃ bs, (entries.machine ι).exec (lists, f) bs =
      some ((lists, Function.update f i (.called op)), [(i, .invoked op)]) :=
    (show entries.Progress lists (f i) lists (.called op) [.invoked op] from hi ▸ .call op).exec
  cases c with
  | control off buf copied stack =>
    refine ⟨[], .idle, ?_, ?_⟩
    · simp only [shown, hpc, hidle]
      rfl
    · simp only [State.call] at h
      obtain ⟨-, h⟩ := Option.ite_none_right_eq_some.mp h
      split at h <;> cases h <;> rw [hgoto] <;> rfl
  | exit =>
    refine ⟨[], .idle, ?_, ?_⟩
    · simp only [shown, hpc, hidle]
      rfl
    · simp only [State.call] at h
      split at h <;> cases h
      change Pc.Stands .idle ((s.goto i (.exit .removeProcEntry)).pc i)
      rw [hgoto]
      rfl
  | read a q =>
    have hfits : (Op.read q).fits = true := hfits
    simp only [State.call] at h
    obtain ⟨-, h⟩ := Option.ite_none_right_eq_some.mp h
    simp only [shown, hpc]
    split at h
    · cases h
      have happly : (Op.read q).apply (lists a) = (lists a, ⟨.done 0, [], q.off⟩) := by
        rw [Op.apply, modlistRead, if_pos ‹_›]
      obtain ⟨bs, hbs⟩ := Object.exec_answered hi (entries_apply_same hfits happly)
      exact ⟨bs, _, hbs, by rw [hgoto]; rfl⟩
    · cases h
      obtain ⟨bs, hbs⟩ := hcalled (a, .read q)
      refine ⟨bs, _, hbs, ?_⟩
      rw [hgoto]
      exact ⟨rfl, by omega, hfits⟩
  | write a off buf copied stack =>
    have hfits : (Op.write off buf copied stack).fits = true := hfits
    simp only [State.call] at h
    obtain ⟨-, h⟩ := Option.ite_none_right_eq_some.mp h
    simp only [shown, hpc]
    obtain ⟨bs, hbs⟩ := hcalled (a, .write off buf copied stack)
    have hparsed {c : Command} (he : (modlistWrite off buf copied stack).1 = .parsed c)
        (list : List Int32) : (Op.write off buf copied stack).apply list =
          (c.run list, Write.done ⟨off, buf.length⟩) := by
      simp only [Op.apply, he]
    split at h <;> cases h
    · rename_i r hr
      have happly : (Op.write off buf copied stack).apply (lists a) = (lists a, r) := by
        simp only [Op.apply, hr]
      obtain ⟨bs, hbs⟩ := Object.exec_answered hi (entries_apply_same hfits happly)
      exact ⟨bs, _, hbs, by rw [hgoto]; rfl⟩
    · exact ⟨bs, _, hbs, by rw [hgoto]; exact ⟨_, rfl, hfits, hparsed ‹_›⟩⟩
    · exact ⟨bs, _, hbs, by rw [hgoto]; exact ⟨_, rfl, hfits, hparsed ‹_›⟩⟩
    · exact ⟨bs, _, hbs, by rw [hgoto]; exact ⟨_, rfl, hfits, hparsed ‹_›⟩⟩
    · obtain ⟨bs, hbs⟩ := Object.exec_answered hi (entries_apply_same hfits (hparsed ‹_› (lists a)))
      exact ⟨bs, _, hbs, by rw [hgoto]; rfl⟩

omit [DecidableEq ι] in
theorem shown_eq_nil (hact : ∀ c, act ≠ .call c) (hret : ∀ a r, s.pc i ≠ .ret (.entry a) r) :
    shown s (i, act) = [] := by
  unfold shown
  split
  · exact absurd ‹act = _› (hact _)
  · exact absurd ‹act = _› (hact _)
  · exact absurd ‹s.pc i = _› (hret _ _)
  · rfl

/-- Outside its invocation and its return, a call takes effect where it takes the `sp` of the
entry. -/
theorem progress_of_moves (hE : Entries s st) (hagrees : Agrees s lists)
    (hact : ∀ c, act ≠ .call c) (hret : ∀ h r, s.pc i ≠ .ret h r) (hmoves : Moves s i act s' es)
    {x : Object.Status (Addr × Op) Reply} (hx : (s.pc i).Stands x) :
    ∃ lists' x', entries.Progress lists x lists' x' [] ∧ Agrees s' lists' ∧
      (s'.pc i).Stands x' := by
  have hself {p : ι → Pc} {pc : Pc} : Function.update p i pc i = pc := Function.update_self ..
  have hm := hmoves
  have hsame := hagrees.same hE hm
  cases hmoves with
  | answer | callCreate | callRemove | callRead | callWrite | callExit => exact absurd rfl (hact _)
  | ret hpc => exact absurd hpc (hret _ _)
  | spinLists | spin => exact ⟨lists, x, .silent x, hagrees, hx⟩
  | @readLock a q hpc hsp =>
    rw [hpc] at hx
    obtain ⟨rfl, hoff, hfits⟩ := hx
    have hlist : lists a = s.listing a := hagrees.served a (.inr ⟨i, by rw [hpc]; rfl⟩)
    have hreply := reply_eq q hoff hfits (s.node a).list
    refine ⟨lists, _, .effect _ (modlistRead q (lists a)) _ (entries_apply_same hfits rfl),
      hsame (by simp [hpc]), ?_⟩
    simp only [State.setNode, State.goto, hself]
    rw [hreply, hlist]
    rfl
  | @writeLock a w job hpc hsp =>
    rw [hpc] at hx
    obtain ⟨op, rfl, hfits, happly⟩ := hx
    have hserved : s.Served a := .inr ⟨i, by rw [hpc]; rfl⟩
    refine ⟨_, _, .effect _ _ _ (entries_apply hfits (happly (lists a))), ?_, ?_⟩
    · apply hagrees.step hE hm
      · intro b hb
        exact Function.update_of_ne (by rintro rfl; exact hb hserved) ..
      · intro b hb
        rw [listing_setNode, map_run]
        change _ = Function.update s.listing a (job.command.run (s.listing a)) b
        rcases eq_or_ne b a with rfl | hba
        · rw [Function.update_self, Function.update_self, hagrees.served b hb]
        · rw [Function.update_of_ne hba, Function.update_of_ne hba, hagrees.served b hb]
    · simp only [State.setNode, State.goto, hself]
      rfl
  | newItem hpc =>
    refine ⟨lists, x, .silent x, hsame (by simp [hpc]), ?_⟩
    simp only [State.goto, hself]
    rwa [hpc] at hx
  | readLockLists hpc | readUnlock hpc | readUnlockLists hpc | writeUnlock hpc =>
    refine ⟨lists, x, .silent x, hsame (by simp [hpc]), ?_⟩
    simp only [State.setNode, State.unlock, State.unlockLists, State.goto, hself]
    rwa [hpc] at hx
  | @vfree k a hpc =>
    refine ⟨lists, x, .silent x, hsame (by simp [hpc]), ?_⟩
    simp only [State.goto, hself]
    rw [hpc] at hx
    cases k <;> exact hx
  | vmalloc hpc | createFailed hpc | register hpc | lockFailed hpc | lockAdd hpc | unlockAdd hpc
  | notFound hpc | found hpc | unlockNotFound hpc | isMarked hpc | claim hpc | unlockMarked hpc
  | unlockListsMarked hpc | unlockClaimed hpc | controlRemove hpc | missing hpc | unregister hpc
  | waited hpc | unlink hpc | unlockUnlinked hpc | cleanup hpc | unlockEmpty hpc
  | removeControl hpc | waitedControl hpc | exited hpc | exitRemove hpc =>
    refine ⟨lists, x, .silent x, hsame (by simp [hpc]), ?_⟩
    simp only [State.setNode, State.unlock, State.unlockLists, State.goto, hself]
    rw [hpc] at hx
    exact hx

end Calls

section Run

variable {ι : Type} [DecidableEq ι] [Fintype ι] {s s' : State ι} {i : ι} {act : Act}
  {es : List Event} {lists : Addr → List Int32} {f : ι → Object.Status (Addr × Op) Reply}

/-- The lists and the calls in progress, as the module has them. -/
structure Linear (s : State ι) (lists : Addr → List Int32)
    (f : ι → Object.Status (Addr × Op) Reply) : Prop where
  owned : ∃ st it, Entries s st ∧ Items s it
  agrees : Agrees s lists
  stands : ∀ i, (s.pc i).Stands (f i)

theorem linear_init : Linear (machine ι).init (fun _ => []) fun _ => .idle := by
  refine ⟨⟨_, _, entries_init, items_init⟩, ?_, fun _ => rfl⟩
  constructor
  · intro a _
    rfl
  · intro a _
    rfl
  · rintro j w name a ⟨⟩

omit [Fintype ι] in
theorem stands_update (hmoves : Moves s i act s' es) (h : ∀ j, (s.pc j).Stands (f j))
    {x : Object.Status (Addr × Op) Reply} (hx : (s'.pc i).Stands x) (j : ι) :
    (s'.pc j).Stands (Function.update f i x j) := by
  rcases eq_or_ne j i with rfl | hji
  · rwa [Function.update_self]
  · rw [Function.update_of_ne hji, pc_of_ne hmoves hji]
    exact h j

/-- A process returns to the user, who sees it if he has called on an entry. -/
theorem progress_of_ret {h : Handler} {r : Reply} (hact : ∀ c, act ≠ .call c)
    (hpc : s.pc i = .ret h r) (hstep : step s i act = some (s', es))
    {x : Object.Status (Addr × Op) Reply} (hx : (s.pc i).Stands x) :
    ∃ x' evs, entries.Progress lists x lists x' evs ∧ shown s (i, act) = evs.map (Prod.mk i) ∧
      (s'.pc i).Stands x' := by
  cases act with
  | call c => exact absurd rfl (hact c)
  | null => simp [step, hpc] at hstep
  | run =>
    simp only [step, hpc, Option.some.injEq, Prod.mk.injEq] at hstep
    obtain ⟨rfl, -⟩ := hstep
    have huser : (s.goto i .user).pc i = .user := Function.update_self ..
    rw [huser]
    rw [hpc] at hx
    cases h with
    | control =>
      refine ⟨x, [], .silent x, ?_, hx⟩
      simp only [shown, hpc]
      rfl
    | entry a =>
      obtain rfl := hx
      refine ⟨_, _, .ret r, ?_, rfl⟩
      simp only [shown, hpc]
      rfl

/-- What a step looks like to the lists. -/
theorem Linear.step (h : Linear s lists f) (hs : (machine ι).Reachable s)
    (hfits : act.fits = true) (hstep : step s i act = some (s', es)) :
    ∃ bs lists' f', (entries.machine ι).exec (lists, f) bs =
      some ((lists', f'), shown s (i, act)) ∧ Linear s' lists' f' := by
  obtain ⟨st, it, hE, hI⟩ := h.owned
  have hmoves := moves_of_step hstep
  have hfollows : Follows (fun _ => .fresh) st it s' es :=
    follows_of_moves hs hE hI (Act.short_of_fits hfits) hmoves
  obtain ⟨st', it', -, hE', hI'⟩ := hfollows
  by_cases hcall : ∃ c, act = .call c
  · obtain ⟨c, rfl⟩ := hcall
    obtain ⟨hpc, hc⟩ := call_of_step hstep
    have hidle : f i = .idle := by
      have hi := h.stands i
      rwa [hpc] at hi
    obtain ⟨bs, x, hbs, hx⟩ := exec_of_call lists hfits hpc hidle hc
    exact ⟨bs, lists, _, hbs, ⟨st', it', hE', hI'⟩, h.agrees.same hE hmoves (by simp [hpc]),
      stands_update hmoves h.stands hx⟩
  have hact : ∀ c, act ≠ .call c := fun c hc => hcall ⟨c, hc⟩
  by_cases hret : ∃ hd r, s.pc i = .ret hd r
  · obtain ⟨hd, r, hpc⟩ := hret
    obtain ⟨x, evs, hprogress, hshown, hx⟩ := progress_of_ret hact hpc hstep (h.stands i)
    obtain ⟨bs, hbs⟩ := hprogress.exec
    rw [hshown]
    exact ⟨bs, lists, _, hbs, ⟨st', it', hE', hI'⟩, h.agrees.same hE hmoves (by simp [hpc]),
      stands_update hmoves h.stands hx⟩
  have hret : ∀ hd r, s.pc i ≠ .ret hd r := fun hd r hr => hret ⟨hd, r, hr⟩
  obtain ⟨lists', x, hprogress, hagrees, hx⟩ :=
    progress_of_moves hE h.agrees hact hret hmoves (h.stands i)
  obtain ⟨bs, hbs⟩ := hprogress.exec
  rw [shown_eq_nil hact fun a => hret _]
  exact ⟨bs, lists', _, hbs, ⟨st', it', hE', hI'⟩, hagrees, stands_update hmoves h.stands hx⟩

/-- Whatever is created and removed meanwhile, the calls on the entries are those on a family of
shared lists, of which the module has the ones that are in `/proc`. -/
theorem entries_linearize {as : List (ι × Act)}
    {tr : List (ι × Object.Event (Addr × Op) Reply)} (hfits : ∀ p ∈ as, p.2.fits = true)
    (h : ((machine ι).showing shown).Run as s tr) :
    ∃ lists, (∃ bs f, (entries.machine ι).Run bs (lists, f) tr) ∧
      ∀ a ∈ s.procs.map Prod.snd, lists a = s.listing a := by
  have hsim : ∃ bs u, (entries.machine ι).Run bs u (tr.map id) ∧
      Linear s (Prod.fst u) (Prod.snd u) := by
    refine Machine.Run.simulated (M := (machine ι).showing shown) (N := entries.machine ι)
      (C := fun _ p => p.2.fits = true) (R := fun s u => Linear s (Prod.fst u) (Prod.snd u))
      linear_init ?_ (Machine.along_of_forall hfits _) h
    rintro s ⟨lists, f⟩ ⟨i, act⟩ s' es hs hlinear hact hshown
    obtain ⟨fs, hmachine, rfl⟩ := Machine.showing_step_eq_some.mp hshown
    obtain ⟨⟨t, es⟩, hstep, heq⟩ := Option.map_eq_some_iff.mp hmachine
    cases heq
    obtain ⟨bs, lists', f', hbs, hlinear'⟩ := hlinear.step hs.of_showing hact hstep
    exact ⟨bs, (lists', f'), by rw [hbs, List.map_id], hlinear'⟩
  obtain ⟨bs, ⟨lists, f⟩, hrun, hlinear⟩ := hsim
  refine ⟨lists, ⟨bs, f, by rwa [List.map_id] at hrun⟩, ?_⟩
  intro a ha
  exact hlinear.agrees.served a (.inl ha)

/-- A read of a new entry overlaps with a write, and sees what it has added. Then the entry is
removed. -/
theorem entries_linearize_overlap :
    ∃ lists bs f, (entries.machine Bool).Run bs (lists, f)
      [(true, .invoked (1, .write 0 (bytes "add 5") true (bytes "add 5"))),
        (false, .invoked (1, .read ⟨0, 20, none⟩)),
        (false, .returned ⟨.done 2, bytes "5\n", 2⟩), (true, .returned ⟨.done 5, [], 5⟩)] := by
  let as : List (Bool × Act) :=
    (false, .call (.control 0 (bytes "create a") true (bytes "create a"))) ::
      List.replicate 5 (false, .run) ++
    [(true, .call (.write 1 0 (bytes "add 5") true (bytes "add 5"))),
      (false, .call (.read 1 ⟨0, 20, none⟩))] ++
    List.replicate 3 (true, .run) ++ List.replicate 5 (false, .run) ++ [(true, .run)] ++
    (false, .call (.control 0 (bytes "remove a") true (bytes "remove a"))) ::
      List.replicate 12 (false, .run)
  have heval : (((machine Bool).showing shown).exec ((machine Bool).showing shown).init as).map
      (fun r => r.2) =
      some [(true, .invoked (1, .write 0 (bytes "add 5") true (bytes "add 5"))),
        (false, .invoked (1, .read ⟨0, 20, none⟩)),
        (false, .returned ⟨.done 2, bytes "5\n", 2⟩), (true, .returned ⟨.done 5, [], 5⟩)] := by
    decide +kernel
  obtain ⟨s, tr, hrun, rfl⟩ := Machine.exists_run_of_eval heval
  obtain ⟨lists, ⟨bs, f, hentries⟩, -⟩ := entries_linearize (by decide +kernel) hrun
  exact ⟨lists, bs, f, hentries⟩

end Run

end LinuxInternals.Multilist
