import LinuxInternals.Multilist.Basic

/-!
# The steps of `multilist`

What a step can do, one constructor for each way on.
-/

namespace LinuxInternals.Multilist

open Text Lifetime

/-- The entry whose `sp` the process tries to take. -/
def Pc.target : Pc → Option Addr
  | .mark _ (.lock a) | .remove _ a .lock | .read a _ .lock | .write a _ (.lock _) => some a
  | _ => none

/-- Where `modlist_write` can go on from the parse. -/
def WritePc.starts : WritePc → Bool
  | .vmalloc _ | .lock (.remove _) | .lock .cleanup => true
  | .lock (.add _ _) | .unlock => false

variable {ι : Type} [DecidableEq ι]

/-- The handler can be called. -/
def State.Open (s : State ι) : Handler → Prop
  | .control => s.control = true
  | .entry a => a ∈ s.procs.map Prod.snd

inductive Moves (s : State ι) (i : ι) : Act → State ι → List Event → Prop where
  | answer {c h r} : s.pc i = .user → s.Open h → Moves s i (.call c) (s.goto i (.ret h r)) []
  | callCreate {off buf copied stack name} : s.pc i = .user → s.control = true →
      controlWrite off buf copied stack = .parsed (.create name) →
      Moves s i (.call (.control off buf copied stack))
        (s.goto i (.create ⟨off, buf.length⟩ (.vmalloc name))) []
  | callRemove {off buf copied stack name} : s.pc i = .user → s.control = true →
      controlWrite off buf copied stack = .parsed (.remove name) →
      Moves s i (.call (.control off buf copied stack))
        (s.goto i (.mark ⟨off, buf.length⟩ (.lockLists name))) []
  | callRead {c a q} : s.pc i = .user → s.Open (.entry a) →
      Moves s i (.call c) (s.goto i (.read a q .lockLists)) []
  | callWrite {c a w p} : s.pc i = .user → s.Open (.entry a) → p.starts = true →
      Moves s i (.call c) (s.goto i (.write a w p)) []
  | callExit : s.pc i = .user → s.exited = false →
      Moves s i (.call .exit) { s.goto i (.exit .removeProcEntry) with exited := true } []
  | spinLists {act} : s.spLists ≠ none → Moves s i act s []
  | spin {act a} : (s.pc i).target = some a → (s.node a).sp ≠ none →
      Moves s i act s [(.node a, .touch)]
  | vmalloc {w name} : s.pc i = .create w (.vmalloc name) →
      Moves s i .run
        { (s.goto i (.create w (.procCreateData name s.nextNode))).setNode s.nextNode
            { list := [], sp := none, name := strncpy name 20, markedForRemoval := false } with
          nextNode := s.nextNode + 1 }
        [(.node s.nextNode, .alloc), (.node s.nextNode, .touch)]
  | createFailed {act w name a} : s.pc i = .create w (.procCreateData name a) →
      Moves s i act (s.goto i (.create w (.lockFailed a))) [(.node a, .touch)]
  | register {w name a} : s.pc i = .create w (.procCreateData name a) →
      s.present name = false →
      Moves s i .run { s.goto i (.create w (.lockAdd a)) with procs := s.procs ++ [(name, a)] }
        [(.node a, .touch)]
  | lockFailed {w a} : s.pc i = .create w (.lockFailed a) → s.spLists = none →
      Moves s i .run { s.goto i (.ret .control w.done) with spLists := some i }
        [(.node a, .free)]
  | lockAdd {w a} : s.pc i = .create w (.lockAdd a) → s.spLists = none →
      Moves s i .run
        { s.goto i (.create w .unlock) with lists := s.lists ++ [a], spLists := some i }
        (touches ((s.lists.getLast?.map Obj.node).toList ++ [.node a]))
  | unlockAdd {w} : s.pc i = .create w .unlock →
      Moves s i .run (s.goto i (.ret .control w.done)).unlockLists []
  | notFound {w name} : s.pc i = .mark w (.lockLists name) → s.spLists = none →
      (∀ a ∈ s.lists, (s.node a).nameString ≠ name) →
      Moves s i .run { s.goto i (.mark w .unlockNotFound) with spLists := some i }
        (touches ((s.lists.takeWhile fun a => (s.node a).nameString ≠ name).map .node))
  | found {w name a} : s.pc i = .mark w (.lockLists name) → s.spLists = none → a ∈ s.lists →
      (s.node a).nameString = name →
      Moves s i .run { s.goto i (.mark w (.lock a)) with spLists := some i }
        (touches (((s.lists.takeWhile fun a => (s.node a).nameString ≠ name) ++ [a]).map .node))
  | unlockNotFound {w} : s.pc i = .mark w .unlockNotFound →
      Moves s i .run (s.goto i (.ret .control ⟨.error .enoent, [], w.off⟩)).unlockLists []
  | isMarked {w a} : s.pc i = .mark w (.lock a) → (s.node a).sp = none →
      (s.node a).markedForRemoval = true →
      Moves s i .run
        ((s.goto i (.mark w (.unlockMarked a))).setNode a { s.node a with sp := some i })
        [(.node a, .touch)]
  | claim {w a} : s.pc i = .mark w (.lock a) → (s.node a).sp = none →
      (s.node a).markedForRemoval = false →
      Moves s i .run
        ((s.goto i (.mark w (.unlock a))).setNode a
          { s.node a with sp := some i, markedForRemoval := true })
        [(.node a, .touch)]
  | unlockMarked {w a} : s.pc i = .mark w (.unlockMarked a) →
      Moves s i .run ((s.goto i (.mark w .unlockListsMarked)).unlock a) [(.node a, .touch)]
  | unlockListsMarked {w} : s.pc i = .mark w .unlockListsMarked →
      Moves s i .run (s.goto i (.ret .control ⟨.done w.len, [], w.off⟩)).unlockLists []
  | unlockClaimed {w a} : s.pc i = .mark w (.unlock a) →
      Moves s i .run ((s.goto i (.mark w (.unlockLists a))).unlock a) [(.node a, .touch)]
  | controlRemove {w a} : s.pc i = .mark w (.unlockLists a) →
      Moves s i .run (s.goto i (.remove (.control w) a .removeProcEntry)).unlockLists
        [(.node a, .remove)]
  | missing {k a} : s.pc i = .remove k a .removeProcEntry →
      (∀ e ∈ s.procs, e.1 ≠ (s.node a).nameString) →
      Moves s i .run (s.goto i (.remove k a .lockLists)) [(.node a, .touch)]
  | unregister {k a e} : s.pc i = .remove k a .removeProcEntry → e ∈ s.procs →
      e.1 = (s.node a).nameString →
      Moves s i .run { s.goto i (.remove k a (.wait e.2)) with procs := s.procs.erase e }
        [(.node a, .touch)]
  | waited {k a b} : s.pc i = .remove k a (.wait b) → (∀ j, (s.pc j).handles ≠ some b) →
      Moves s i .run (s.goto i (.remove k a .lockLists)) []
  | unlink {k a} : s.pc i = .remove k a .lockLists → s.spLists = none →
      Moves s i .run
        { s.goto i (.remove k a .unlockLists) with lists := s.lists.erase a, spLists := some i }
        (touches (((prevOf a s.lists).toList ++ (nextOf a s.lists).toList).map .node) ++
          [(.node a, .unlink)])
  | unlockUnlinked {k a} : s.pc i = .remove k a .unlockLists →
      Moves s i .run (s.goto i (.remove k a .lock)).unlockLists []
  | cleanup {k a} : s.pc i = .remove k a .lock → (s.node a).sp = none →
      Moves s i .run
        ((s.goto i (.remove k a .unlock)).setNode a
          { s.node a with
            list := (deleteLoop (fun _ => true) (.node a) (.node a) (s.node a).list).1
            sp := some i })
        ((.node a, .touch) :: (deleteLoop (fun _ => true) (.node a) (.node a) (s.node a).list).2)
  | unlockEmpty {k a} : s.pc i = .remove k a .unlock →
      Moves s i .run ((s.goto i (.remove k a .vfree)).unlock a) [(.node a, .touch)]
  | vfree {k a} : s.pc i = .remove k a .vfree → Moves s i .run (s.goto i k.pc) [(.node a, .free)]
  | removeControl : s.pc i = .exit .removeProcEntry →
      Moves s i .run { s.goto i (.exit .wait) with control := false } []
  | waitedControl : s.pc i = .exit .wait → (∀ j, (s.pc j).controls = false) →
      Moves s i .run (s.goto i (.exit (.next s.lists.head?))) []
  | exited : s.pc i = .exit (.next none) → Moves s i .run (s.goto i .user) []
  | exitRemove {a} : s.pc i = .exit (.next (some a)) →
      Moves s i .run (s.goto i (.remove (.exit (nextOf a s.lists)) a .removeProcEntry))
        [(.node a, .touch), (.node a, .remove)]
  | readLockLists {a q} : s.pc i = .read a q .lockLists → s.spLists = none →
      Moves s i .run { s.goto i (.read a q .lock) with spLists := some i } []
  | readLock {a q} : s.pc i = .read a q .lock → (s.node a).sp = none →
      Moves s i .run
        ((s.goto i (.read a q
          (.unlock (q.reply (readLoop q.len q.fault (s.node a).list []))))).setNode a
            { s.node a with sp := some i })
        ((.node a, .touch) ::
          touches ((readLoop q.len q.fault (s.node a).list []).2.2.map .item))
  | readUnlock {a q r} : s.pc i = .read a q (.unlock r) →
      Moves s i .run ((s.goto i (.read a q (.unlockLists r))).unlock a) [(.node a, .touch)]
  | readUnlockLists {a q r} : s.pc i = .read a q (.unlockLists r) →
      Moves s i .run (s.goto i (.ret (.entry a) r)).unlockLists []
  | newItem {a w num} : s.pc i = .write a w (.vmalloc num) →
      Moves s i .run
        { s.goto i (.write a w (.lock (.add s.nextItem num))) with nextItem := s.nextItem + 1 }
        [(.item s.nextItem, .alloc), (.item s.nextItem, .touch)]
  | writeLock {a w job} : s.pc i = .write a w (.lock job) → (s.node a).sp = none →
      Moves s i .run
        ((s.goto i (.write a w .unlock)).setNode a
          { s.node a with list := (job.run a (s.node a).list).1, sp := some i })
        ((.node a, .touch) :: (job.run a (s.node a).list).2)
  | writeUnlock {a w} : s.pc i = .write a w .unlock →
      Moves s i .run ((s.goto i (.ret (.entry a) w.done)).unlock a) [(.node a, .touch)]
  | ret {h r} : s.pc i = .ret h r → Moves s i .run (s.goto i .user) []

section Inversion

variable {s s' : State ι} {i : ι} {act : Act} {es : List Event}

omit [DecidableEq ι] in
theorem lockLists_eq_some {u : State ι} {fs : List Event}
    (h : s.lockLists i u fs = some (s', es)) :
    (s.spLists ≠ none ∧ s' = s ∧ es = []) ∨
      (s.spLists = none ∧ s' = { u with spLists := some i } ∧ es = fs) := by
  rw [State.lockLists] at h
  split at h
  · cases h
    exact .inr ⟨‹_›, rfl, rfl⟩
  · cases h
    exact .inl ⟨‹_›, rfl, rfl⟩

omit [DecidableEq ι] in
theorem lock_eq_some {a : Addr} {u : State ι} {n : Node ι} {fs : List Event}
    (h : s.lock i a u n fs = some (s', es)) :
    ((s.node a).sp ≠ none ∧ s' = s ∧ es = [(.node a, .touch)]) ∨
      ((s.node a).sp = none ∧ s' = u.setNode a { n with sp := some i } ∧
        es = (.node a, .touch) :: fs) := by
  rw [State.lock] at h
  split at h
  · cases h
    exact .inr ⟨‹_›, rfl, rfl⟩
  · cases h
    exact .inl ⟨‹_›, rfl, rfl⟩

theorem moves_of_call {c : Call} (hpc : s.pc i = .user) (h : s.call i c = some (s', es)) :
    Moves s i (.call c) s' es := by
  cases c with
  | control off buf copied stack =>
    simp only [State.call] at h
    obtain ⟨hcontrol, h⟩ := Option.ite_none_right_eq_some.mp h
    split at h <;> cases h
    · exact .answer hpc hcontrol
    · exact .callCreate hpc hcontrol ‹_›
    · exact .callRemove hpc hcontrol ‹_›
    · exact .answer hpc hcontrol
  | read a q =>
    simp only [State.call] at h
    obtain ⟨hopen, h⟩ := Option.ite_none_right_eq_some.mp h
    split at h <;> cases h
    · exact .answer hpc hopen
    · exact .callRead hpc hopen
  | write a off buf copied stack =>
    simp only [State.call] at h
    obtain ⟨hopen, h⟩ := Option.ite_none_right_eq_some.mp h
    split at h <;> cases h
    · exact .answer hpc hopen
    · exact .callWrite hpc hopen rfl
    · exact .callWrite hpc hopen rfl
    · exact .callWrite hpc hopen rfl
    · exact .answer hpc hopen
  | exit =>
    simp only [State.call] at h
    split at h
    · cases h
    · cases h
      exact .callExit hpc (Bool.eq_false_iff.mpr ‹_›)

theorem moves_of_create {w : Write} {c : CreatePc} (hpc : s.pc i = .create w c)
    (h : s.create i w c = some (s', es)) : Moves s i .run s' es := by
  cases c with
  | vmalloc name =>
    cases h
    exact .vmalloc hpc
  | procCreateData name a =>
    rw [State.create] at h
    split at h <;> cases h
    · exact .createFailed hpc
    · exact .register hpc (Bool.eq_false_iff.mpr ‹_›)
  | lockFailed a =>
    obtain ⟨hsp, rfl, rfl⟩ | ⟨hsp, rfl, rfl⟩ := lockLists_eq_some h
    · exact .spinLists hsp
    · exact .lockFailed hpc hsp
  | lockAdd a =>
    obtain ⟨hsp, rfl, rfl⟩ | ⟨hsp, rfl, rfl⟩ := lockLists_eq_some h
    · exact .spinLists hsp
    · exact .lockAdd hpc hsp
  | unlock =>
    cases h
    exact .unlockAdd hpc

theorem moves_of_mark {w : Write} {c : MarkPc} (hpc : s.pc i = .mark w c)
    (h : s.mark i w c = some (s', es)) : Moves s i .run s' es := by
  cases c with
  | lockLists name =>
    simp only [State.mark] at h
    split at h
    · obtain ⟨hsp, rfl, rfl⟩ | ⟨hsp, rfl, rfl⟩ := lockLists_eq_some h
      · exact .spinLists hsp
      · have hfind := List.find?_eq_none.mp ‹List.find? _ _ = none›
        exact .notFound hpc hsp fun a ha hname => hfind a ha (decide_eq_true hname)
    · obtain ⟨hsp, rfl, rfl⟩ | ⟨hsp, rfl, rfl⟩ := lockLists_eq_some h
      · exact .spinLists hsp
      · have hfind := ‹List.find? _ _ = some _›
        exact .found hpc hsp (List.mem_of_find?_eq_some hfind)
          (by simpa using List.find?_some hfind)
  | lock a =>
    rw [State.mark] at h
    split at h
    · obtain ⟨hsp, rfl, rfl⟩ | ⟨hsp, rfl, rfl⟩ := lock_eq_some h
      · exact .spin (by rw [hpc]; rfl) hsp
      · exact .isMarked hpc hsp ‹_›
    · obtain ⟨hsp, rfl, rfl⟩ | ⟨hsp, rfl, rfl⟩ := lock_eq_some h
      · exact .spin (by rw [hpc]; rfl) hsp
      · exact .claim hpc hsp (Bool.eq_false_iff.mpr ‹_›)
  | unlockNotFound =>
    cases h
    exact .unlockNotFound hpc
  | unlockMarked a =>
    cases h
    exact .unlockMarked hpc
  | unlockListsMarked =>
    cases h
    exact .unlockListsMarked hpc
  | unlock a =>
    cases h
    exact .unlockClaimed hpc
  | unlockLists a =>
    cases h
    exact .controlRemove hpc

theorem moves_of_remove [Fintype ι] {k : Caller} {a : Addr} {c : RemovePc}
    (hpc : s.pc i = .remove k a c) (h : s.remove i k a c = some (s', es)) :
    Moves s i .run s' es := by
  cases c with
  | removeProcEntry =>
    simp only [State.remove] at h
    split at h
    · cases h
      have hfind := ‹List.find? _ _ = none›
      exact .missing hpc (by simpa using hfind)
    · cases h
      have hfind := ‹List.find? _ _ = some _›
      exact .unregister hpc (List.mem_of_find?_eq_some hfind)
        (by simpa using List.find?_some hfind)
  | wait b =>
    obtain ⟨hwait, h⟩ := Option.ite_none_right_eq_some.mp h
    cases h
    exact .waited hpc hwait
  | lockLists =>
    obtain ⟨hsp, rfl, rfl⟩ | ⟨hsp, rfl, rfl⟩ := lockLists_eq_some h
    · exact .spinLists hsp
    · exact .unlink hpc hsp
  | unlockLists =>
    cases h
    exact .unlockUnlinked hpc
  | lock =>
    obtain ⟨hsp, rfl, rfl⟩ | ⟨hsp, rfl, rfl⟩ := lock_eq_some h
    · exact .spin (by rw [hpc]; rfl) hsp
    · exact .cleanup hpc hsp
  | unlock =>
    cases h
    exact .unlockEmpty hpc
  | vfree =>
    cases h
    exact .vfree hpc

theorem moves_of_exit [Fintype ι] {c : ExitPc} (hpc : s.pc i = .exit c)
    (h : s.exit i c = some (s', es)) : Moves s i .run s' es := by
  cases c with
  | removeProcEntry =>
    cases h
    exact .removeControl hpc
  | wait =>
    obtain ⟨hwait, h⟩ := Option.ite_none_right_eq_some.mp h
    cases h
    exact .waitedControl hpc hwait
  | next pos =>
    cases pos <;> cases h
    · exact .exited hpc
    · exact .exitRemove hpc

theorem moves_of_read {a : Addr} {q : Read} {c : ReadPc} (hpc : s.pc i = .read a q c)
    (h : s.read i a q c = some (s', es)) : Moves s i .run s' es := by
  cases c with
  | lockLists =>
    obtain ⟨hsp, rfl, rfl⟩ | ⟨hsp, rfl, rfl⟩ := lockLists_eq_some h
    · exact .spinLists hsp
    · exact .readLockLists hpc hsp
  | lock =>
    obtain ⟨hsp, rfl, rfl⟩ | ⟨hsp, rfl, rfl⟩ := lock_eq_some h
    · exact .spin (by rw [hpc]; rfl) hsp
    · exact .readLock hpc hsp
  | unlock r =>
    cases h
    exact .readUnlock hpc
  | unlockLists r =>
    cases h
    exact .readUnlockLists hpc

theorem moves_of_write {a : Addr} {w : Write} {c : WritePc} (hpc : s.pc i = .write a w c)
    (h : s.write i a w c = some (s', es)) : Moves s i .run s' es := by
  cases c with
  | vmalloc num =>
    cases h
    exact .newItem hpc
  | lock job =>
    obtain ⟨hsp, rfl, rfl⟩ | ⟨hsp, rfl, rfl⟩ := lock_eq_some h
    · exact .spin (by rw [hpc]; rfl) hsp
    · exact .writeLock hpc hsp
  | unlock =>
    cases h
    exact .writeUnlock hpc

theorem moves_of_step [Fintype ι] (h : step s i act = some (s', es)) :
    Moves s i act s' es := by
  unfold step at h
  split at h
  case h_1 hpc => exact moves_of_call hpc h
  case h_2 hpc => exact moves_of_create hpc h
  case h_3 hpc =>
    cases h
    exact .createFailed hpc
  case h_4 hpc => exact moves_of_mark hpc h
  case h_5 hpc => exact moves_of_remove hpc h
  case h_6 hpc => exact moves_of_exit hpc h
  case h_7 hpc => exact moves_of_read hpc h
  case h_8 hpc => exact moves_of_write hpc h
  case h_9 hpc =>
    cases h
    exact .ret hpc
  case h_10 => cases h

theorem pc_of_moves (h : Moves s i act s' es) : s'.pc = Function.update s.pc i (s'.pc i) := by
  cases h <;> simp [State.goto, State.setNode, State.unlock, State.unlockLists]

theorem pc_of_ne (h : Moves s i act s' es) {j : ι} (hji : j ≠ i) : s'.pc j = s.pc j := by
  rw [pc_of_moves h, Function.update_of_ne hji]

/-- What is read off the places changes for that process. -/
theorem map_pc_of_moves {β : Type*} (f : Pc → β) (h : Moves s i act s' es) :
    (fun j => f (s'.pc j)) = Function.update (fun j => f (s.pc j)) i (f (s'.pc i)) :=
  Function.eq_update_iff.mpr ⟨rfl, fun _ hji => congrArg f (pc_of_ne h hji)⟩

/-- A handler runs on an entry that was registered when it was called. -/
theorem handles_of_moves {a : Addr} (hmoves : Moves s i act s' es)
    (ha : (s'.pc i).handles = some a) : (s.pc i).handles = some a ∨ s.Open (.entry a) := by
  cases hmoves with
  | @answer c h r hpc hopen =>
    cases h with
    | control => simp [State.goto, Pc.handles] at ha
    | entry b =>
      simp only [State.goto, Function.update_self, Pc.handles, Option.some.injEq] at ha
      exact .inr (ha ▸ hopen)
  | callRead hpc hopen | callWrite hpc hopen =>
    simp only [State.goto, Function.update_self, Pc.handles, Option.some.injEq] at ha
    exact .inr (ha ▸ hopen)
  | @vfree k b hpc =>
    cases k <;> simp [State.goto, Caller.pc, Pc.handles] at ha
  | _ =>
    simp_all [State.goto, State.setNode, State.unlock, State.unlockLists, Pc.handles]

theorem moves_of_machine [Fintype ι] {p : ι × Act} {tr : List (ι × Event)}
    (h : (machine ι).step s p = some (s', tr)) :
    ∃ es, tr = es.map (Prod.mk p.1) ∧ Moves s p.1 p.2 s' es := by
  obtain ⟨⟨s'', es⟩, hstep, heq⟩ := Option.map_eq_some_iff.mp h
  cases heq
  exact ⟨es, rfl, moves_of_step hstep⟩

theorem reachable_of_moves [Fintype ι] {I : State ι → Prop} (hinit : I (machine ι).init)
    (hstep : ∀ s i act s' es, (machine ι).Reachable s → I s → Moves s i act s' es → I s')
    (h : (machine ι).Reachable s) : I s := by
  have hboth : (machine ι).Reachable s ∧ I s := by
    obtain ⟨as, tr, hrun⟩ := h
    refine hrun.invariant (C := fun _ _ => True) (I := fun s _ => (machine ι).Reachable s ∧ I s)
      ⟨Machine.run_nil.reachable, hinit⟩ ?_ (Machine.along_true _ _)
    rintro s t p s' es ⟨hs, hI⟩ - hact
    obtain ⟨es', -, hmoves⟩ := moves_of_machine hact
    exact ⟨hs.step hact, hstep s p.1 p.2 s' es' hs hI hmoves⟩
  exact hboth.2

end Inversion

end LinuxInternals.Multilist
