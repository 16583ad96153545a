import LinuxInternals.Modlist.Basic

/-!
# `modlist` is a shared list

Every read and every write takes effect at one instant: where it runs with `sp` held, or, if it
never takes `sp`, where it finds out. What the buffers on the stack held before plays no part.
-/

namespace LinuxInternals.Modlist

open Text Object

section Functions

theorem modlistRemove_eq (num : Int32) (l : List Int32) :
    modlistRemove num l = l.filter (· ≠ num) := by
  induction l with
  | nil => rfl
  | cons x l ih =>
    rw [modlistRemove, ih]
    split
    · rw [List.filter_cons_of_neg (by simpa using ‹x = num›)]
    · rw [List.filter_cons_of_pos (by simpa using ‹¬x = num›)]

theorem modlistCleanup_eq (l : List Int32) : modlistCleanup l = [] := by
  induction l with
  | nil => rfl
  | cons x l ih => exact ih

theorem length_line_pos (x : Int32) : 0 < (line x).length := by
  rw [line, List.length_append]
  exact Nat.lt_add_left _ Nat.one_pos

/-- The loop prints everything when everything fits. -/
theorem readLoop_eq {l : List Int32} {buf : List UInt8}
    (h : (buf ++ rendering l).length ≤ 239) : readLoop l buf = buf ++ rendering l := by
  induction l generalizing buf with
  | nil => exact (List.append_nil buf).symm
  | cons x l ih =>
    have hpos := length_line_pos x
    have hsplit : buf ++ rendering (x :: l) = (buf ++ line x) ++ rendering l := by
      rw [rendering, List.flatMap_cons, ← List.append_assoc]
      rfl
    rw [hsplit] at h ⊢
    rw [readLoop, if_neg, ih h]
    simp only [List.length_append] at h
    omega

end Functions

section Effects

variable {op : Op} {stack : List UInt8} {r : Reply} {job : Job}

/-- The text in the buffer is the text that was written. -/
theorem modlistWrite_eq {off : Nat} {buf : List UInt8} (hoff : ¬0 < off)
    (hlen : ¬239 < buf.length) (stack : List UInt8) :
    modlistWrite off buf true stack =
      match Command.ofText buf with
      | .add num => .lock (.add num)
      | .remove num => .lock (.remove num)
      | .cleanup => .lock .cleanup
      | .nothing => .done ⟨.done buf.length, [], off + buf.length⟩ := by
  rw [modlistWrite, if_neg hoff, if_neg hlen]
  simp only [cstring_append_zero, Bool.not_true, Bool.false_eq_true, if_false, Command.ofText]
  cases scanInt (cstring buf) "add %i" with
  | some num => rfl
  | none =>
    cases scanInt (cstring buf) "remove %i" with
    | some num => rfl
    | none =>
      simp only
      split <;> rfl

/-- A call that returns early has its effect there. -/
theorem apply_of_done (h : enter op stack = .done r) (l : List Int32) :
    sharedList.apply l op r = some l := by
  cases op with
  | read off len copied =>
    simp only [enter, modlistRead] at h
    simp only [sharedList]
    split at h
    · cases h
      rw [if_pos ‹_›, if_pos rfl]
    · rw [if_neg ‹_›]
      split at h
      · cases h
        rw [if_pos ‹_›, if_pos rfl]
      · cases h
  | write off buf copied =>
    simp only [enter] at h
    simp only [sharedList]
    by_cases hoff : 0 < off
    · rw [modlistWrite, if_pos hoff] at h
      cases h
      rw [if_pos hoff, if_pos rfl]
    by_cases hlen : 239 < buf.length
    · rw [modlistWrite, if_neg hoff, if_pos hlen] at h
      cases h
      rw [if_neg hoff, if_pos hlen, if_pos rfl]
    cases copied with
    | false =>
      simp only [modlistWrite, if_neg hoff, if_neg hlen] at h
      cases h
      simp [hoff, hlen]
    | true =>
      rw [modlistWrite_eq hoff hlen] at h
      cases hcommand : Command.ofText buf <;> rw [hcommand] at h <;> cases h
      simp [hoff, hlen, Command.run]

/-- A call that comes to take `sp` has its effect while it holds it. -/
theorem apply_of_critical (h : enter op stack = .lock job) (l : List Int32) :
    sharedList.apply l op (finish (critical l job).2 op) = some (critical l job).1 := by
  cases op with
  | read off len copied =>
    simp only [enter, modlistRead] at h
    split at h
    · cases h
    split at h
    · cases h
    cases h
    simp only [sharedList, if_neg ‹¬0 < off›, if_neg ‹¬len < 1›]
    cases copied with
    | false => simp [critical, finish]
    | true =>
      by_cases hlong : 239 < (rendering l).length
      · simp [hlong, critical]
      · have hloop : readLoop l [] = rendering l := readLoop_eq (by simpa using hlong)
        simp [hlong, critical, finish, hloop]
  | write off buf copied =>
    simp only [enter] at h
    by_cases hoff : 0 < off
    · rw [modlistWrite, if_pos hoff] at h
      cases h
    by_cases hlen : 239 < buf.length
    · rw [modlistWrite, if_neg hoff, if_pos hlen] at h
      cases h
    cases copied with
    | false =>
      simp only [modlistWrite, if_neg hoff, if_neg hlen] at h
      cases h
    | true =>
      rw [modlistWrite_eq hoff hlen] at h
      cases hcommand : Command.ofText buf <;> rw [hcommand] at h <;> cases h
      · simp [sharedList, hoff, hlen, hcommand, Command.run, finish, critical, modlistAdd]
      · simp [sharedList, hoff, hlen, hcommand, Command.run, finish, critical, modlistRemove_eq]
      · simp [sharedList, hoff, hlen, hcommand, Command.run, finish, critical,
          modlistCleanup_eq]

end Effects

section Linearization

variable {ι : Type} [DecidableEq ι] {s s' : State ι} {i : ι} {a : Act}

def Pc.status : Pc → Status Op Reply
  | .user => .idle
  | .called op _ | .lock op _ => .called op
  | .unlock op modlistbuffer => .done (finish modlistbuffer op)
  | .ret r => .done r

def State.status (s : State ι) (i : ι) : Status Op Reply := (s.pc i).status

/-- A process waits for `sp` with the pass that its call asks for. -/
def Pc.Sound (pc : Pc) : Prop := ∀ op job, pc = .lock op job → ∃ stack, enter op stack = .lock job

inductive Moves (s : State ι) (i : ι) : Act → State ι → List (Event Op Reply) → Prop where
  | call {op stack} : s.pc i = .user →
      Moves s i (.call op stack) (s.goto i (.called op stack)) [.invoked op]
  | early {op stack r} : s.pc i = .called op stack → enter op stack = .done r →
      Moves s i .run (s.goto i (.ret r)) []
  | arrive {op stack job} : s.pc i = .called op stack → enter op stack = .lock job →
      Moves s i .run (s.goto i (.lock op job)) []
  | lock {op job} : s.pc i = .lock op job → s.sp = none →
      Moves s i .run
        { s.goto i (.unlock op (critical s.mylist job).2) with
          mylist := (critical s.mylist job).1, sp := some i } []
  | unlock {op buf} : s.pc i = .unlock op buf →
      Moves s i .run { s.goto i (.ret (finish buf op)) with sp := none } []
  | ret {r} : s.pc i = .ret r → Moves s i .run (s.goto i .user) [.returned r]

theorem moves_of_step {es : List (Event Op Reply)} (h : step s i a = some (s', es)) :
    Moves s i a s' es := by
  unfold step at h
  split at h
  case h_1 hpc =>
    cases h
    exact .call hpc
  case h_2 hpc =>
    split at h
    · cases h
      exact .early hpc ‹_›
    · cases h
      exact .arrive hpc ‹_›
  case h_3 hpc =>
    obtain ⟨hsp, h⟩ := Option.ite_none_right_eq_some.mp h
    cases h
    exact .lock hpc hsp
  case h_4 hpc =>
    cases h
    exact .unlock hpc
  case h_5 hpc =>
    cases h
    exact .ret hpc
  case h_6 => cases h

theorem pc_of_moves {es : List (Event Op Reply)} (h : Moves s i a s' es) :
    s'.pc = Function.update s.pc i (s'.pc i) := by
  cases h <;> simp [State.goto]

theorem sound (h : (machine ι).Reachable s) : ∀ i, (s.pc i).Sound := by
  refine h.invariant (I := fun s : State ι => ∀ i, (s.pc i).Sound) ?_ ?_
  · rintro i op job ⟨⟩
  · rintro s ⟨i, a⟩ s' es hI hstep j
    obtain ⟨⟨s'', es'⟩, hact, heq⟩ := Option.map_eq_some_iff.mp hstep
    cases heq
    have hmoves := moves_of_step hact
    rcases eq_or_ne j i with rfl | hji
    · cases hmoves with
      | arrive _ henter =>
        rintro op job hpc
        simp only [State.goto, Function.update_self] at hpc
        cases hpc
        exact ⟨_, henter⟩
      | call | early | lock | unlock | ret =>
        rintro op job hpc
        simp only [State.goto, Function.update_self] at hpc
        cases hpc
    · rw [pc_of_moves hmoves, Function.update_of_ne hji]
      exact hI j

/-- Who holds `sp` has made its pass over the list, and nobody else has touched the list since. -/
def State.Carries (s : State ι) : Prop :=
  ∀ i op buf, s.pc i = .unlock op buf → s.sp = some i ∧ ∃ l job, critical l job = (s.mylist, buf)

theorem carries (h : (machine ι).Reachable s) : s.Carries := by
  refine h.invariant ?_ ?_
  · rintro i op buf ⟨⟩
  · rintro s ⟨i, a⟩ s' es hI hstep j op buf hj
    obtain ⟨⟨s'', es'⟩, hact, heq⟩ := Option.map_eq_some_iff.mp hstep
    cases heq
    have hmoves := moves_of_step hact
    rcases eq_or_ne j i with rfl | hji
    · cases hmoves with
      | @lock op' job _ _ =>
        simp only [State.goto, Function.update_self, Pc.unlock.injEq] at hj
        obtain ⟨-, rfl⟩ := hj
        exact ⟨rfl, s.mylist, job, rfl⟩
      | call | early | arrive | unlock | ret =>
        simp only [State.goto, Function.update_self] at hj
        cases hj
    · rw [pc_of_moves hmoves, Function.update_of_ne hji] at hj
      obtain ⟨hsp, hpass⟩ := hI j op buf hj
      cases hmoves with
      | lock _ hfree => exact absurd (hsp.symm.trans hfree) (Option.some_ne_none j)
      | unlock hpc =>
        have hi := (hI i _ _ hpc).1
        exact absurd (Option.some.inj (hsp.symm.trans hi)) hji
      | call | early | arrive | ret => exact ⟨hsp, hpass⟩

omit [DecidableEq ι] in
/-- The text of a pass, with its terminator, has room in `modlistbuffer` if the list has. -/
theorem State.Carries.length_lt (h : s.Carries) {op : Op} {buf : List UInt8}
    (hpc : s.pc i = .unlock op buf) (hlist : (rendering s.mylist).length ≤ 239) :
    buf.length < 240 := by
  obtain ⟨-, l, job, hpass⟩ := h i op buf hpc
  cases job with
  | read =>
    obtain ⟨rfl, rfl⟩ := Prod.mk.inj hpass
    rw [readLoop_eq (by simpa using hlist)]
    exact Nat.lt_succ_of_le hlist
  | add | remove | cleanup =>
    obtain ⟨-, rfl⟩ := Prod.mk.inj hpass
    exact Nat.zero_lt_succ _

/-- What a step looks like to the list. -/
theorem progress_of_moves {es : List (Event Op Reply)} (hsound : (s.pc i).Sound)
    (h : Moves s i a s' es) :
    sharedList.Progress s.mylist (s.status i) s'.mylist (s'.status i) es := by
  cases h with
  | call hpc =>
    simp only [State.status, State.goto, Function.update_self, hpc]
    exact .call _
  | early hpc henter =>
    simp only [State.status, State.goto, Function.update_self, hpc]
    exact .effect _ _ _ (apply_of_done henter _)
  | arrive hpc _ =>
    simp only [State.status, State.goto, Function.update_self, hpc]
    exact .silent _
  | lock hpc _ =>
    obtain ⟨stack, henter⟩ := hsound _ _ hpc
    simp only [State.status, State.goto, Function.update_self, hpc]
    exact .effect _ _ _ (apply_of_critical henter _)
  | unlock hpc =>
    simp only [State.status, State.goto, Function.update_self, hpc]
    exact .silent _
  | ret hpc =>
    simp only [State.status, State.goto, Function.update_self, hpc]
    exact .ret _

/-- Each call takes effect at one instant between its invocation and its return. -/
theorem linearizes : sharedList.Linearizes (machine ι) State.mylist := by
  apply linearizes_of_progress State.status rfl rfl
  rintro s ⟨i, a⟩ s' es hs hstep
  obtain ⟨⟨s'', es'⟩, hact, heq⟩ := Option.map_eq_some_iff.mp hstep
  cases heq
  have hmoves := moves_of_step hact
  refine ⟨i, es', rfl, ?_, progress_of_moves (sound hs i) hmoves⟩
  funext j
  rcases eq_or_ne j i with rfl | hji
  · rw [Function.update_self]
  · rw [Function.update_of_ne hji, State.status, State.status, pc_of_moves hmoves,
      Function.update_of_ne hji]

end Linearization

end LinuxInternals.Modlist
