import LinuxInternals.Multilist.Locks
import Mathlib.Algebra.BigOperators.Group.Finset.Basic
import Mathlib.Algebra.Order.BigOperators.Group.Finset

/-!
# Coming back from a call

As long as whoever holds a lock knows of it, a process that waits for the lock gets it when the
others go on, and `remove_proc_entry` gets through when the handlers of the entry have returned.
So every call but `rmmod` comes back.
-/

namespace LinuxInternals.Multilist

open Text SpinLock Relation

/-- How a process goes on, where `proc_create_data` returns `NULL` if it is `refused`. -/
def Pc.act (refused : Bool) : Pc → Act
  | .create _ (.procCreateData _ _) => if refused then .null else .run
  | _ => .run

section Rank

def CreatePc.rank : CreatePc → Nat
  | .vmalloc _ => 5
  | .procCreateData _ _ => 4
  | .lockAdd _ => 3
  | .lockFailed _ | .unlock => 2

def MarkPc.rank : MarkPc → Nat
  | .lockLists _ => 12
  | .lock _ => 11
  | .unlock _ => 10
  | .unlockLists _ => 9
  | .unlockMarked _ => 3
  | .unlockListsMarked | .unlockNotFound => 2

def RemovePc.rank : RemovePc → Nat
  | .removeProcEntry => 8
  | .wait _ => 7
  | .lockLists => 6
  | .unlockLists => 5
  | .lock => 4
  | .unlock => 3
  | .vfree => 2

def ReadPc.rank : ReadPc → Nat
  | .lockLists => 5
  | .lock => 4
  | .unlock _ => 3
  | .unlockLists _ => 2

def WritePc.rank : WritePc → Nat
  | .vmalloc _ => 4
  | .lock _ => 3
  | .unlock => 2

/-- How far it is to the return at most, and 13 inside `exit_modlist_module`. -/
def Pc.rank : Pc → Nat
  | .user => 0
  | .ret _ _ => 1
  | .create _ c => c.rank
  | .mark _ c => c.rank
  | .remove (.control _) _ c => c.rank
  | .read _ _ c => c.rank
  | .write _ _ c => c.rank
  | .remove (.exit _) _ _ | .exit _ => 13

/-- The next operation is the `spin_lock` of `sp_lists`. -/
def Pc.locksLists : Pc → Bool
  | .create _ (.lockFailed _) | .create _ (.lockAdd _) | .mark _ (.lockLists _)
  | .remove _ _ .lockLists | .read _ _ .lockLists => true
  | _ => false

/-- Inside `remove_proc_entry`. -/
def Pc.waits : Pc → Bool
  | .remove _ _ (.wait _) => true
  | _ => false

theorem outside_of_rank {pc : Pc} (h : pc.rank ≤ 1) : pc.outside = true := by
  cases pc with
  | user | ret => rfl
  | exit => simp [Pc.rank] at h
  | create _ c => cases c <;> simp [Pc.rank, CreatePc.rank] at h
  | mark _ c => cases c <;> simp [Pc.rank, MarkPc.rank] at h
  | remove k _ c => cases k <;> cases c <;> simp [Pc.rank, RemovePc.rank] at h
  | read _ _ c => cases c <;> simp [Pc.rank, ReadPc.rank] at h
  | write _ _ c => cases c <;> simp [Pc.rank, WritePc.rank] at h

/-- Who is about to take a lock holds none that comes after it. -/
theorem holds_of_locksLists {pc : Pc} (h : pc.locksLists = true) (l : Lock) :
    pc.holds l = false := by
  unfold Pc.locksLists at h
  split at h
  case h_6 => cases h
  all_goals cases l <;> rfl

theorem holdsNode_of_target {pc : Pc} {a : Addr} (h : pc.target = some a) :
    pc.holdsNode = none := by
  unfold Pc.target at h
  split at h
  case h_5 => cases h
  all_goals rfl

theorem target_of_locksLists {pc : Pc} (h : pc.locksLists = true) : pc.target = none := by
  unfold Pc.locksLists at h
  split at h
  case h_6 => cases h
  all_goals rfl

theorem holds_of_waits {pc : Pc} (h : pc.waits = true) (l : Lock) : pc.holds l = false := by
  unfold Pc.waits at h
  split at h
  case h_2 => cases h
  all_goals cases l <;> rfl

end Rank

variable {ι : Type} [DecidableEq ι] {s s' u : State ι} {i : ι} {act : Act} {es : List Event}

section Advance

variable [Fintype ι]

/-- The step that the process takes next exists, and brings it nearer to its return. -/
def Advances (refused : Bool) (s : State ι) (i : ι) : Prop :=
  ∃ s' es, step s i ((s.pc i).act refused) = some (s', es) ∧ (s'.pc i).rank < (s.pc i).rank

attribute [local simp] State.goto State.setNode State.unlock State.unlockLists State.lockLists
  State.lock

theorem create_advances {w : Write} {c : CreatePc} (hpc : s.pc i = .create w c)
    (hlists : (s.pc i).locksLists = true → s.spLists = none) (refused : Bool) :
    Advances refused s i := by
  rw [hpc] at hlists
  cases c with
  | vmalloc name => simp [Advances, step, hpc, Pc.act, State.create, Pc.rank, CreatePc.rank]
  | procCreateData name a =>
    cases refused with
    | true => simp [Advances, step, hpc, Pc.act, Pc.rank, CreatePc.rank]
    | false =>
      simp only [Advances, step, hpc, Pc.act, State.create, Bool.false_eq_true, if_false]
      split <;> simp [Pc.rank, CreatePc.rank]
  | lockFailed a | lockAdd a =>
    simp [Advances, step, hpc, Pc.act, State.create, hlists rfl, Pc.rank, CreatePc.rank]
  | unlock => simp [Advances, step, hpc, Pc.act, State.create, Pc.rank, CreatePc.rank]

theorem mark_advances {w : Write} {c : MarkPc} (hpc : s.pc i = .mark w c)
    (hlists : (s.pc i).locksLists = true → s.spLists = none)
    (hnode : ∀ a, (s.pc i).target = some a → (s.node a).sp = none) (refused : Bool) :
    Advances refused s i := by
  rw [hpc] at hlists hnode
  cases c with
  | lockLists name =>
    simp only [Advances, step, hpc, Pc.act, State.mark]
    split <;> simp [hlists rfl, Pc.rank, MarkPc.rank]
  | lock a =>
    simp only [Advances, step, hpc, Pc.act, State.mark]
    split <;> simp [hnode a rfl, Pc.rank, MarkPc.rank]
  | unlockNotFound | unlockMarked | unlockListsMarked | unlock | unlockLists =>
    simp [Advances, step, hpc, Pc.act, State.mark, Pc.rank, MarkPc.rank, RemovePc.rank]

theorem remove_advances {w : Write} {a : Addr} {c : RemovePc}
    (hpc : s.pc i = .remove (.control w) a c)
    (hlists : (s.pc i).locksLists = true → s.spLists = none)
    (hnode : ∀ a, (s.pc i).target = some a → (s.node a).sp = none)
    (hwait : ∀ b, c = .wait b → ∀ j, (s.pc j).handles ≠ some b) (refused : Bool) :
    Advances refused s i := by
  rw [hpc] at hlists hnode
  cases c with
  | removeProcEntry =>
    simp only [Advances, step, hpc, Pc.act, State.remove]
    split <;> simp [Pc.rank, RemovePc.rank]
  | wait b =>
    simp [Advances, step, hpc, Pc.act, State.remove, hwait b rfl, Pc.rank, RemovePc.rank]
  | lockLists =>
    simp [Advances, step, hpc, Pc.act, State.remove, hlists rfl, Pc.rank, RemovePc.rank]
  | lock => simp [Advances, step, hpc, Pc.act, State.remove, hnode a rfl, Pc.rank, RemovePc.rank]
  | unlockLists | unlock | vfree =>
    simp [Advances, step, hpc, Pc.act, State.remove, Caller.pc, Pc.rank, RemovePc.rank]

theorem read_advances {a : Addr} {q : Read} {c : ReadPc} (hpc : s.pc i = .read a q c)
    (hlists : (s.pc i).locksLists = true → s.spLists = none)
    (hnode : ∀ a, (s.pc i).target = some a → (s.node a).sp = none) (refused : Bool) :
    Advances refused s i := by
  rw [hpc] at hlists hnode
  cases c with
  | lockLists =>
    simp [Advances, step, hpc, Pc.act, State.read, hlists rfl, Pc.rank, ReadPc.rank]
  | lock => simp [Advances, step, hpc, Pc.act, State.read, hnode a rfl, Pc.rank, ReadPc.rank]
  | unlock | unlockLists => simp [Advances, step, hpc, Pc.act, State.read, Pc.rank, ReadPc.rank]

theorem write_advances {a : Addr} {w : Write} {c : WritePc} (hpc : s.pc i = .write a w c)
    (hnode : ∀ a, (s.pc i).target = some a → (s.node a).sp = none) (refused : Bool) :
    Advances refused s i := by
  rw [hpc] at hnode
  cases c with
  | lock job =>
    simp [Advances, step, hpc, Pc.act, State.write, hnode a rfl, Pc.rank, WritePc.rank]
  | vmalloc | unlock => simp [Advances, step, hpc, Pc.act, State.write, Pc.rank, WritePc.rank]

theorem advances (hpos : 0 < (s.pc i).rank) (hrank : (s.pc i).rank < 13)
    (hlists : (s.pc i).locksLists = true → s.spLists = none)
    (hnode : ∀ a, (s.pc i).target = some a → (s.node a).sp = none)
    (hwait : ∀ k a b, s.pc i = .remove k a (.wait b) → ∀ j, (s.pc j).handles ≠ some b)
    (refused : Bool) : Advances refused s i := by
  cases hpc : s.pc i with
  | user =>
    rw [hpc] at hpos
    exact absurd hpos (by decide)
  | ret h r => simp [Advances, step, hpc, Pc.act, Pc.rank]
  | create w c => exact create_advances hpc hlists refused
  | mark w c => exact mark_advances hpc hlists hnode refused
  | remove k a c =>
    cases k with
    | control w =>
      exact remove_advances hpc hlists hnode (fun b hb => hwait _ _ b (hb ▸ hpc)) refused
    | exit tmp =>
      rw [hpc] at hrank
      exact absurd hrank (lt_irrefl 13)
  | exit c =>
    rw [hpc] at hrank
    exact absurd hrank (lt_irrefl 13)
  | read a q c => exact read_advances hpc hlists hnode refused
  | write a w c => exact write_advances hpc hnode refused

end Advance

section Ordered

/-- Every lock is free or held by a process that will drop it. -/
structure Ordered (s : State ι) : Prop where
  known : Known s
  agree : Agree s.holder fun i => (s.pc i).holds

theorem Ordered.step (h : Ordered s) (hmoves : Moves s i act s' es)
    (hleak : s.leaks (i, act) = false) : Ordered s' := by
  refine ⟨h.known.step hmoves, ?_⟩
  rw [holds_of_moves hmoves]
  exact h.agree.step (lockStep h.known hmoves hleak)

omit [DecidableEq ι] in
theorem leaks_of_holds {l : Lock} (hi : (s.pc i).holds l = true) : s.leaks (i, .run) = false := by
  unfold State.leaks
  split
  case h_1 hpc _ =>
    simp only at hpc
    rw [hpc] at hi
    cases l <;> cases hi
  case h_2 => rfl

variable [Fintype ι]

theorem Ordered.helped (h : Ordered s) (hu : ReflTransGen Helps s u) : Ordered u := by
  induction hu with
  | refl => exact h
  | tail _ hstep ih =>
    obtain ⟨i, l, es, hi, hstep⟩ := hstep
    exact ih.step (moves_of_step hstep) (leaks_of_holds hi)

/-- The lock that process `i` is about to take comes free, and who holds no lock stays where he
is. -/
theorem makes_way (h : Ordered s) (i : ι) :
    ∃ u, ReflTransGen Helps s u ∧ u.pc i = s.pc i ∧
      (∀ j, (∀ l, (s.pc j).holds l = false) → u.pc j = s.pc j) ∧
      ((s.pc i).locksLists = true → u.spLists = none) ∧
      ∀ a, (s.pc i).target = some a → (u.node a).sp = none := by
  cases hlists : (s.pc i).locksLists with
  | true =>
    obtain ⟨u, hu, hfree⟩ := frees_lists h.agree
    refine ⟨u, hu, pc_of_helped hu (holds_of_locksLists hlists), fun j => pc_of_helped hu,
      fun _ => hfree, fun a ha => ?_⟩
    rw [target_of_locksLists hlists] at ha
    cases ha
  | false =>
    cases htarget : (s.pc i).target with
    | none => exact ⟨s, .refl, rfl, fun _ _ => rfl, nofun, nofun⟩
    | some a =>
      obtain ⟨u, hu, hfree, hpc⟩ := frees_node h.agree a
      refine ⟨u, hu, hpc i ?_, fun j => pc_of_helped hu, nofun, ?_⟩
      · rw [holdsNode_of_target htarget]
        exact (Option.some_ne_none a).symm
      · rintro b hb
        exact Option.some.inj hb ▸ hfree

end Ordered

section Drain

/-- A step that is no call starts no handler, and none goes back. -/
theorem handles_of_run (hmoves : Moves s i .run s' es) {b : Addr}
    (hb : (s'.pc i).handles = some b) :
    (s.pc i).handles = some b ∧ (s'.pc i).rank ≤ (s.pc i).rank := by
  cases hmoves with
  | spinLists | spin => exact ⟨hb, le_rfl⟩
  | @vfree k => cases k <;> simp [State.goto, Caller.pc, Pc.handles] at hb
  | _ =>
    simp_all [State.goto, State.setNode, State.unlock, State.unlockLists, Pc.handles, Pc.rank,
      ReadPc.rank, WritePc.rank]

variable [Fintype ι]

/-- What the handlers of an entry have before them, in all. -/
def State.load (s : State ι) (b : Addr) : Nat :=
  ∑ k, if (s.pc k).handles = some b then (s.pc k).rank else 0

theorem load_le_of_run (hmoves : Moves s i .run s' es) (b : Addr) : s'.load b ≤ s.load b := by
  refine Finset.sum_le_sum fun k _ => ?_
  rcases eq_or_ne k i with rfl | hki
  · split
    · obtain ⟨hb, hle⟩ := handles_of_run hmoves ‹_›
      rw [if_pos hb]
      exact hle
    · exact Nat.zero_le _
  · rw [pc_of_ne hmoves hki]

theorem load_lt_of_run (hmoves : Moves s i .run s' es) {b : Addr}
    (hb : (s.pc i).handles = some b) (hrank : (s'.pc i).rank < (s.pc i).rank) :
    s'.load b < s.load b := by
  refine Finset.sum_lt_sum (fun k _ => ?_) ⟨i, Finset.mem_univ _, ?_⟩
  · rcases eq_or_ne k i with rfl | hki
    · rw [if_pos hb]
      split
      · exact hrank.le
      · exact Nat.zero_le _
    · rw [pc_of_ne hmoves hki]
  · rw [if_pos hb]
    split
    · exact hrank
    · exact (Nat.zero_le _).trans_lt hrank

theorem load_le_of_helped (h : ReflTransGen Helps s u) (b : Addr) : u.load b ≤ s.load b := by
  induction h with
  | refl => exact le_rfl
  | tail _ hstep ih =>
    obtain ⟨i, l, es, -, hstep⟩ := hstep
    exact (load_le_of_run (moves_of_step hstep) b).trans ih

end Drain

section Return

variable [Fintype ι] {refused : Bool}

/-- Process `i` takes a step of its call, or another one a step of what it is doing. -/
def Turn (refused : Bool) (i : ι) (s s' : State ι) : Prop :=
  ∃ k es, step s k (if k = i then (s.pc i).act refused else .run) = some (s', es) ∧
    (k ≠ i → s.leaks (k, .run) = false)

theorem act_of_holds {pc : Pc} {l : Lock} (h : pc.holds l = true) : pc.act refused = .run := by
  unfold Pc.act
  split
  · cases l <;> cases h
  · rfl

theorem turn_of_helps (h : Helps s u) (i : ι) : Turn refused i s u := by
  obtain ⟨k, l, es, hk, hstep⟩ := h
  refine ⟨k, es, ?_, fun _ => leaks_of_holds hk⟩
  split
  · subst k
    rwa [act_of_holds hk]
  · exact hstep

theorem turns_of_helped (h : ReflTransGen Helps s u) (i : ι) :
    ReflTransGen (Turn refused i) s u :=
  ReflTransGen.mono (fun _ _ hstep => turn_of_helps hstep i) _ _ h

/-- A handler is on its way back, and does not wait for the others. -/
theorem rank_of_handles {pc : Pc} {b : Addr} (h : pc.handles = some b) :
    0 < pc.rank ∧ pc.rank < 13 ∧ (∀ k a c, pc ≠ .remove k a c) ∧ ∀ w c, pc ≠ .create w c := by
  unfold Pc.handles at h
  split at h
  case h_1 _ _ c => cases c <;> simp [Pc.rank, ReadPc.rank]
  case h_2 _ _ c => cases c <;> simp [Pc.rank, WritePc.rank]
  case h_3 => simp [Pc.rank]
  case h_4 => cases h

variable (refused)

/-- A handler of an entry comes nearer to its return, and a process that holds no lock stays where
it is. -/
theorem handler_advances (h : Ordered s) {k : ι} {b : Addr} (hk : (s.pc k).handles = some b)
    (hki : k ≠ i) (hi : ∀ l, (s.pc i).holds l = false) :
    ∃ u, ReflTransGen (Turn refused i) s u ∧ Ordered u ∧ u.pc i = s.pc i ∧
      u.load b < s.load b := by
  obtain ⟨hpos, hrank, hremove, hcreate⟩ := rank_of_handles hk
  obtain ⟨v, hv, hpck, hstay, hlists, hnode⟩ := makes_way h k
  rw [← hpck] at hpos hrank hremove hcreate hlists hnode hk
  obtain ⟨u, es, hstep, hlt⟩ := advances hpos hrank hlists hnode
    (fun k' a b hpc => absurd hpc (hremove k' a _)) false
  have hact : (v.pc k).act false = .run := by
    unfold Pc.act
    split <;> rfl
  rw [hact] at hstep
  have hmoves := moves_of_step hstep
  have hleak : v.leaks (k, .run) = false := by
    unfold State.leaks
    split
    · exact absurd ‹v.pc k = _› (hcreate _ _)
    · rfl
  have hturn : Turn refused i v u := ⟨k, es, by rwa [if_neg hki], fun _ => hleak⟩
  refine ⟨u, (turns_of_helped hv i).tail hturn, (h.helped hv).step hmoves hleak, ?_, ?_⟩
  · rw [pc_of_ne hmoves hki.symm, hstay i hi]
  · exact (load_lt_of_run hmoves hk hlt).trans_le (load_le_of_helped hv b)

/-- The handlers of an entry return. -/
theorem drains (h : Ordered s) (hi : ∀ l, (s.pc i).holds l = false) {b : Addr}
    (hib : (s.pc i).handles ≠ some b) :
    ∃ u, ReflTransGen (Turn refused i) s u ∧ Ordered u ∧ u.pc i = s.pc i ∧
      ∀ k, (u.pc k).handles ≠ some b := by
  induction hn : s.load b using Nat.strong_induction_on generalizing s with
  | _ n ih =>
    subst hn
    by_cases hnone : ∀ k, (s.pc k).handles ≠ some b
    · exact ⟨s, .refl, h, rfl, hnone⟩
    push Not at hnone
    obtain ⟨k, hk⟩ := hnone
    have hki : k ≠ i := by
      rintro rfl
      exact hib hk
    obtain ⟨v, hv, hvo, hpcv, hlt⟩ := handler_advances refused h hk hki hi
    rw [← hpcv] at hi hib
    obtain ⟨u, hu, huo, hpcu, hdone⟩ := ih _ hlt hvo hi hib rfl
    exact ⟨u, hv.trans hu, huo, hpcu.trans hpcv, hdone⟩

/-- After some steps of the others the process can go on. -/
theorem comes_forward (h : Ordered s) (hpos : 0 < (s.pc i).rank) (hrank : (s.pc i).rank < 13) :
    ∃ u, ReflTransGen (Turn refused i) s u ∧ Ordered u ∧ u.pc i = s.pc i ∧
      Advances refused u i := by
  cases hwaits : (s.pc i).waits with
  | true =>
    obtain ⟨k, a, b, hpc⟩ : ∃ k a b, s.pc i = .remove k a (.wait b) := by
      unfold Pc.waits at hwaits
      split at hwaits
      · exact ⟨_, _, _, ‹_›⟩
      · cases hwaits
    obtain ⟨u, hu, huo, hpcu, hdone⟩ :=
      drains refused h (b := b) (holds_of_waits hwaits) (by rw [hpc]; nofun)
    rw [← hpcu] at hpos hrank hpc
    refine ⟨u, hu, huo, hpcu, advances hpos hrank ?_ ?_ ?_ refused⟩
    · rw [hpc]
      nofun
    · rw [hpc]
      nofun
    · intro k' a' b' hpc'
      rw [hpc] at hpc'
      cases hpc'
      exact hdone
  | false =>
    obtain ⟨u, hu, hpcu, -, hlists, hnode⟩ := makes_way h i
    rw [← hpcu] at hpos hrank hlists hnode hwaits
    refine ⟨u, turns_of_helped hu i, h.helped hu, hpcu, advances hpos hrank hlists hnode ?_ refused⟩
    intro k a b hpc
    rw [hpc] at hwaits
    cases hwaits

/-- A call comes back, if the others go on and no lock is lost. -/
theorem comes_back (h : Ordered s) (hrank : (s.pc i).rank < 13) :
    ∃ u, ReflTransGen (Turn refused i) s u ∧ (u.pc i).outside = true := by
  induction hn : (s.pc i).rank using Nat.strong_induction_on generalizing s with
  | _ n ih =>
    subst hn
    rcases Nat.lt_or_ge 1 (s.pc i).rank with hpos | hle
    · obtain ⟨u, hu, huo, hpcu, v, es, hstep, hlt⟩ :=
        comes_forward refused h (by omega) hrank
      have hturn : Turn refused i u v := ⟨i, es, by rwa [if_pos rfl], fun hne => absurd rfl hne⟩
      rw [hpcu] at hlt
      have hmoves := moves_of_step hstep
      cases hleak : u.leaks (i, (u.pc i).act refused) with
      | true =>
        -- the lock is lost, but the call comes back
        obtain ⟨-, -, -, w, hpc⟩ := lockFailed_of_leaks hmoves hleak
        exact ⟨v, hu.tail hturn, by rw [hpc]; rfl⟩
      | false =>
        obtain ⟨x, hx, hout⟩ := ih _ hlt (huo.step hmoves hleak) (hlt.trans hrank) rfl
        exact ⟨x, (hu.tail hturn).trans hx, hout⟩
    · exact ⟨s, .refl, outside_of_rank hle⟩

end Return

end LinuxInternals.Multilist
