import LinuxInternals.Lib.Lifetime
import LinuxInternals.Lib.Population

/-!
# Counted references

Each of the parties `π` holds a reference to at most one object. The maker of an object has
the first one; others come from somebody who has one; the party that gives up the last one
frees the object. What a reference count is for is that it says how many parties hold one.
-/

namespace LinuxInternals.Refcount

open Lifetime

/-- `made` objects have been made. -/
structure State (π : Type*) where
  made : Nat
  ref : π → Option Nat

inductive Act (π : Type*) where
  | make (p : π)
  | get (p : π) (o : Nat)
  | touch (p : π)
  | put (p : π)

variable {π : Type*} [Fintype π]

def holders (ref : π → Option Nat) (o : Nat) : Nat := headcount (· == some o) ref

def step [DecidableEq π] (s : State π) : Act π → Option (State π × List (Nat × Use))
  | .make p =>
    if s.ref p = none then
      some (⟨s.made + 1, Function.update s.ref p (some s.made)⟩, [(s.made, .alloc)])
    else none
  | .get p o =>
    if s.ref p = none ∧ 0 < holders s.ref o then
      some (⟨s.made, Function.update s.ref p (some o)⟩, [(o, .touch)])
    else none
  | .touch p => (s.ref p).map fun o => (s, [(o, .touch)])
  | .put p =>
    (s.ref p).map fun o =>
      let ref := Function.update s.ref p none
      (⟨s.made, ref⟩, (o, .touch) :: if holders ref o = 0 then [(o, .free)] else [])

def machine (π : Type*) [Fintype π] [DecidableEq π] : Machine (State π) (Act π) (Nat × Use) where
  init := ⟨0, fun _ => none⟩
  step := step

def State.stage (s : State π) (o : Nat) : Stage :=
  if s.made ≤ o then .fresh else if holders s.ref o = 0 then .freed else .live

def State.Valid (s : State π) : Prop := ∀ p o, s.ref p = some o → o < s.made

section Holders

variable {ref : π → Option Nat} {p : π} {o : Nat}

theorem holders_pos (h : ref p = some o) : 0 < holders ref o :=
  headcount_pos p (by simpa using h)

theorem holders_eq_zero (h : ∀ p, ref p ≠ some o) : holders ref o = 0 :=
  headcount_eq_zero_iff.mpr fun p => by simpa using h p

variable [DecidableEq π]

theorem holders_get (h : ref p = none) (o : Nat) :
    holders (Function.update ref p (some o)) o = holders ref o + 1 := by
  have hcount := headcount_update (· == some o) ref p (some o)
  simpa [h, holders] using hcount

theorem holders_put (h : ref p = some o) :
    holders (Function.update ref p none) o + 1 = holders ref o := by
  have hcount := headcount_update (· == some o) ref p none
  simpa [h, holders] using hcount

theorem holders_update_of_ne {x : Option Nat} {b : Nat} (h : ref p ≠ some b) (hx : x ≠ some b) :
    holders (Function.update ref p x) b = holders ref b := by
  have hcount := headcount_update (· == some b) ref p x
  simpa [beq_false_of_ne h, beq_false_of_ne hx, holders] using hcount

end Holders

section Runs

variable {s s' : State π} {h₀ : Nat → Stage}

theorem stage_of_holders {o : Nat} (hmade : o < s.made) (hpos : 0 < holders s.ref o) :
    s.stage o = .live := by
  rw [State.stage, if_neg (by omega), if_neg (by omega)]

/-- A step moves one object only. -/
theorem stage_update {o : Nat} {made : Nat} {ref : π → Option Nat} {st : Stage}
    (ho : State.stage ⟨made, ref⟩ o = st)
    (hrest : ∀ b, b ≠ o → (made ≤ b ↔ s.made ≤ b) ∧ holders ref b = holders s.ref b) :
    State.stage ⟨made, ref⟩ = Function.update s.stage o st := by
  funext b
  rcases eq_or_ne b o with rfl | hb
  · rw [Function.update_self, ho]
  · rw [Function.update_of_ne hb, State.stage, State.stage, (hrest b hb).2]
    exact if_congr (hrest b hb).1 rfl rfl

variable [DecidableEq π]

omit [Fintype π] in
theorem valid_update (hs : s.Valid) (p : π) {made : Nat} {x : Option Nat}
    (hmade : s.made ≤ made) (hx : ∀ b, x = some b → b < made) :
    State.Valid ⟨made, Function.update s.ref p x⟩ :=
  (Function.forall_update_iff s.ref fun _ r => ∀ o, r = some o → o < made).mpr
    ⟨hx, fun q _ o hq => lt_of_lt_of_le (hs q o hq) hmade⟩

theorem valid_step (hs : s.Valid) {a : Act π} {es : List (Nat × Use)}
    (hstep : step s a = some (s', es)) : s'.Valid := by
  cases a with
  | make p =>
    obtain ⟨-, heq⟩ := Option.ite_none_right_eq_some.mp hstep
    cases heq
    apply valid_update hs p (Nat.le_succ _)
    rintro b ⟨⟩
    exact Nat.lt_succ_self _
  | get p o =>
    obtain ⟨⟨-, hpos⟩, heq⟩ := Option.ite_none_right_eq_some.mp hstep
    cases heq
    obtain ⟨q, hq⟩ := exists_of_headcount_pos hpos
    apply valid_update hs p le_rfl
    rintro b ⟨⟩
    exact hs q o (by simpa using hq)
  | touch p =>
    obtain ⟨o, -, heq⟩ := Option.map_eq_some_iff.mp hstep
    cases heq
    exact hs
  | put p =>
    obtain ⟨o, -, heq⟩ := Option.map_eq_some_iff.mp hstep
    cases heq
    exact valid_update hs p le_rfl (by simp)

theorem exec_pool (hs : s.Valid) {a : Act π} {es : List (Nat × Use)}
    (hstep : step s a = some (s', es)) : (pool h₀).exec s.stage es = some (s'.stage, es) := by
  cases a with
  | make p =>
    obtain ⟨hp, heq⟩ := Option.ite_none_right_eq_some.mp hstep
    cases heq
    have hfresh : (s.stage s.made).next .alloc = some .live := by
      rw [State.stage, if_pos le_rfl]
      rfl
    have hlive : State.stage ⟨s.made + 1, Function.update s.ref p (some s.made)⟩ s.made = .live :=
      stage_of_holders (Nat.lt_succ_self _) (by rw [holders_get hp]; exact Nat.succ_pos _)
    apply exec_cons hfresh
    rw [stage_update hlive]
    · rfl
    · intro b hb
      refine ⟨by omega, holders_update_of_ne (by simp [hp]) ?_⟩
      simpa using hb.symm
  | get p o =>
    obtain ⟨⟨hp, hpos⟩, heq⟩ := Option.ite_none_right_eq_some.mp hstep
    cases heq
    obtain ⟨q, hq⟩ := exists_of_headcount_pos hpos
    have hmade : o < s.made := hs q o (by simpa using hq)
    have hlive : State.stage ⟨s.made, Function.update s.ref p (some o)⟩ o = .live :=
      stage_of_holders hmade (by rw [holders_get hp]; exact Nat.succ_pos _)
    apply exec_cons (g := .live) (by rw [stage_of_holders hmade hpos]; rfl)
    rw [stage_update hlive]
    · rfl
    · intro b hb
      refine ⟨Iff.rfl, holders_update_of_ne (by simp [hp]) ?_⟩
      simpa using hb.symm
  | touch p =>
    obtain ⟨o, ho, heq⟩ := Option.map_eq_some_iff.mp hstep
    cases heq
    have hlive := stage_of_holders (hs p o ho) (holders_pos ho)
    apply exec_cons (g := .live) (by rw [hlive]; rfl)
    rw [← hlive, Function.update_eq_self]
    rfl
  | put p =>
    obtain ⟨o, ho, heq⟩ := Option.map_eq_some_iff.mp hstep
    dsimp only at heq
    have hmade := hs p o ho
    have hlive := stage_of_holders hmade (holders_pos ho)
    have hrest (b : Nat) (hb : b ≠ o) : (s.made ≤ b ↔ s.made ≤ b) ∧
        holders (Function.update s.ref p none) b = holders s.ref b := by
      refine ⟨Iff.rfl, holders_update_of_ne ?_ (by simp)⟩
      rw [ho]
      simpa using hb.symm
    by_cases hlast : holders (Function.update s.ref p none) o = 0
    · rw [if_pos hlast] at heq
      cases heq
      have hfreed : State.stage ⟨s.made, Function.update s.ref p none⟩ o = .freed := by
        rw [State.stage, if_neg (Nat.not_le.mpr hmade), if_pos hlast]
      apply exec_cons (g := .live) (by rw [hlive]; rfl)
      apply exec_cons (g := .freed) (by rw [Function.update_self]; rfl)
      rw [Function.update_idem, stage_update hfreed hrest]
      rfl
    · rw [if_neg hlast] at heq
      cases heq
      apply exec_cons (g := .live) (by rw [hlive]; rfl)
      have hlive' : State.stage ⟨s.made, Function.update s.ref p none⟩ o = .live :=
        stage_of_holders hmade (Nat.pos_of_ne_zero hlast)
      rw [stage_update hlive' hrest]
      rfl

theorem step_put {ref : π → Option Nat} {made o : Nat} {p : π} (h : ref p = some o) :
    step ⟨made, ref⟩ (.put p) = some (⟨made, Function.update ref p none⟩,
      (o, .touch) :: if holders (Function.update ref p none) o = 0 then [(o, .free)] else []) := by
  rw [step]
  dsimp only
  rw [h]
  rfl

theorem step_touch {o : Nat} {p : π} (h : s.ref p = some o) :
    step s (.touch p) = some (s, [(o, .touch)]) := by
  rw [step, h]
  rfl

theorem exec_of_step {a : Act π} {es : List (Nat × Use)} (hstep : step s a = some (s', es)) :
    (machine π).exec s [a] = some (s', es) := Machine.exec_single hstep

variable {as : List (Act π)} {tr : List (Nat × Use)}

/-- A run leads every object through its life. -/
theorem valid_and_exec_of_run (hrun : (machine π).Run as s tr) :
    s.Valid ∧ (pool fun _ => .fresh).exec (fun _ => .fresh) tr = some (s.stage, tr) := by
  refine hrun.invariant (C := fun _ _ => True)
    (I := fun s tr => s.Valid ∧
      (pool fun _ => .fresh).exec (fun _ => .fresh) tr = some (s.stage, tr))
    ⟨?_, rfl⟩ ?_ (Machine.along_true _ _)
  · intro p o hp
    cases hp
  · rintro s t a s' es ⟨hs, ht⟩ - hstep
    exact ⟨valid_step hs hstep, exec_append ht (exec_pool hs hstep)⟩

theorem pairwise_of_run (hrun : (machine π).Run as s tr) :
    tr.Pairwise fun e f => e.1 = f.1 → e.2.reach < f.2.bound :=
  pairwise_of_exec (valid_and_exec_of_run hrun).2

theorem alloc_mem_iff (hrun : (machine π).Run as s tr) (o : Nat) :
    (o, .alloc) ∈ tr ↔ o < s.made := by
  have hcount := count_alloc (valid_and_exec_of_run hrun).2 o
  rw [if_neg (by simp), Nat.add_zero] at hcount
  rw [← List.count_pos_iff, hcount, State.stage]
  split
  · exact iff_of_false (by simp) (by omega)
  · refine iff_of_true ?_ (by omega)
    split <;> simp

/-- An object is freed once, when its last holder has put its reference. -/
theorem count_free_of_run (hrun : (machine π).Run as s tr) (o : Nat) :
    tr.count (o, .free) = if o < s.made ∧ holders s.ref o = 0 then 1 else 0 := by
  have hcount := count_free (valid_and_exec_of_run hrun).2 o
  rw [if_neg (by simp), Nat.add_zero] at hcount
  rw [hcount]
  refine if_congr ?_ rfl rfl
  rw [State.stage]
  split
  · exact iff_of_false (by simp) (by omega)
  · split
    · exact iff_of_true rfl ⟨by omega, ‹_›⟩
    · exact iff_of_false (by simp) fun h => ‹¬_› h.2

end Runs

end LinuxInternals.Refcount
