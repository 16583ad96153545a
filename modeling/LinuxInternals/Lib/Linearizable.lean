import LinuxInternals.Lib.Machine
import Mathlib.Logic.Function.Basic

/-!
# Linearizable machines

A sequential object says what an operation does to its state when it happens in one go. The
atomic machine of the object lets any number of processes call operations, each of which takes
effect at one instant between its invocation and its return. A machine is linearizable if the
invocations and returns of each of its runs are those of a run of the atomic machine.
-/

namespace LinuxInternals

/-- `apply x op r` is the state after `op`, if `op` may return `r` in state `x`. -/
structure Object (σ ω ρ : Type*) where
  init : σ
  apply : σ → ω → ρ → Option σ

namespace Object

variable {σ ω ρ τ α ι : Type*}

inductive Status (ω ρ : Type*) where
  | idle
  | called (op : ω)
  | done (r : ρ)

inductive Act (ω ρ : Type*) where
  | call (op : ω)
  | effect (r : ρ)
  | ret

inductive Event (ω ρ : Type*) where
  | invoked (op : ω)
  | returned (r : ρ)
deriving DecidableEq

variable (O : Object σ ω ρ)

/-- What one process does to the state of the object and to its own status. -/
def act (x : σ) : Status ω ρ → Act ω ρ → Option (σ × Status ω ρ × List (Event ω ρ))
  | .idle, .call op => some (x, .called op, [.invoked op])
  | .called op, .effect r => (O.apply x op r).map fun x' => (x', .done r, [])
  | .done r, .ret => some (x, .idle, [.returned r])
  | _, _ => none

def machine (ι : Type*) [DecidableEq ι] :
    Machine (σ × (ι → Status ω ρ)) (ι × Act ω ρ) (ι × Event ω ρ) where
  init := (O.init, fun _ => .idle)
  step s ia :=
    match O.act s.1 (s.2 ia.1) ia.2 with
    | none => none
    | some (x, st, es) =>
      some ((x, Function.update s.2 ia.1 st), es.map (Prod.mk ia.1))

/-- A step of an implementation, as it looks to the object: an invocation, an effect, a return
or nothing. -/
inductive Progress (x : σ) : Status ω ρ → σ → Status ω ρ → List (Event ω ρ) → Prop where
  | call (op : ω) : Progress x .idle x (.called op) [.invoked op]
  | silent (st : Status ω ρ) : Progress x st x st []
  | effect (op : ω) (r : ρ) (x' : σ) : O.apply x op r = some x' →
      Progress x (.called op) x' (.done r) []
  | ret (r : ρ) : Progress x (.done r) x .idle [.returned r]

variable {O} [DecidableEq ι]

theorem machine_step {s : σ × (ι → Status ω ρ)} {i : ι} {a : Act ω ρ} {x : σ} {st : Status ω ρ}
    {es : List (Event ω ρ)} (h : O.act s.1 (s.2 i) a = some (x, st, es)) :
    (O.machine ι).step s (i, a) =
      some ((x, Function.update s.2 i st), es.map (Prod.mk i)) := by
  simp only [machine, h]

theorem Progress.exec {x x' : σ} {f : ι → Status ω ρ} {i : ι} {st' : Status ω ρ}
    {es : List (Event ω ρ)} (h : O.Progress x (f i) x' st' es) :
    ∃ as, (O.machine ι).exec (x, f) as =
      some ((x', Function.update f i st'), es.map (Prod.mk i)) := by
  generalize hst : f i = st at h
  cases h with
  | call op =>
    refine ⟨[(i, .call op)], Machine.exec_single (machine_step ?_)⟩
    simp only [hst]
    rfl
  | silent =>
    refine ⟨[], ?_⟩
    rw [← hst, Function.update_eq_self]
    rfl
  | effect op r _ happly =>
    refine ⟨[(i, .effect r)], Machine.exec_single (machine_step ?_)⟩
    simp only [hst, act, happly, Option.map_some]
  | ret r =>
    refine ⟨[(i, .ret)], Machine.exec_single (machine_step ?_)⟩
    simp only [hst]
    rfl

/-- A call that is answered where it is made. -/
theorem exec_answered {x x' : σ} {f : ι → Status ω ρ} {i : ι} {op : ω} {r : ρ} (hi : f i = .idle)
    (happly : O.apply x op r = some x') :
    ∃ as, (O.machine ι).exec (x, f) as =
      some ((x', Function.update f i (.done r)), [(i, .invoked op)]) := by
  have hcall : O.Progress x (f i) x (.called op) [.invoked op] := hi ▸ .call op
  obtain ⟨as, has⟩ := hcall.exec
  have heffect : O.Progress x (Function.update f i (.called op) i) x' (.done r) [] := by
    rw [Function.update_self]
    exact .effect op r x' happly
  obtain ⟨bs, hbs⟩ := heffect.exec
  rw [Function.update_idem] at hbs
  exact ⟨as ++ bs, Machine.exec_append_eq_some.mpr ⟨_, _, _, has, hbs, rfl⟩⟩

/-- The events of each run of `M` are those of a run of the atomic machine, whose object ends
in the state that `abs` reads off the state of `M`. -/
def Linearizes (O : Object σ ω ρ) (M : Machine τ α (ι × Event ω ρ)) (abs : τ → σ) : Prop :=
  ∀ as s tr, M.Run as s tr → ∃ bs f, (O.machine ι).Run bs (abs s, f) tr

/-- Steps that make progress one process at a time make a machine linearizable. -/
theorem linearizes_of_progress {M : Machine τ α (ι × Event ω ρ)} {abs : τ → σ}
    (status : τ → ι → Status ω ρ) (habs : abs M.init = O.init)
    (hstatus : status M.init = fun _ => .idle)
    (hstep : ∀ s a s' es, M.Reachable s → M.step s a = some (s', es) → ∃ i evs,
      es = evs.map (Prod.mk i) ∧ status s' = Function.update (status s) i (status s' i) ∧
        O.Progress (abs s) (status s i) (abs s') (status s' i) evs) :
    O.Linearizes M abs := by
  intro as s tr hrun
  have hsim : ∃ bs u, (O.machine ι).Run bs u (tr.map id) ∧ u = (abs s, status s) := by
    refine hrun.simulated (C := fun _ _ => True) (R := fun s u => u = (abs s, status s)) ?_ ?_
      (Machine.along_true _ _)
    · exact Prod.ext habs.symm hstatus.symm
    · rintro s u a s' es hs rfl - ha
      obtain ⟨i, evs, rfl, hupdate, hprogress⟩ := hstep s a s' es hs ha
      obtain ⟨bs, hbs⟩ := hprogress.exec
      refine ⟨bs, _, ?_, rfl⟩
      rw [hbs, ← hupdate, List.map_id]
  obtain ⟨bs, u, hu, rfl⟩ := hsim
  exact ⟨bs, status s, by simpa using hu⟩

end Object

end LinuxInternals
