import Mathlib.Data.Option.Basic

/-!
# Programs that act one operation at a time

A program is a tree: it ends with a result, or performs an operation and goes on with what the
operation has answered, or is out of turns. It can be run in one go, and a machine can run it
operation by operation, with those of others in between.
-/

namespace LinuxInternals

inductive Prog (π : Type) (ν : π → Type) (ρ : Type) where
  | ret (r : ρ)
  | fail
  | op (p : π) (k : ν p → Prog π ν ρ)

namespace Prog

variable {π ρ τ σ : Type} {ν : π → Type}

def bind : Prog π ν ρ → (ρ → Prog π ν τ) → Prog π ν τ
  | .ret r, f => f r
  | .fail, _ => .fail
  | .op p k, f => .op p fun v => (k v).bind f

def perform (p : π) : Prog π ν (ν p) := .op p .ret

instance : Monad (Prog π ν) where
  pure := .ret
  bind := bind

/-- The program in one go, where `sem` says what an operation does and answers. -/
def eval (sem : (p : π) → σ → Option (σ × ν p)) : Prog π ν ρ → σ → Option (σ × ρ)
  | .ret r, s => some (s, r)
  | .fail, _ => none
  | .op p k, s => (sem p s).bind fun r => (k r.2).eval sem r.1

/-- How many operations the program performs, in one go. -/
def steps (sem : (p : π) → σ → Option (σ × ν p)) : Prog π ν ρ → σ → Nat
  | .ret _, _ | .fail, _ => 0
  | .op p k, s => (sem p s).elim 0 fun r => (k r.2).steps sem r.1 + 1

variable {sem : (p : π) → σ → Option (σ × ν p)}

@[simp] theorem eval_pure (r : ρ) (s : σ) : eval sem (pure r : Prog π ν ρ) s = some (s, r) := rfl

@[simp] theorem eval_fail (s : σ) : eval sem (.fail : Prog π ν ρ) s = none := rfl

@[simp] theorem eval_perform (p : π) (s : σ) : eval sem (perform p) s = sem p s := by
  rw [perform, eval]
  cases sem p s <;> rfl

@[simp] theorem eval_bind (P : Prog π ν ρ) (f : ρ → Prog π ν τ) (s : σ) :
    eval sem (P >>= f) s = (eval sem P s).bind fun r => (f r.2).eval sem r.1 := by
  show eval sem (P.bind f) s = _
  induction P generalizing s with
  | ret r => rfl
  | fail => rfl
  | op p k ih =>
    rw [bind, eval, eval]
    cases h : sem p s with
    | none => rfl
    | some r =>
      simp only [Option.bind_some]
      exact ih r.2 r.1

/-- A program that comes to its end does its first operation, and the rest comes to the same
end. -/
theorem eval_op_eq_some {p : π} {k : ν p → Prog π ν ρ} {s : σ} {out : σ × ρ} :
    eval sem (.op p k) s = some out ↔
      ∃ s' v, sem p s = some (s', v) ∧ eval sem (k v) s' = some out := by
  rw [eval, Option.bind_eq_some_iff, Prod.exists]

end Prog

end LinuxInternals
