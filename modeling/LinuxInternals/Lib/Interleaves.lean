import Mathlib.Data.List.Basic

/-!
# Lists that interleave to a list

`Interleaves l a b` says that each position of `l` goes to `a` or to `b`, and that both keep
the order. Where `a` is what was delivered and `b` what was lost, nothing is delivered twice,
nothing out of order, and whatever is missing from `a` is in `b`.
-/

namespace LinuxInternals

variable {α : Type*} {l a b : List α}

inductive Interleaves : List α → List α → List α → Prop where
  | nil : Interleaves [] [] []
  | left {l a b : List α} (x : α) : Interleaves l a b → Interleaves (x :: l) (x :: a) b
  | right {l a b : List α} (x : α) : Interleaves l a b → Interleaves (x :: l) a (x :: b)

namespace Interleaves

theorem refl_left (l : List α) : Interleaves l l [] := by
  induction l with
  | nil => exact .nil
  | cons x l ih => exact .left x ih

theorem append_left (h : Interleaves l a b) (xs : List α) :
    Interleaves (l ++ xs) (a ++ xs) b := by
  induction h with
  | nil => exact refl_left xs
  | left x _ ih => exact .left x ih
  | right x _ ih => exact .right x ih

theorem concat_right (h : Interleaves l a b) (x : α) : Interleaves (l ++ [x]) a (b ++ [x]) := by
  induction h with
  | nil => exact .right x .nil
  | left y _ ih => exact .left y ih
  | right y _ ih => exact .right y ih

end Interleaves

end LinuxInternals
