import Mathlib.Logic.Function.Basic
import Mathlib.Data.List.Basic
import Mathlib.Data.Nat.ModEq
import Mathlib.Algebra.BigOperators.Group.List.Basic

/-!
# C integers and flat memory

Conversions between `int`, `unsigned int` and `size_t` are explicit reductions
modulo a power of two. Memory reached through a pointer is a total function of
the offset; what an access may touch is recorded next to it as a list of
offsets, so that staying inside an array is a statement about that list.
-/

namespace LinuxInternals.CData

/-- Conversion to `unsigned int`. -/
@[irreducible] def u32 (x : Int) : Nat := (x % 4294967296).toNat

/-- Conversion to `int`, two's complement. -/
@[irreducible] def i32 (x : Int) : Int := x.bmod 4294967296

/-- Conversion to a 64-bit `size_t`. -/
@[irreducible] def u64 (x : Int) : Nat := (x % 18446744073709551616).toNat

theorem u32_of_nonneg {x : Int} (h0 : 0 ≤ x) (h : x < 4294967296) : u32 x = x.toNat := by
  rw [u32, Int.emod_eq_of_lt h0 h]

@[simp] theorem u32_natCast {n : Nat} (h : n < 4294967296) : u32 n = n := by
  rw [u32_of_nonneg (by omega) (by omega), Int.toNat_natCast]

theorem i32_of_range {x : Int} (h0 : -2147483648 ≤ x) (h : x < 2147483648) : i32 x = x := by
  rw [i32, Int.bmod_eq_of_le (by omega) (by omega)]

theorem u64_of_nonneg {x : Int} (h0 : 0 ≤ x) (h : x < 18446744073709551616) :
    u64 x = x.toNat := by
  rw [u64, Int.emod_eq_of_lt h0 h]

@[simp] theorem u64_natCast {n : Nat} (h : n < 18446744073709551616) : u64 n = n := by
  rw [u64_of_nonneg (by omega) (by omega), Int.toNat_natCast]

@[simp] theorem u64_zero : u64 0 = 0 := by
  rw [u64_of_nonneg (by omega) (by omega), Int.toNat_zero]

/-- A negative `int` is a huge `size_t`. -/
theorem le_u64_i32 {n : Nat} (h : n < 4294967296) : n ≤ u64 (i32 n) := by
  unfold i32 u64
  rw [Int.bmod_def]
  omega

def uadd (a b : Nat) : Nat := u32 (a + b)

def usub (a b : Nat) : Nat := u32 (a - b)

theorem uadd_eq {a b : Nat} (h : a + b < 4294967296) : uadd a b = a + b := by
  unfold uadd u32
  omega

theorem usub_eq {a b : Nat} (hb : b ≤ a) (ha : a < 4294967296) : usub a b = a - b := by
  unfold usub u32
  omega

theorem mod_once {a m : Nat} (h : a < 2 * m) : a % m = if a < m then a else a - m := by
  split
  · exact Nat.mod_eq_of_lt ‹_›
  · rw [Nat.mod_eq_sub_mod (by omega), Nat.mod_eq_of_lt (by omega)]

theorem sum_bytes (x n : Nat) :
    ((List.range n).map fun j => x / 256 ^ j % 256 * 256 ^ j).sum = x % 256 ^ n := by
  induction n with
  | zero => simp [Nat.mod_one]
  | succ n ih =>
    rw [List.range_succ, List.map_append, List.sum_append, ih, Nat.mod_pow_succ, List.map_singleton,
      List.sum_singleton, Nat.mul_comm (256 ^ n)]

section Memory

variable {α : Type*}

/-- `memcpy (dst + at) (src + from) n`, counted in elements. -/
def memcpy (dst : Nat → α) (at_ : Nat) (src : Nat → α) (from_ n : Nat) : Nat → α :=
  fun i => if at_ ≤ i ∧ i < at_ + n then src (from_ + (i - at_)) else dst i

@[simp] theorem memcpy_zero (dst : Nat → α) (at_ : Nat) (src : Nat → α) (from_ : Nat) :
    memcpy dst at_ src from_ 0 = dst := by
  funext i
  rw [memcpy, if_neg (by omega)]

/-- The first `n` elements stored from a pointer on. -/
def read (mem : Nat → α) (n : Nat) : List α := (List.range n).map mem

@[simp] theorem length_read (mem : Nat → α) (n : Nat) : (read mem n).length = n := by
  simp [read]

@[simp] theorem getElem_read (mem : Nat → α) (n i : Nat) (h : i < (read mem n).length) :
    (read mem n)[i] = mem i := by
  simp [read]

theorem read_succ (mem : Nat → α) (n : Nat) : read mem (n + 1) = read mem n ++ [mem n] := by
  simp [read, List.range_succ]

theorem read_congr {mem mem' : Nat → α} {n : Nat} (h : ∀ i < n, mem i = mem' i) :
    read mem n = read mem' n :=
  List.map_congr_left fun i hi => h i (List.mem_range.mp hi)

end Memory

end LinuxInternals.CData
