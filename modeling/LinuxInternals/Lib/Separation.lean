import Mathlib.Algebra.BigOperators.Group.List.Basic

/-!
# Separate parts of a memory

An assertion is about a part of the memory. `P * Q` is about two parts that have no address in
common, and `1` about the part that has none. What a command does to its own part it does in every
memory, and leaves the rest as it was: each rule below is for any rest, so that rules about small
parts compose.
-/

namespace LinuxInternals.Separation

variable {α β ρ τ : Type}

/-- What is allocated, by address. -/
abbrev Mem (α β : Type) := α → Option β

/-- The memory `m` consists of `m₁` and `m₂`. -/
def Splits (m m₁ m₂ : Mem α β) : Prop :=
  ∀ p, (m₁ p = none ∧ m p = m₂ p) ∨ (m₂ p = none ∧ m p = m₁ p)

theorem Splits.symm {m m₁ m₂ : Mem α β} (h : Splits m m₁ m₂) : Splits m m₂ m₁ :=
  fun p => (h p).symm

theorem Splits.assoc {m l x y z : Mem α β} (h : Splits m l z) (hl : Splits l x y) :
    ∃ r, Splits m x r ∧ Splits r y z := by
  refine ⟨fun p => (y p).or (z p), ?_, ?_⟩
  · intro p
    have hp := h p
    have hlp := hl p
    grind
  · intro p
    have hp := h p
    have hlp := hl p
    grind

def Assertion (α β : Type) : Type := Mem α β → Prop

instance : CommMonoid (Assertion α β) where
  mul P Q m := ∃ m₁ m₂, Splits m m₁ m₂ ∧ P m₁ ∧ Q m₂
  one m := ∀ p, m p = none
  mul_assoc P Q R := by
    funext m
    apply propext
    constructor
    · rintro ⟨l, z, hm, ⟨x, y, hl, hP, hQ⟩, hR⟩
      obtain ⟨r, hr, hyz⟩ := hm.assoc hl
      exact ⟨x, r, hr, hP, y, z, hyz, hQ, hR⟩
    · rintro ⟨x, r, hm, hP, y, z, hr, hQ, hR⟩
      obtain ⟨l, hl, hyx⟩ := hm.symm.assoc hr.symm
      exact ⟨l, z, hl.symm, ⟨x, y, hyx.symm, hP, hQ⟩, hR⟩
  one_mul P := by
    funext m
    apply propext
    constructor
    · rintro ⟨x, y, hm, hx, hP⟩
      have hy : m = y := by
        funext p
        have hp := hm p
        have hxp := hx p
        grind
      exact hy ▸ hP
    · intro hP
      exact ⟨fun _ => none, m, fun _ => .inl ⟨rfl, rfl⟩, fun _ => rfl, hP⟩
  mul_one P := by
    funext m
    apply propext
    constructor
    · rintro ⟨x, y, hm, hP, hy⟩
      have hx : m = x := by
        funext p
        have hp := hm p
        have hyp := hy p
        grind
      exact hx ▸ hP
    · intro hP
      exact ⟨m, fun _ => none, fun _ => .inr ⟨rfl, rfl⟩, hP, fun _ => rfl⟩
  mul_comm P Q := by
    funext m
    apply propext
    constructor
    · rintro ⟨x, y, hm, hP, hQ⟩
      exact ⟨y, x, hm.symm, hQ, hP⟩
    · rintro ⟨x, y, hm, hQ, hP⟩
      exact ⟨y, x, hm.symm, hP, hQ⟩

/-- The one address `p`, with the content `v`. -/
def pointsTo (p : α) (v : β) : Assertion α β := fun m => m p = some v ∧ ∀ x, x ≠ p → m x = none

/-- The part has the addresses `cells`, and no others. -/
def Assertion.Covers (P : Assertion α β) (cells : List α) : Prop :=
  ∀ m, P m → ∀ x, (m x).isSome ↔ x ∈ cells

theorem covers_one : (1 : Assertion α β).Covers [] := by
  intro m hm x
  rw [hm x]
  simp

theorem covers_pointsTo (p : α) (v : β) : (pointsTo p v).Covers [p] := by
  rintro m ⟨hp, hm⟩ x
  rcases eq_or_ne x p with rfl | hx
  · simp [hp]
  · simp [hm x hx, hx]

theorem Assertion.Covers.mul {P Q : Assertion α β} {cells cells' : List α} (hP : P.Covers cells)
    (hQ : Q.Covers cells') : (P * Q).Covers (cells ++ cells') := by
  rintro m ⟨m₁, m₂, hm, hm₁, hm₂⟩ x
  have h₁ := hP m₁ hm₁ x
  have h₂ := hQ m₂ hm₂ x
  have hx := hm x
  rw [List.mem_append, ← h₁, ← h₂]
  grind

/-- An access to an address that is not allocated has no outcome. -/
abbrev Cmd (α β ρ : Type) := StateT (Mem α β) Option ρ

def load (p : α) : Cmd α β β := fun m => (m p).map fun v => (v, m)

section Commands

variable [DecidableEq α]

def store (p : α) (v : β) : Cmd α β Unit := fun m =>
  if (m p).isSome then some ((), Function.update m p (some v)) else none

def free (p : α) : Cmd α β Unit := fun m =>
  if (m p).isSome then some ((), Function.update m p none) else none

def alloc (p : α) (v : β) : Cmd α β Unit := fun m =>
  if (m p).isSome then none else some ((), Function.update m p (some v))

end Commands

/-- On a part `P`, whatever the rest is, the command gives `r` and makes `Q` of the part. -/
def Triple (P : Assertion α β) (c : Cmd α β ρ) (r : ρ) (Q : Assertion α β) : Prop :=
  ∀ F m, (P * F) m → ∃ m', c m = some (r, m') ∧ (Q * F) m'

namespace Triple

variable {P Q R F : Assertion α β} {c : Cmd α β ρ} {r : ρ} {p : α} {v w : β}

theorem ret (P : Assertion α β) (r : ρ) : Triple P (pure r) r P :=
  fun _ m hm => ⟨m, rfl, hm⟩

theorem bind {k : ρ → Cmd α β τ} {t : τ} (hc : Triple P c r Q) (hk : Triple Q (k r) t R) :
    Triple P (c >>= k) t R := by
  intro F m hm
  obtain ⟨m₁, hrun, hm₁⟩ := hc F m hm
  obtain ⟨m', hrest, hm'⟩ := hk F m₁ hm₁
  refine ⟨m', ?_, hm'⟩
  change (c m).bind _ = _
  rw [hrun]
  exact hrest

theorem frame (h : Triple P c r Q) (F : Assertion α β) : Triple (P * F) c r (Q * F) := by
  intro G m hm
  rw [mul_assoc] at hm ⊢
  exact h (F * G) m hm

/-- A command on a part `P` of `S`, and then the rest of the program. -/
theorem step {S : Assertion α β} {k : ρ → Cmd α β τ} {t : τ} (hc : Triple P c r Q)
    (F : Assertion α β) (hS : S = P * F) (hk : Triple (Q * F) (k r) t R) :
    Triple S (c >>= k) t R :=
  hS ▸ (hc.frame F).bind hk

/-- The last command, on a part `P` of `S`. -/
theorem last {S : Assertion α β} (hc : Triple P c r Q) (F : Assertion α β) (hS : S = P * F)
    (hR : R = Q * F) : Triple S c r R :=
  hR ▸ hS ▸ hc.frame F

theorem load (p : α) (v : β) : Triple (pointsTo p v) (load p) v (pointsTo p v) := by
  rintro F m hm
  refine ⟨m, ?_, hm⟩
  obtain ⟨x, y, hsplit, hx, -⟩ := hm
  have hp := hsplit p
  have hv : m p = some v := by
    rw [hx.1] at hp
    grind
  rw [Separation.load, hv]
  rfl

variable [DecidableEq α]

theorem store (p : α) (v w : β) : Triple (pointsTo p v) (store p w) () (pointsTo p w) := by
  rintro F m ⟨x, y, hsplit, ⟨hp, hx⟩, hy⟩
  have hsplit_p := hsplit p
  have hsome : (m p).isSome := by grind
  refine ⟨Function.update m p (some w), ?_, Function.update x p (some w), y, ?_, ?_, hy⟩
  · rw [Separation.store, if_pos hsome]
  · intro q
    have hq := hsplit q
    grind [Function.update_apply]
  · constructor
    · exact Function.update_self ..
    · intro q hq
      rw [Function.update_of_ne hq]
      exact hx q hq

theorem free (p : α) (v : β) : Triple (pointsTo p v) (free p) () 1 := by
  rintro F m ⟨x, y, hsplit, ⟨hp, hx⟩, hy⟩
  have hsplit_p := hsplit p
  have hsome : (m p).isSome := by grind
  refine ⟨Function.update m p none, ?_, Function.update x p none, y, ?_, ?_, hy⟩
  · rw [Separation.free, if_pos hsome]
  · intro q
    have hq := hsplit q
    grind [Function.update_apply]
  · intro q
    rcases eq_or_ne q p with rfl | hq
    · exact Function.update_self ..
    · rw [Function.update_of_ne hq]
      exact hx q hq

end Triple

/-- A command that only uses `P`, run in a memory that is nothing else. -/
theorem Triple.run {P Q : Assertion α β} {c : Cmd α β ρ} {r : ρ} {m : Mem α β}
    (h : Triple P c r Q) (hm : P m) : ∃ m', c m = some (r, m') ∧ Q m' := by
  obtain ⟨m', hrun, hm'⟩ := h 1 m (by rwa [mul_one])
  exact ⟨m', hrun, by rwa [mul_one] at hm'⟩

/-- What is allocated is new, whatever there is. -/
theorem run_alloc [DecidableEq α] {P : Assertion α β} {cells : List α} {m : Mem α β} {p : α}
    (hP : P.Covers cells) (hp : p ∉ cells) (v : β) (hm : P m) :
    ∃ m', alloc p v m = some ((), m') ∧ (pointsTo p v * P) m' := by
  have hnone : m p = none := by
    rw [← Option.not_isSome_iff_eq_none, hP m hm]
    exact hp
  refine ⟨Function.update m p (some v), ?_, Function.update (fun _ => none) p (some v), m, ?_, ?_,
    hm⟩
  · rw [alloc, if_neg (by simp [hnone])]
  · intro q
    grind [Function.update_apply]
  · constructor
    · exact Function.update_self ..
    · intro q hq
      exact Function.update_of_ne hq ..

end LinuxInternals.Separation
