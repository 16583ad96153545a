import LinuxInternals.Lib.Stream

/-!
# Streams of records of one size

A channel of elements that is only used in blocks of one fixed size is a channel of
blocks: if its account is faithful element by element, it is faithful block by block.
-/

namespace LinuxInternals

variable {α : Type*} {n : Nat}

def Blocks (n : Nat) (ls : List (List α)) : Prop := ∀ l ∈ ls, l.length = n

theorem Blocks.length_flatten {ls : List (List α)} (h : Blocks n ls) :
    ls.flatten.length = n * ls.length := by
  induction ls with
  | nil => rfl
  | cons l ls ih =>
    obtain ⟨hl, hls⟩ := List.forall_mem_cons.mp h
    rw [List.flatten_cons, List.length_append, hl, ih hls, List.length_cons, Nat.mul_add_one,
      Nat.add_comm]

theorem Blocks.flatten_drop {ls : List (List α)} (h : Blocks n ls) (k : Nat) :
    (ls.drop k).flatten = ls.flatten.drop (n * k) := by
  induction ls generalizing k with
  | nil => simp
  | cons l ls ih =>
    obtain ⟨hl, hls⟩ := List.forall_mem_cons.mp h
    cases k with
    | zero => rfl
    | succ k =>
      rw [List.drop_succ_cons, ih hls, List.flatten_cons, Nat.mul_add_one, Nat.add_comm,
        ← List.drop_drop, ← hl, List.drop_left]

theorem Blocks.drop {ls : List (List α)} (h : Blocks n ls) (k : Nat) : Blocks n (ls.drop k) :=
  fun l hl => h l (List.mem_of_mem_drop hl)

/-- A prefix that consists of blocks is a prefix of the list of blocks. -/
theorem Blocks.prefix_of_flatten (hn : 0 < n) {xs ys : List (List α)} (hxs : Blocks n xs)
    (hys : Blocks n ys) (h : xs.flatten <+: ys.flatten) : xs <+: ys := by
  induction xs generalizing ys with
  | nil => exact List.nil_prefix
  | cons x xs ih =>
    obtain ⟨hx, hxs⟩ := List.forall_mem_cons.mp hxs
    cases ys with
    | nil =>
      have hle := h.length_le
      rw [List.flatten_cons, List.length_append, hx, List.flatten_nil, List.length_nil] at hle
      omega
    | cons y ys =>
      obtain ⟨hy, hysTail⟩ := List.forall_mem_cons.mp hys
      obtain ⟨rest, hrest⟩ := h
      rw [List.flatten_cons, List.flatten_cons, List.append_assoc] at hrest
      obtain ⟨rfl, htail⟩ := List.append_inj hrest (hx.trans hy.symm)
      exact List.cons_prefix_cons.mpr ⟨rfl, ih hxs hysTail ⟨rest, htail⟩⟩

namespace Flow

def flat : Flow (List α) → Flow α
  | .accept xs => .accept xs.flatten
  | .deliver xs => .deliver xs.flatten
  | .discard => .discard

def blocks : Flow (List α) → List (List α)
  | .accept xs | .deliver xs => xs
  | .discard => []

theorem blocks_accepted {fs : List (Flow (List α))} (h : ∀ f ∈ fs, Blocks n f.blocks) :
    Blocks n (ledger fs).accepted := by
  induction fs using List.reverseRecOn with
  | nil => exact List.forall_mem_nil _
  | append_singleton fs f ih =>
    obtain ⟨hfs, hf⟩ := List.forall_mem_append.mp h
    have hblocks := hf f List.mem_cons_self
    rw [ledger_snoc]
    cases f with
    | accept xs => exact List.forall_mem_append.mpr ⟨ih hfs, hblocks⟩
    | deliver xs => exact ih hfs
    | discard => exact ih hfs

theorem ledger_flat {fs : List (Flow (List α))} (h : ∀ f ∈ fs, Blocks n f.blocks) :
    ledger (fs.map flat) = ⟨(ledger fs).accepted.flatten, n * (ledger fs).next⟩ := by
  induction fs using List.reverseRecOn with
  | nil => rfl
  | append_singleton fs f ih =>
    obtain ⟨hfs, hf⟩ := List.forall_mem_append.mp h
    have hblocks := hf f List.mem_cons_self
    rw [List.map_append, List.map_singleton, ledger_snoc, ledger_snoc, ih hfs]
    cases f with
    | accept xs => simp [flat, Ledger.record]
    | deliver xs =>
      have hlen : xs.flatten.length = n * xs.length := Blocks.length_flatten hblocks
      simp only [flat, Ledger.record, Ledger.mk.injEq, true_and]
      rw [hlen, Nat.mul_add]
    | discard =>
      simp only [flat, Ledger.record, Ledger.mk.injEq, true_and]
      exact (blocks_accepted hfs).length_flatten

theorem pending_flat {fs : List (Flow (List α))} (h : ∀ f ∈ fs, Blocks n f.blocks) :
    (ledger (fs.map flat)).pending = (ledger fs).pending.flatten := by
  rw [ledger_flat h]
  exact ((blocks_accepted h).flatten_drop _).symm

theorem faithful_of_flat (hn : 0 < n) {fs : List (Flow (List α))}
    (h : ∀ f ∈ fs, Blocks n f.blocks) (hflat : Faithful (fs.map flat)) : Faithful fs := by
  rintro pre xs post rfl
  obtain ⟨hpre, hrest⟩ := List.forall_mem_append.mp h
  have hxs : Blocks n xs := hrest (.deliver xs) List.mem_cons_self
  have hprefix := hflat (pre.map flat) xs.flatten (post.map flat) (by simp [flat])
  rw [pending_flat hpre] at hprefix
  exact hxs.prefix_of_flatten hn ((blocks_accepted hpre).drop _) hprefix

end Flow

end LinuxInternals
