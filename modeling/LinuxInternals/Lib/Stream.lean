import Mathlib.Data.List.DropRight
import Mathlib.Data.List.Induction

/-!
# Bounded queues and accounts of a stream

`BoundedQueue` is the queue a ring buffer stands for: an append that does not fit
pushes the oldest elements out. `Ledger` keeps the books of a channel over a whole
run: what was accepted, and how much of it has been delivered or discarded. A run
is `Faithful` when each delivery is exactly the next stretch of the stream.
-/

namespace LinuxInternals

variable {α : Type*}

structure BoundedQueue (α : Type*) (cap : Nat) where
  items : List α
  fits : items.length ≤ cap

namespace BoundedQueue

variable {cap : Nat}

@[ext] theorem ext {q r : BoundedQueue α cap} (h : q.items = r.items) : q = r := by
  cases q
  cases r
  congr

def empty : BoundedQueue α cap := ⟨[], Nat.zero_le _⟩

theorem length_rtake (l : List α) (n : Nat) : (l.rtake n).length = min n l.length := by
  rw [List.rtake, List.length_drop]
  omega

/-- Append at the end; the last `cap` elements survive. -/
def push (q : BoundedQueue α cap) (xs : List α) : BoundedQueue α cap :=
  ⟨(q.items ++ xs).rtake cap, by rw [length_rtake]; exact Nat.min_le_left _ _⟩

theorem rtake_min (l : List α) (n : Nat) : l.rtake (min l.length n) = l.rtake n := by
  unfold List.rtake
  congr 1
  omega

theorem push_of_fits (q : BoundedQueue α cap) (xs : List α)
    (h : q.items.length + xs.length ≤ cap) : (q.push xs).items = q.items ++ xs := by
  change (q.items ++ xs).drop ((q.items ++ xs).length - cap) = _
  rw [List.length_append, Nat.sub_eq_zero_of_le h, List.drop_zero]

end BoundedQueue

inductive Flow (α : Type*) where
  | accept (xs : List α)
  | deliver (xs : List α)
  | discard
deriving DecidableEq

/-- `next` elements of `accepted` have left the channel. -/
structure Ledger (α : Type*) where
  accepted : List α
  next : Nat

namespace Ledger

def record (l : Ledger α) : Flow α → Ledger α
  | .accept xs => { l with accepted := l.accepted ++ xs }
  | .deliver xs => { l with next := l.next + xs.length }
  | .discard => { l with next := l.accepted.length }

def pending (l : Ledger α) : List α := l.accepted.drop l.next

theorem pending_accept {l : Ledger α} (h : l.next ≤ l.accepted.length) (xs : List α) :
    (l.record (.accept xs)).pending = l.pending ++ xs := List.drop_append_of_le_length h

theorem pending_deliver {l : Ledger α} {xs rest : List α} (h : l.pending = xs ++ rest) :
    (l.record (.deliver xs)).pending = rest := by
  rw [pending, record, ← List.drop_drop]
  change l.pending.drop xs.length = rest
  rw [h, List.drop_left]

theorem pending_discard (l : Ledger α) : (l.record .discard).pending = [] := List.drop_length

end Ledger

namespace Flow

def ledger (fs : List (Flow α)) : Ledger α := fs.foldl Ledger.record ⟨[], 0⟩

def delivered (fs : List (Flow α)) : List α :=
  fs.flatMap fun
    | .deliver xs => xs
    | _ => []

/-- Each delivery is a prefix of what was pending at that moment. -/
def Faithful (fs : List (Flow α)) : Prop :=
  ∀ pre xs post, fs = pre ++ .deliver xs :: post → xs <+: (ledger pre).pending

@[simp] theorem ledger_nil : ledger ([] : List (Flow α)) = ⟨[], 0⟩ := rfl

theorem ledger_append (fs gs : List (Flow α)) :
    ledger (fs ++ gs) = gs.foldl Ledger.record (ledger fs) := by
  rw [ledger, List.foldl_append, ledger]

@[simp] theorem ledger_snoc (fs : List (Flow α)) (f : Flow α) :
    ledger (fs ++ [f]) = (ledger fs).record f := by
  rw [ledger_append, List.foldl_cons, List.foldl_nil]

@[simp] theorem delivered_nil : delivered ([] : List (Flow α)) = [] := rfl

@[simp] theorem delivered_append (fs gs : List (Flow α)) :
    delivered (fs ++ gs) = delivered fs ++ delivered gs := List.flatMap_append

theorem faithful_nil : Faithful ([] : List (Flow α)) := by
  intro pre xs post h
  simp at h

theorem Faithful.of_append {fs gs : List (Flow α)} (h : Faithful (fs ++ gs)) : Faithful fs := by
  rintro pre xs post rfl
  exact h pre xs (post ++ gs) (by simp)

theorem faithful_snoc_iff (fs : List (Flow α)) (f : Flow α) :
    Faithful (fs ++ [f]) ↔
      Faithful fs ∧ ∀ xs, f = .deliver xs → xs <+: (ledger fs).pending := by
  constructor
  · intro h
    exact ⟨h.of_append, fun xs hxs => h fs xs [] (by rw [hxs])⟩
  · rintro ⟨hfs, hlast⟩ pre xs post heq
    rcases List.eq_nil_or_concat post with rfl | ⟨post, g, rfl⟩
    · obtain ⟨rfl, hf⟩ := List.append_inj' heq rfl
      exact hlast xs (List.head_eq_of_cons_eq hf)
    · rw [List.concat_eq_append, ← List.cons_append, ← List.append_assoc] at heq
      exact hfs pre xs post (List.append_inj' heq rfl).1

theorem Faithful.next_le {fs : List (Flow α)} (h : Faithful fs) :
    (ledger fs).next ≤ (ledger fs).accepted.length := by
  induction fs using List.reverseRecOn with
  | nil => exact Nat.le_refl _
  | append_singleton fs f ih =>
    obtain ⟨hfs, hlast⟩ := (faithful_snoc_iff fs f).mp h
    have hle := ih hfs
    rw [ledger_snoc]
    cases f with
    | accept xs =>
      simp only [Ledger.record, List.length_append]
      omega
    | deliver xs =>
      have hxs := (hlast xs rfl).length_le
      simp only [Ledger.pending, List.length_drop] at hxs
      simp only [Ledger.record]
      omega
    | discard => exact Nat.le_refl _

/-- Nothing is invented, duplicated or reordered: what was delivered is a
subsequence of what was accepted, and what is pending comes after it. -/
theorem Faithful.sublist {fs : List (Flow α)} (h : Faithful fs) :
    (delivered fs ++ (ledger fs).pending).Sublist (ledger fs).accepted := by
  induction fs using List.reverseRecOn with
  | nil => exact List.Sublist.refl _
  | append_singleton fs f ih =>
    obtain ⟨hfs, hlast⟩ := (faithful_snoc_iff fs f).mp h
    have hle := hfs.next_le
    have hsub := ih hfs
    rw [ledger_snoc, delivered_append]
    cases f with
    | accept xs =>
      rw [Ledger.pending_accept hle]
      simpa [delivered, Ledger.record] using hsub.append (List.Sublist.refl xs)
    | deliver xs =>
      obtain ⟨rest, hrest⟩ := hlast xs rfl
      rw [Ledger.pending_deliver hrest.symm]
      simpa [delivered, Ledger.record, hrest] using hsub
    | discard =>
      rw [Ledger.pending_discard]
      simpa [delivered, Ledger.record] using
        (List.sublist_append_left _ _).trans hsub

theorem accepted_append {fs gs : List (Flow α)} (h : ∀ xs, Flow.accept xs ∉ gs) :
    (ledger (fs ++ gs)).accepted = (ledger fs).accepted := by
  induction gs using List.reverseRecOn with
  | nil => rw [List.append_nil]
  | append_singleton gs g ih =>
    rw [← List.append_assoc, ledger_snoc, ← ih fun xs hxs => h xs (List.mem_append_left _ hxs)]
    cases g with
    | accept xs => exact absurd (List.mem_append_right _ List.mem_cons_self) (h xs)
    | deliver | discard => rfl

theorem mem_accepted {fs : List (Flow α)} {x : α} (h : x ∈ (ledger fs).accepted) :
    ∃ xs, Flow.accept xs ∈ fs ∧ x ∈ xs := by
  induction fs using List.reverseRecOn with
  | nil => cases h
  | append_singleton fs f ih =>
    rw [ledger_snoc] at h
    have hlift : x ∈ (ledger fs).accepted → ∃ xs, Flow.accept xs ∈ fs ++ [f] ∧ x ∈ xs := by
      intro hx
      obtain ⟨xs, hxs, hmem⟩ := ih hx
      exact ⟨xs, List.mem_append_left _ hxs, hmem⟩
    cases f with
    | accept xs =>
      rcases List.mem_append.mp h with h | h
      · exact hlift h
      · exact ⟨xs, List.mem_append_right _ List.mem_cons_self, h⟩
    | deliver | discard => exact hlift h

theorem mem_delivered {fs : List (Flow α)} {xs : List α} (h : Flow.deliver xs ∈ fs) {x : α}
    (hx : x ∈ xs) : x ∈ delivered fs := List.mem_flatMap.mpr ⟨.deliver xs, h, hx⟩

theorem delivered_eq_nil {fs : List (Flow α)} (h : ∀ xs, Flow.deliver xs ∉ fs) :
    delivered fs = [] := by
  rw [delivered, List.flatMap_eq_nil_iff]
  rintro (xs | xs | -) hf
  · rfl
  · exact absurd hf (h xs)
  · rfl

/-- Where nothing is discarded, everything is delivered or pending. -/
theorem Faithful.complete {fs : List (Flow α)} (h : Faithful fs) (hkept : Flow.discard ∉ fs) :
    delivered fs ++ (ledger fs).pending = (ledger fs).accepted := by
  induction fs using List.reverseRecOn with
  | nil => rfl
  | append_singleton fs f ih =>
    obtain ⟨hfs, hlast⟩ := (faithful_snoc_iff fs f).mp h
    have hle := hfs.next_le
    have heq := ih hfs fun hmem => hkept (List.mem_append_left _ hmem)
    rw [ledger_snoc, delivered_append]
    cases f with
    | accept xs =>
      rw [Ledger.pending_accept hle]
      simp [delivered, Ledger.record, ← heq]
    | deliver xs =>
      obtain ⟨rest, hrest⟩ := hlast xs rfl
      rw [Ledger.pending_deliver hrest.symm]
      simpa [delivered, Ledger.record, hrest] using heq
    | discard => exact absurd (List.mem_append_right _ List.mem_cons_self) hkept

/-- A faithful account with `rest` still to be delivered. -/
structure Books (fs : List (Flow α)) (rest : List α) : Prop where
  faithful : Faithful fs
  pending : (ledger fs).pending = rest

theorem books_nil : Books ([] : List (Flow α)) [] := ⟨faithful_nil, rfl⟩

theorem Books.accept {fs : List (Flow α)} {rest : List α} (h : Books fs rest) (xs : List α) :
    Books (fs ++ [.accept xs]) (rest ++ xs) where
  faithful := (faithful_snoc_iff _ _).mpr ⟨h.faithful, fun ys hys => by cases hys⟩
  pending := by
    rw [ledger_snoc, ← h.pending]
    exact Ledger.pending_accept h.faithful.next_le xs

theorem Books.deliver {fs : List (Flow α)} {xs rest : List α} (h : Books fs (xs ++ rest)) :
    Books (fs ++ [.deliver xs]) rest where
  faithful := by
    refine (faithful_snoc_iff _ _).mpr ⟨h.faithful, fun ys hys => ?_⟩
    cases hys
    rw [h.pending]
    exact List.prefix_append xs rest
  pending := by
    rw [ledger_snoc]
    exact Ledger.pending_deliver h.pending

theorem Books.discard {fs : List (Flow α)} {rest : List α} (h : Books fs rest) :
    Books (fs ++ [.discard]) [] where
  faithful := (faithful_snoc_iff _ _).mpr ⟨h.faithful, fun ys hys => by cases hys⟩
  pending := by
    rw [ledger_snoc]
    exact Ledger.pending_discard _

end Flow

end LinuxInternals
