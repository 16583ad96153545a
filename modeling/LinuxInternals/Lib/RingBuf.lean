import LinuxInternals.Lib.CData
import Mathlib.Data.List.GetD

/-!
# Rings in flat memory

A ring of capacity `cap` reads an array modulo `cap`, starting at an index that may
equal `cap` itself. Storing a block into a ring is two copies at most, split at the
end of the array; `ringStore` says what both shapes of the copy come to.
-/

namespace LinuxInternals.RingBuf

open CData

variable {α : Type*}

def ring (data : Nat → α) (start n cap : Nat) : List α :=
  (List.range n).map fun i => data ((start + i) % cap)

@[simp] theorem length_ring (data : Nat → α) (start n cap : Nat) :
    (ring data start n cap).length = n := by
  simp [ring]

@[simp] theorem getElem_ring (data : Nat → α) (start n cap i : Nat)
    (h : i < (ring data start n cap).length) :
    (ring data start n cap)[i] = data ((start + i) % cap) := by
  simp [ring]

theorem take_ring (data : Nat → α) (start n cap k : Nat) (h : k ≤ n) :
    (ring data start n cap).take k = ring data start k cap := by
  apply List.ext_getElem (by simp [h])
  intro i _ _
  simp

theorem drop_ring (data : Nat → α) {start start' n cap k : Nat}
    (h : start' % cap = (start + k) % cap) :
    (ring data start n cap).drop k = ring data start' (n - k) cap := by
  apply List.ext_getElem (by simp)
  intro i _ _
  simp only [List.getElem_drop, getElem_ring]
  congr 1
  rw [← Nat.add_assoc, Nat.add_mod, ← h, ← Nat.add_mod]

/-- Store `n` items into the slots `start, start + 1, …` of the ring. -/
def ringStore (data : Nat → α) (start n cap : Nat) (items : Nat → α) : Nat → α :=
  fun j => if j < cap ∧ (j + cap - start) % cap < n then items ((j + cap - start) % cap)
    else data j

section Store

variable {data items : Nat → α} {start n cap : Nat}

theorem distance (hs : start < cap) {i : Nat} (hi : i < cap) :
    ((start + i) % cap + cap - start) % cap = i := by
  rw [mod_once (by omega : start + i < 2 * cap)]
  split
  · rw [mod_once (by omega), if_neg (by omega)]
    omega
  · rw [mod_once (by omega), if_pos (by omega)]
    omega

theorem ringStore_inside (hs : start < cap) {i : Nat} (hi : i < n) (hn : n ≤ cap) :
    ringStore data start n cap items ((start + i) % cap) = items i := by
  have hlt : (start + i) % cap < cap := Nat.mod_lt _ (by omega)
  rw [ringStore, distance hs (by omega), if_pos ⟨hlt, hi⟩]

theorem ringStore_outside (hs : start < cap) {i : Nat} (hi : n ≤ i) (hn : i < cap) :
    ringStore data start n cap items ((start + i) % cap) = data ((start + i) % cap) := by
  rw [ringStore, distance hs hn, if_neg (by omega)]

theorem memcpy_eq_ringStore (h : start + n ≤ cap) :
    memcpy data start items 0 n = ringStore data start n cap items := by
  funext j
  rw [memcpy, ringStore]
  by_cases hj : j < cap
  · by_cases hjs : start ≤ j
    · have hd : (j + cap - start) % cap = j - start := by
        rw [mod_once (by omega), if_neg (by omega)]
        omega
      simp only [hd, hj, true_and, Nat.zero_add]
      split <;> split <;> first | rfl | omega
    · have hd : (j + cap - start) % cap = j + cap - start := Nat.mod_eq_of_lt (by omega)
      rw [hd, if_neg (by omega), if_neg (by omega)]
  · rw [if_neg (by omega), if_neg (by omega)]

theorem memcpy_memcpy_eq_ringStore (hs : start < cap) (h : cap < start + n) (hn : n ≤ cap) :
    memcpy (memcpy data start items 0 (cap - start)) 0 items (cap - start)
      (n - (cap - start)) = ringStore data start n cap items := by
  funext j
  rw [memcpy, memcpy, ringStore]
  by_cases hj : j < cap
  · by_cases hjs : start ≤ j
    · have hd : (j + cap - start) % cap = j - start := by
        rw [mod_once (by omega), if_neg (by omega)]
        omega
      rw [if_neg (by omega), if_pos (by omega), hd, if_pos (by omega), Nat.zero_add]
    · have hd : (j + cap - start) % cap = j + cap - start := Nat.mod_eq_of_lt (by omega)
      rw [hd]
      by_cases hjn : j + cap - start < n
      · rw [if_pos (by omega), if_pos ⟨hj, hjn⟩]
        congr 1
        omega
      · rw [if_neg (by omega), if_neg (by omega), if_neg (by omega)]
  · rw [if_neg (by omega), if_neg (by omega), if_neg (by omega)]

theorem ringStore_zero (data items : Nat → α) (start cap : Nat) :
    ringStore data start 0 cap items = data := by
  funext j
  rw [ringStore, if_neg (by omega)]

theorem ringStore_succ (data items : Nat → α) (hs : start < cap) (hn : n < cap) :
    ringStore data start (n + 1) cap items =
      Function.update (ringStore data start n cap items) ((start + n) % cap) (items n) := by
  funext j
  by_cases hj : j = (start + n) % cap
  · rw [hj, Function.update_self, ringStore_inside hs (Nat.lt_succ_self n) hn]
  · rw [Function.update_of_ne hj, ringStore, ringStore]
    by_cases hjcap : j < cap
    · have hdist : (j + cap - start) % cap ≠ n := by
        intro heq
        apply hj
        rw [← heq, Nat.add_mod_mod, show start + (j + cap - start) = j + cap by omega,
          Nat.add_mod_right, Nat.mod_eq_of_lt hjcap]
      simp only [hjcap, true_and]
      congr 1
      exact propext ⟨fun h => by omega, fun h => by omega⟩
    · rw [if_neg (by omega), if_neg (by omega)]

/-- The last `n` of `size + n` ring elements are the stored items; `excess` of the old
elements give up their slots when there is no room. -/
theorem ring_ringStore (data items : Nat → α) {head head' size excess : Nat} (hsize : size ≤ cap)
    (hcap : 0 < cap) (hn : n ≤ cap) (hfit : size + n - excess ≤ cap)
    (hstart : start = (head + size) % cap) (hhead' : head' % cap = (head + excess) % cap) :
    ring (ringStore data start n cap items) head' (size + n - excess) cap =
      (ring data head size cap ++ read items n).drop excess := by
  have hslt : start < cap := hstart ▸ Nat.mod_lt _ hcap
  have hslot : ∀ i, (head' + i) % cap = (head + excess + i) % cap := by
    intro i
    rw [Nat.add_mod, hhead', ← Nat.add_mod]
  apply List.ext_getElem (by simp)
  intro i hi _
  rw [length_ring] at hi
  simp only [getElem_ring, List.getElem_drop, hslot]
  by_cases hold : excess + i < size
  · have hback : (head + excess + i) % cap = (start + (cap - size + excess + i)) % cap := by
      rw [hstart, Nat.mod_add_mod]
      have hturn : head + size + (cap - size + excess + i) = head + excess + i + cap := by omega
      rw [hturn, Nat.add_mod_right]
    rw [List.getElem_append_left (by simpa using hold), getElem_ring, hback,
      ringStore_outside hslt (by omega) (by omega), ← hback]
    congr 2
    omega
  · have hnew : (head + excess + i) % cap = (start + (excess + i - size)) % cap := by
      rw [hstart, Nat.mod_add_mod]
      congr 1
      omega
    rw [List.getElem_append_right (by simpa using hold), hnew,
      ringStore_inside hslt (by omega) hn]
    simp

end Store

theorem read_memcpy_ring {data items : Nat → α} {head n cap : Nat} (h : head + n ≤ cap) :
    read (memcpy items 0 data head n) n = ring data head n cap := by
  apply List.ext_getElem (by simp)
  intro i hi _
  rw [length_read] at hi
  rw [getElem_read, getElem_ring, memcpy, if_pos (by omega), Nat.mod_eq_of_lt (by omega)]
  congr 1

theorem read_memcpy_memcpy_ring {data items : Nat → α} {head n cap : Nat} (hhead : head ≤ cap)
    (h : cap < head + n) (hn : n ≤ cap) :
    read (memcpy (memcpy items 0 data head (cap - head)) (cap - head) data 0
      (n - (cap - head))) n = ring data head n cap := by
  apply List.ext_getElem (by simp)
  intro i hi _
  rw [length_read] at hi
  rw [getElem_read, getElem_ring, memcpy, memcpy]
  by_cases hic : i < cap - head
  · rw [if_neg (by omega), if_pos (by omega), Nat.mod_eq_of_lt (by omega)]
    congr 1
  · rw [if_pos (by omega), Nat.mod_eq_sub_mod (by omega), Nat.mod_eq_of_lt (by omega)]
    congr 1
    omega

end LinuxInternals.RingBuf
