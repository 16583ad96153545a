import LinuxInternals.Hlist.Basic

/-!
# The hash chains as parts of the memory

A chain hangs on a pointer: on the `first` of a head, or on the `next` of a node. For each function,
what it makes of the chains and nodes that it is called on; the rest of the memory does not matter.
-/

namespace LinuxInternals.Hlist

open Separation

/-- The contents of an `hlist_node` that is in no chain. -/
def node (n : Addr) (next prev : Option Addr) : Assertion Addr (Option Addr) :=
  pointsTo n next * pointsTo (pprev n) prev

/-- The nodes `l`, one after the other, from the pointer at `p` on. -/
def chain (p : Addr) : List Addr → Assertion Addr (Option Addr)
  | [] => pointsTo p none
  | n :: l => pointsTo p (some n) * (pointsTo (pprev n) (some p) * chain n l)

/-- A chain without the pointer that it hangs on. -/
def hanging (p : Addr) : List Addr → Assertion Addr (Option Addr)
  | [] => 1
  | n :: l => pointsTo (pprev n) (some p) * chain n l

/-- The nodes of a chain up to the pointer that the rest of it hangs on. -/
def front (p : Addr) : List Addr → Assertion Addr (Option Addr)
  | [] => 1
  | n :: l => pointsTo p (some n) * (pointsTo (pprev n) (some p) * front n l)

theorem chain_eq (p : Addr) (l : List Addr) : chain p l = pointsTo p l.head? * hanging p l := by
  cases l with
  | nil => exact (mul_one _).symm
  | cons n l => rfl

theorem chain_cons (p n : Addr) (l : List Addr) :
    chain p (n :: l) = pointsTo p (some n) * (pointsTo (pprev n) (some p) * chain n l) := rfl

/-- The rest of a chain hangs on the last node before it, or on the head. -/
theorem chain_append (p : Addr) (xs l : List Addr) :
    chain p (xs ++ l) = front p xs * chain (xs.getLastD p) l := by
  induction xs generalizing p with
  | nil => exact (one_mul _).symm
  | cons n xs ih =>
    rw [List.cons_append, chain, ih, front, List.getLastD_cons, mul_assoc, mul_assoc]

theorem assign_spec (p : Addr) (a v : Option Addr) :
    Triple (pointsTo p a) (assign (some p) v) () (pointsTo p v) :=
  Triple.store p a v

/-- The first node of the chain is told that it hangs on `q` now. -/
theorem relink_spec (p q : Addr) (l : List Addr) :
    Triple (hanging p l) (relink l.head? (some q)) () (hanging q l) := by
  cases l with
  | nil => exact .ret 1 ()
  | cons n l => exact (Triple.store (pprev n) (some p) (some q)).frame (chain n l)

theorem initHlistNode_spec (n : Addr) (a b : Option Addr) :
    Triple (node n a b) (initHlistNode n) () (node n none none) := by
  apply Triple.step (Triple.store n a none) (pointsTo (pprev n) b) rfl
  exact Triple.last (Triple.store (pprev n) b none) (pointsTo n none) (by ac_rfl) (by
    rw [node]; ac_rfl)

theorem internalHlistDel_spec (q n : Addr) (l : List Addr) :
    Triple (chain q (n :: l)) (internalHlistDel n) () (chain q l * node n l.head? (some q)) := by
  rw [chain_cons, chain_eq n l, chain_eq q l, node]
  apply Triple.step (Triple.load n l.head?)
    (pointsTo q (some n) * (pointsTo (pprev n) (some q) * hanging n l)) (by ac_rfl)
  apply Triple.step (Triple.load (pprev n) (some q))
    (pointsTo n l.head? * (pointsTo q (some n) * hanging n l)) (by ac_rfl)
  apply Triple.step (assign_spec q (some n) l.head?)
    (pointsTo n l.head? * (pointsTo (pprev n) (some q) * hanging n l)) (by ac_rfl)
  apply Triple.last (relink_spec n q l)
    (pointsTo q l.head? * (pointsTo n l.head? * pointsTo (pprev n) (some q))) (by ac_rfl)
  ac_rfl

theorem hlistDel_spec (q n : Addr) (l : List Addr) :
    Triple (chain q (n :: l)) (hlistDel n) () (chain q l * node n LIST_POISON1 LIST_POISON2) := by
  apply Triple.bind (internalHlistDel_spec q n l)
  rw [node, node]
  apply Triple.step (Triple.store n l.head? LIST_POISON1)
    (chain q l * pointsTo (pprev n) (some q)) (by ac_rfl)
  apply Triple.last (Triple.store (pprev n) (some q) LIST_POISON2)
    (chain q l * pointsTo n LIST_POISON1) (by ac_rfl)
  ac_rfl

theorem hlistDelInit_spec (q n : Addr) (l : List Addr) :
    Triple (chain q (n :: l)) (hlistDelInit n) () (chain q l * node n none none) := by
  apply Triple.step (Triple.load (pprev n) (some q)) (pointsTo q (some n) * chain n l)
    (by rw [chain_cons]; ac_rfl)
  apply Triple.step (internalHlistDel_spec q n l) 1
  · rw [mul_one, chain_cons]
    ac_rfl
  · apply Triple.last (initHlistNode_spec n l.head? (some q)) (chain q l)
    · rw [mul_one, mul_comm]
    · exact mul_comm _ _

theorem hlistDelInit_unhashed (n : Addr) (a : Option Addr) :
    Triple (node n a none) (hlistDelInit n) () (node n a none) := by
  apply Triple.step (Triple.load (pprev n) none) (pointsTo n a) (mul_comm _ _)
  rw [mul_comm]
  exact .ret _ ()

theorem hlistAddHead_spec (h n : Addr) (l : List Addr) (a b : Option Addr) :
    Triple (chain h l * node n a b) (hlistAddHead n h) () (chain h (n :: l)) := by
  rw [chain_eq h l, node, chain_cons, chain_eq n l]
  apply Triple.step (Triple.load h l.head?)
    (hanging h l * (pointsTo n a * pointsTo (pprev n) b)) (by ac_rfl)
  apply Triple.step (Triple.store n a l.head?)
    (pointsTo h l.head? * (hanging h l * pointsTo (pprev n) b)) (by ac_rfl)
  apply Triple.step (relink_spec h n l)
    (pointsTo h l.head? * (pointsTo n l.head? * pointsTo (pprev n) b)) (by ac_rfl)
  apply Triple.step (Triple.store h l.head? (some n))
    (hanging n l * (pointsTo n l.head? * pointsTo (pprev n) b)) (by ac_rfl)
  apply Triple.last (Triple.store (pprev n) b (some h))
    (hanging n l * (pointsTo n l.head? * pointsTo h (some n))) (by ac_rfl)
  ac_rfl

theorem hlistAddBefore_spec (q next n : Addr) (l : List Addr) (a b : Option Addr) :
    Triple (chain q (next :: l) * node n a b) (hlistAddBefore n next) ()
      (chain q (n :: next :: l)) := by
  rw [chain_cons, node, chain_cons, chain_cons]
  apply Triple.step (Triple.load (pprev next) (some q))
    (pointsTo q (some next) * (chain next l * (pointsTo n a * pointsTo (pprev n) b))) (by ac_rfl)
  apply Triple.step (Triple.store (pprev n) b (some q))
    (pointsTo (pprev next) (some q) * (pointsTo q (some next) * (chain next l * pointsTo n a)))
    (by ac_rfl)
  apply Triple.step (Triple.store n a (some next))
    (pointsTo (pprev next) (some q) * (pointsTo q (some next) * (chain next l *
      pointsTo (pprev n) (some q)))) (by ac_rfl)
  apply Triple.step (Triple.store (pprev next) (some q) (some n))
    (pointsTo q (some next) * (chain next l * (pointsTo n (some next) *
      pointsTo (pprev n) (some q)))) (by ac_rfl)
  apply Triple.step (Triple.load (pprev n) (some q))
    (pointsTo (pprev next) (some n) * (pointsTo q (some next) * (chain next l *
      pointsTo n (some next)))) (by ac_rfl)
  apply Triple.last (assign_spec q (some next) (some n))
    (pointsTo (pprev next) (some n) * (pointsTo (pprev n) (some q) * (chain next l *
      pointsTo n (some next)))) (by ac_rfl)
  ac_rfl

theorem hlistAddAfter_spec (n next : Addr) (l : List Addr) (a b : Option Addr) :
    Triple (chain n l * node next a b) (hlistAddAfter n next) () (chain n (next :: l)) := by
  rw [chain_eq n l, node, chain_cons, chain_eq next l]
  apply Triple.step (Triple.load n l.head?)
    (hanging n l * (pointsTo next a * pointsTo (pprev next) b)) (by ac_rfl)
  apply Triple.step (Triple.store next a l.head?)
    (pointsTo n l.head? * (hanging n l * pointsTo (pprev next) b)) (by ac_rfl)
  apply Triple.step (Triple.store n l.head? (some next))
    (pointsTo next l.head? * (hanging n l * pointsTo (pprev next) b)) (by ac_rfl)
  apply Triple.step (Triple.store (pprev next) b (some n))
    (pointsTo next l.head? * (hanging n l * pointsTo n (some next))) (by ac_rfl)
  apply Triple.step (Triple.load next l.head?)
    (pointsTo (pprev next) (some n) * (hanging n l * pointsTo n (some next))) (by ac_rfl)
  apply Triple.last (relink_spec n next l)
    (pointsTo (pprev next) (some n) * (pointsTo next l.head? * pointsTo n (some next))) (by ac_rfl)
  ac_rfl

theorem hlistUnhashed_chain (q n : Addr) (l : List Addr) :
    Triple (chain q (n :: l)) (hlistUnhashed n) false (chain q (n :: l)) := by
  have hswap : chain q (n :: l) =
      pointsTo (pprev n) (some q) * (pointsTo q (some n) * chain n l) := mul_left_comm ..
  apply Triple.step (Triple.load (pprev n) (some q)) _ hswap
  rw [← hswap]
  exact .ret _ false

theorem hlistUnhashed_node (n : Addr) (a b : Option Addr) :
    Triple (node n a b) (hlistUnhashed n) b.isNone (node n a b) := by
  apply Triple.step (Triple.load (pprev n) b) (pointsTo n a) (mul_comm _ _)
  rw [mul_comm]
  exact .ret _ b.isNone

theorem hlistEmpty_spec (h : Addr) (l : List Addr) :
    Triple (chain h l) (hlistEmpty h) l.isEmpty (chain h l) := by
  apply Triple.step (Triple.load h l.head?) (hanging h l) (chain_eq h l)
  rw [← chain_eq]
  cases l with
  | nil => exact .ret _ true
  | cons n l => exact .ret _ false

/-- The body of `hlist_for_each` runs on the nodes in order. -/
theorem forEach_spec (p : Addr) (l : List Addr) {fuel : Nat} (hfuel : l.length ≤ fuel) :
    Triple (hanging p l) (forEach fuel l.head?) l (hanging p l) := by
  induction l generalizing p fuel with
  | nil =>
    cases fuel with
    | zero => exact .ret _ []
    | succ fuel => exact .ret _ []
  | cons n l ih =>
    obtain ⟨fuel, rfl⟩ := Nat.exists_eq_add_one.mpr (Nat.zero_lt_of_lt hfuel)
    have hchain : hanging p (n :: l) =
        pointsTo n l.head? * (pointsTo (pprev n) (some p) * hanging n l) := by
      rw [hanging, chain_eq, mul_left_comm]
    rw [hchain]
    apply Triple.step (Triple.load n l.head?) _ rfl
    apply Triple.step (ih n (Nat.le_of_succ_le_succ hfuel))
      (pointsTo n l.head? * pointsTo (pprev n) (some p)) (by ac_rfl)
    rw [mul_comm, mul_assoc]
    exact .ret _ (n :: l)

theorem hlistForEach_spec (p : Addr) (l : List Addr) {fuel : Nat} (hfuel : l.length ≤ fuel) :
    Triple (chain p l) (hlistForEach fuel p) l (chain p l) := by
  rw [chain_eq]
  apply Triple.step (Triple.load p l.head?) _ rfl
  exact Triple.last (forEach_spec p l hfuel) (pointsTo p l.head?) (mul_comm _ _) (mul_comm _ _)

/-- A safe walk that deletes some of the nodes. -/
theorem forEachSafe_spec (victims : List Addr) (p : Addr) (l : List Addr) {fuel : Nat}
    (hfuel : l.length ≤ fuel) :
    Triple (chain p l) (forEachSafe (delete victims) fuel l.head?) ()
      (chain p (l.filter (· ∉ victims)) *
        ((l.filter (· ∈ victims)).map fun n => node n LIST_POISON1 LIST_POISON2).prod) := by
  induction l generalizing p fuel with
  | nil =>
    rw [List.filter_nil, List.filter_nil, List.map_nil, List.prod_nil, mul_one]
    cases fuel with
    | zero => exact .ret _ ()
    | succ fuel => exact .ret _ ()
  | cons n l ih =>
    obtain ⟨fuel, rfl⟩ := Nat.exists_eq_add_one.mpr (Nat.zero_lt_of_lt hfuel)
    have hrest := Nat.le_of_succ_le_succ hfuel
    have hchain : chain p (n :: l) = pointsTo n l.head? *
        (pointsTo p (some n) * (pointsTo (pprev n) (some p) * hanging n l)) := by
      rw [chain_cons, chain_eq n l]
      ac_rfl
    apply Triple.step (Triple.load n l.head?) _ hchain
    rw [← hchain]
    by_cases hn : n ∈ victims
    · rw [List.filter_cons_of_neg (by simpa using hn), List.filter_cons_of_pos (by simpa using hn),
        List.map_cons, List.prod_cons]
      apply Triple.bind (r := ())
      · rw [delete, if_pos hn]
        exact hlistDel_spec p n l
      · apply Triple.last (ih p hrest) (node n LIST_POISON1 LIST_POISON2) rfl
        ac_rfl
    · rw [List.filter_cons_of_pos (by simpa using hn), List.filter_cons_of_neg (by simpa using hn)]
      apply Triple.bind (r := ()) (Q := chain p (n :: l))
      · rw [delete, if_neg hn]
        exact .ret _ ()
      · apply Triple.last (ih n hrest) (pointsTo p (some n) * pointsTo (pprev n) (some p))
        · rw [chain_cons]
          ac_rfl
        · rw [chain_cons]
          ac_rfl

theorem hlistForEachSafe_spec (victims : List Addr) (p : Addr) (l : List Addr) {fuel : Nat}
    (hfuel : l.length ≤ fuel) :
    Triple (chain p l) (hlistForEachSafe (delete victims) fuel p) ()
      (chain p (l.filter (· ∉ victims)) *
        ((l.filter (· ∈ victims)).map fun n => node n LIST_POISON1 LIST_POISON2).prod) := by
  apply Triple.step (Triple.load p l.head?) _ (chain_eq p l)
  rw [← chain_eq]
  exact forEachSafe_spec victims p l hfuel

/-- What is done to the end of a chain is done to the chain. -/
theorem within {h : Addr} {xs l r : List Addr} {P Q : Assertion Addr (Option Addr)} {ρ : Type}
    {c : Code ρ} {x : ρ}
    (hc : Triple (chain (xs.getLastD h) l * P) c x (chain (xs.getLastD h) r * Q)) :
    Triple (chain h (xs ++ l) * P) c x (chain h (xs ++ r) * Q) := by
  rw [chain_append, chain_append]
  apply Triple.last hc (front h xs)
  · ac_rfl
  · ac_rfl

end LinuxInternals.Hlist
