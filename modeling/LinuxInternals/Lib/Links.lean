import Mathlib.Data.List.Chain
import Mathlib.Data.List.Cycle

/-!
# Doubly linked rings

Memory in which each allocated node holds two pointers. A ring is a cycle of nodes in which
each points to the next one and back. What an operation does to a ring is a sequence of pairs
of stores that make two nodes neighbours: such a pair joins two segments, or closes one to a
ring, and leaves every ring that it does not write to as it was.
-/

namespace LinuxInternals

variable {α : Type*}

structure Link (α : Type*) where
  next : α
  prev : α
deriving DecidableEq, Repr

/-- What is allocated, by address. -/
abbrev Links (α : Type*) := α → Option (Link α)

namespace Links

def next (m : Links α) (p : α) : Option α := (m p).map Link.next

def prev (m : Links α) (p : α) : Option α := (m p).map Link.prev

def Live (m : Links α) (p : α) : Prop := (m p).isSome

/-- `p` and `q` point to each other. -/
def Joined (m : Links α) (p q : α) : Prop := m.next p = some q ∧ m.prev q = some p

def Ring (m : Links α) (c : Cycle α) : Prop := c.Nodup ∧ c.Chain m.Joined

/-- The two memories differ in `t` at most. -/
def Agrees (m : Links α) (t : Set α) (m' : Links α) : Prop := ∀ x, x ∉ t → m' x = m x

/-- What is stored is stored in `t`, and nothing is allocated or freed. -/
structure Writes (m : Links α) (t : Set α) (m' : Links α) : Prop where
  agrees : m.Agrees t m'
  live : ∀ x, m'.Live x ↔ m.Live x

/-- The memory `m'` is `m` with `q` made to follow `p`. -/
structure Rejoins (m : Links α) (p q : α) (m' : Links α) : Prop where
  joined : m'.Joined p q
  next : ∀ x, x ≠ p → m'.next x = m.next x
  prev : ∀ x, x ≠ q → m'.prev x = m.prev x
  writes : m.Writes {p, q} m'

theorem live_iff_next {m : Links α} {p : α} : m.Live p ↔ ∃ q, m.next p = some q := by
  simp [Live, next, Option.isSome_iff_exists]

theorem Joined.live_left {m : Links α} {p q : α} (h : m.Joined p q) : m.Live p :=
  live_iff_next.mpr ⟨q, h.1⟩

theorem Agrees.refl (m : Links α) (t : Set α) : m.Agrees t m := fun _ _ => rfl

theorem Agrees.mono {m m' : Links α} {s t : Set α} (hst : s ⊆ t) (h : m.Agrees s m') :
    m.Agrees t m' :=
  fun x hx => h x fun hs => hx (hst hs)

theorem Agrees.trans {m m' m'' : Links α} {t : Set α} (h : m.Agrees t m')
    (h' : m'.Agrees t m'') : m.Agrees t m'' :=
  fun x hx => (h' x hx).trans (h x hx)

theorem Writes.mono {m m' : Links α} {s t : Set α} (hst : s ⊆ t) (h : m.Writes s m') :
    m.Writes t m' :=
  ⟨h.agrees.mono hst, h.live⟩

theorem Writes.trans {m m' m'' : Links α} {t : Set α} (h : m.Writes t m')
    (h' : m'.Writes t m'') : m.Writes t m'' :=
  ⟨h.agrees.trans h'.agrees, fun x => (h'.live x).trans (h.live x)⟩

section Stores

variable [DecidableEq α]

def setNext (p q : α) (m : Links α) : Option (Links α) :=
  (m p).map fun l => Function.update m p (some { l with next := q })

def setPrev (p q : α) (m : Links α) : Option (Links α) :=
  (m p).map fun l => Function.update m p (some { l with prev := q })

variable {m m' : Links α} {p q : α}

theorem exists_setNext (h : m.Live p) (q : α) : ∃ m', m.setNext p q = some m' := by
  obtain ⟨l, hl⟩ := Option.isSome_iff_exists.mp h
  exact ⟨_, by rw [setNext, hl, Option.map_some]⟩

theorem exists_setPrev (h : m.Live p) (q : α) : ∃ m', m.setPrev p q = some m' := by
  obtain ⟨l, hl⟩ := Option.isSome_iff_exists.mp h
  exact ⟨_, by rw [setPrev, hl, Option.map_some]⟩

theorem writes_setNext (h : m.setNext p q = some m') : m.Writes {p} m' := by
  obtain ⟨l, hl, rfl⟩ := Option.map_eq_some_iff.mp h
  constructor
  · intro x hx
    exact Function.update_of_ne hx _ _
  · intro x
    by_cases hx : x = p
    · simp [Live, hx, hl]
    · simp [Live, Function.update_of_ne hx]

theorem writes_setPrev (h : m.setPrev p q = some m') : m.Writes {p} m' := by
  obtain ⟨l, hl, rfl⟩ := Option.map_eq_some_iff.mp h
  constructor
  · intro x hx
    exact Function.update_of_ne hx _ _
  · intro x
    by_cases hx : x = p
    · simp [Live, hx, hl]
    · simp [Live, Function.update_of_ne hx]

theorem next_setNext_self (h : m.setNext p q = some m') : m'.next p = some q := by
  obtain ⟨l, -, rfl⟩ := Option.map_eq_some_iff.mp h
  simp [next]

theorem prev_setPrev_self (h : m.setPrev p q = some m') : m'.prev p = some q := by
  obtain ⟨l, -, rfl⟩ := Option.map_eq_some_iff.mp h
  simp [prev]

theorem prev_setNext (h : m.setNext p q = some m') (x : α) : m'.prev x = m.prev x := by
  obtain ⟨l, hl, rfl⟩ := Option.map_eq_some_iff.mp h
  by_cases hx : x = p
  · simp [prev, hx, hl]
  · simp [prev, Function.update_of_ne hx]

theorem next_setPrev (h : m.setPrev p q = some m') (x : α) : m'.next x = m.next x := by
  obtain ⟨l, hl, rfl⟩ := Option.map_eq_some_iff.mp h
  by_cases hx : x = p
  · simp [next, hx, hl]
  · simp [next, Function.update_of_ne hx]

theorem next_setNext_of_ne (h : m.setNext p q = some m') {x : α} (hx : x ≠ p) :
    m'.next x = m.next x := by
  rw [next, next, (writes_setNext h).agrees x hx]

theorem prev_setPrev_of_ne (h : m.setPrev p q = some m') {x : α} (hx : x ≠ p) :
    m'.prev x = m.prev x := by
  rw [prev, prev, (writes_setPrev h).agrees x hx]

/-- The two stores, the `prev` pointer first. -/
theorem rejoins_of_setPrev {m₁ : Links α} (h₁ : m.setPrev q p = some m₁)
    (h₂ : m₁.setNext p q = some m') : m.Rejoins p q m' where
  joined := ⟨next_setNext_self h₂, (prev_setNext h₂ q).trans (prev_setPrev_self h₁)⟩
  next x hx := (next_setNext_of_ne h₂ hx).trans (next_setPrev h₁ x)
  prev x hx := (prev_setNext h₂ x).trans (prev_setPrev_of_ne h₁ hx)
  writes := ((writes_setPrev h₁).mono (by simp)).trans ((writes_setNext h₂).mono (by simp))

/-- The two stores, the `next` pointer first. -/
theorem rejoins_of_setNext {m₁ : Links α} (h₁ : m.setNext p q = some m₁)
    (h₂ : m₁.setPrev q p = some m') : m.Rejoins p q m' where
  joined := ⟨(next_setPrev h₂ p).trans (next_setNext_self h₁), prev_setPrev_self h₂⟩
  next x hx := (next_setPrev h₂ x).trans (next_setNext_of_ne h₁ hx)
  prev x hx := (prev_setPrev_of_ne h₂ hx).trans (prev_setNext h₁ x)
  writes := ((writes_setNext h₁).mono (by simp)).trans ((writes_setPrev h₂).mono (by simp))

end Stores

section Segments

variable {m m' : Links α} {p q : α} {l xs ys : List α}

def Seg (m : Links α) (l : List α) : Prop := l.IsChain m.Joined

theorem Rejoins.joined_of_ne (hr : m.Rejoins p q m') {x y : α} (h : m.Joined x y) (hx : x ≠ p)
    (hy : y ≠ q) : m'.Joined x y :=
  ⟨(hr.next x hx).trans h.1, (hr.prev y hy).trans h.2⟩

/-- Only the last node of a segment may be given a new `next`, and only the first a new `prev`. -/
theorem Seg.rejoined (h : m.Seg l) (hr : m.Rejoins p q m') (hp : p ∉ l.dropLast)
    (hq : q ∉ l.tail) : m'.Seg l := by
  induction l with
  | nil => exact List.isChain_nil
  | cons x l ih =>
    cases l with
    | nil => exact List.isChain_singleton x
    | cons y l =>
      obtain ⟨hxy, hl⟩ := List.isChain_cons_cons.mp h
      rw [List.dropLast_cons_cons, List.mem_cons, not_or] at hp
      rw [List.tail_cons, List.mem_cons, not_or] at hq
      apply List.isChain_cons_cons.mpr
      constructor
      · exact hr.joined_of_ne hxy (Ne.symm hp.1) (Ne.symm hq.1)
      · exact ih hl hp.2 hq.2

theorem Seg.append (hxs : m.Seg xs) (hys : m.Seg ys) (hr : m.Rejoins p q m')
    (hp : xs.getLast? = some p) (hq : ys.head? = some q) (hn : (xs ++ ys).Nodup) :
    m'.Seg (xs ++ ys) := by
  obtain ⟨xs, rfl⟩ := List.getLast?_eq_some_iff.mp hp
  obtain ⟨ys, rfl⟩ := List.head?_eq_some_iff.mp hq
  obtain ⟨hnx, hny, hd⟩ := List.nodup_append.mp hn
  have hmem : p ∈ xs ++ [p] := List.mem_append_right _ List.mem_cons_self
  apply List.isChain_append.mpr
  refine ⟨hxs.rejoined hr ?_ ?_, hys.rejoined hr ?_ ?_, ?_⟩
  · rw [List.dropLast_concat]
    exact fun h => List.disjoint_of_nodup_append hnx h List.mem_cons_self
  · intro h
    exact hd q (List.mem_of_mem_tail h) q List.mem_cons_self rfl
  · intro h
    exact hd p hmem p (List.mem_of_mem_dropLast h) rfl
  · rw [List.tail_cons]
    exact (List.nodup_cons.mp hny).1
  · intro x hx y hy
    rw [← Option.some.inj (hp.symm.trans hx), ← Option.some.inj (hq.symm.trans hy)]
    exact hr.joined

/-- A segment whose last node is joined to its first is a ring. -/
theorem Seg.close (hl : m.Seg l) (hr : m.Rejoins p q m') (hp : l.getLast? = some p)
    (hq : l.head? = some q) (hn : l.Nodup) : m'.Ring l := by
  obtain ⟨l, rfl⟩ := List.head?_eq_some_iff.mp hq
  have hseg : m'.Seg (q :: l) := by
    apply hl.rejoined hr
    · obtain ⟨l', hl'⟩ := List.getLast?_eq_some_iff.mp hp
      rw [hl'] at hn ⊢
      rw [List.dropLast_concat]
      exact fun h => List.disjoint_of_nodup_append hn h List.mem_cons_self
    · exact (List.nodup_cons.mp hn).1
  refine ⟨hn, ?_⟩
  rw [Cycle.chain_coe_cons, ← List.cons_append]
  apply List.isChain_append.mpr
  refine ⟨hseg, List.isChain_singleton q, ?_⟩
  intro x hx y hy
  rw [← Option.some.inj (hp.symm.trans hx), ← Option.some.inj hy]
  exact hr.joined

theorem Ring.seg_append (h : m.Ring (p :: l : List α)) : m.Seg (p :: l ++ [p]) := h.2

theorem Ring.seg (h : m.Ring (p :: l : List α)) : m.Seg (p :: l) :=
  (List.isChain_append.mp h.seg_append).1

theorem Ring.nodup (h : m.Ring l) : l.Nodup := h.1

/-- A ring may be read from any of its nodes on. -/
theorem Ring.rotate (h : m.Ring (xs ++ ys : List α)) : m.Ring (ys ++ xs : List α) := by
  have heq : ((ys ++ xs : List α) : Cycle α) = (xs ++ ys : List α) :=
    Cycle.coe_eq_coe.mpr List.isRotated_append
  rw [heq]
  exact h

theorem Ring.to_front (h : m.Ring (p :: (xs ++ q :: ys) : List α)) :
    m.Ring (q :: (ys ++ p :: xs) : List α) :=
  Ring.rotate (show m.Ring (p :: xs ++ q :: ys : List α) from h)

theorem Ring.notMem (h : m.Ring (p :: (xs ++ q :: ys) : List α)) : q ∉ p :: (xs ++ ys) := by
  have hperm : (ys ++ p :: xs).Perm (p :: (xs ++ ys)) := List.perm_append_comm
  intro hmem
  exact (List.nodup_cons.mp h.to_front.nodup).1 (hperm.mem_iff.mpr hmem)

theorem Ring.live (h : m.Ring l) (hp : p ∈ l) : m.Live p := by
  obtain ⟨xs, ys, rfl⟩ := List.append_of_mem hp
  have hseg : m.Seg (p :: (ys ++ xs) ++ [p]) := h.rotate.seg_append
  cases hl : ys ++ xs ++ [p] with
  | nil => exact absurd hl (List.append_ne_nil_of_right_ne_nil _ (List.cons_ne_nil _ _))
  | cons z l =>
    rw [List.cons_append, hl] at hseg
    exact (List.isChain_cons_cons.mp hseg).1.live_left

theorem Joined.of_agrees {t : Set α} (h : m.Joined p q) (ha : m.Agrees t m') (hp : p ∉ t)
    (hq : q ∉ t) : m'.Joined p q := by
  rw [Joined, next, prev, ha p hp, ha q hq]
  exact h

theorem Seg.of_agrees {t : Set α} (h : m.Seg l) (ha : m.Agrees t m') (hl : ∀ x ∈ l, x ∉ t) :
    m'.Seg l := by
  apply List.IsChain.imp_of_mem_imp _ h
  intro a b hma hmb hab
  exact hab.of_agrees ha (hl a hma) (hl b hmb)

theorem Ring.of_agrees {t : Set α} (h : m.Ring l) (ha : m.Agrees t m')
    (hl : ∀ x ∈ l, x ∉ t) : m'.Ring l := by
  refine ⟨h.1, ?_⟩
  cases l with
  | nil => trivial
  | cons x l =>
    apply Seg.of_agrees h.seg_append ha
    intro y hy
    apply hl
    rcases List.mem_append.mp hy with hy | hy
    · exact hy
    · rw [List.mem_singleton.mp hy]
      exact List.mem_cons_self

/-- The memory with the two pointers of each node exchanged. -/
def mirror (m : Links α) : Links α := fun p => (m p).map fun l => ⟨l.prev, l.next⟩

@[simp] theorem next_mirror (m : Links α) (p : α) : m.mirror.next p = m.prev p := by
  simp only [next, mirror, Option.map_map, prev]
  rfl

@[simp] theorem prev_mirror (m : Links α) (p : α) : m.mirror.prev p = m.next p := by
  simp only [prev, mirror, Option.map_map, next]
  rfl

theorem Seg.mirror (h : m.Seg l) : m.mirror.Seg l.reverse := by
  apply List.isChain_reverse.mpr
  apply List.IsChain.imp _ h
  intro p q hpq
  rw [Joined, next_mirror, prev_mirror]
  exact ⟨hpq.2, hpq.1⟩

end Segments

section Rings

variable {m m₁ m' : Links α} {p q e f k new : α} {l xs ys : List α}

theorem Ring.next_eq (h : m.Ring (p :: l : List α)) : m.next p = (l ++ [p]).head? := by
  have hseg := h.seg_append
  cases l with
  | nil => exact (List.isChain_pair.mp hseg).1
  | cons x l => exact (List.isChain_cons_cons.mp hseg).1.1

theorem Ring.prev_eq (h : m.Ring (p :: l : List α)) : m.prev p = (p :: l).getLast? := by
  obtain ⟨-, -, hlast⟩ := List.isChain_append.mp h.seg_append
  have hx := List.getLast?_eq_some_getLast (List.cons_ne_nil p l)
  exact (hlast _ hx p rfl).2.trans hx.symm

theorem Ring.exists_next_of_ne_nil (h : m.Ring (p :: l : List α)) (hl : l ≠ []) :
    ∃ q, m.next p = some q ∧ q ∈ l := by
  obtain ⟨x, l, rfl⟩ := List.exists_cons_of_ne_nil hl
  exact ⟨x, h.next_eq, List.mem_cons_self⟩

theorem Ring.exists_prev_of_ne_nil (h : m.Ring (p :: l : List α)) (hl : l ≠ []) :
    ∃ q, m.prev p = some q ∧ q ∈ l := by
  obtain ⟨x, l, rfl⟩ := List.exists_cons_of_ne_nil hl
  refine ⟨(x :: l).getLast hl, ?_, List.getLast_mem hl⟩
  rw [h.prev_eq, List.getLast?_cons_cons]
  exact List.getLast?_eq_some_getLast hl

theorem Ring.exists_next (h : m.Ring (p :: l : List α)) :
    ∃ q, m.next p = some q ∧ q ∈ p :: l := by
  cases l with
  | nil => exact ⟨p, h.next_eq, List.mem_cons_self⟩
  | cons x l =>
    obtain ⟨q, hq, hmem⟩ := h.exists_next_of_ne_nil (List.cons_ne_nil x l)
    exact ⟨q, hq, List.mem_cons_of_mem p hmem⟩

theorem Ring.exists_prev (h : m.Ring (p :: l : List α)) :
    ∃ q, m.prev p = some q ∧ q ∈ p :: l := by
  cases l with
  | nil => exact ⟨p, h.prev_eq, List.mem_cons_self⟩
  | cons x l =>
    obtain ⟨q, hq, hmem⟩ := h.exists_prev_of_ne_nil (List.cons_ne_nil x l)
    exact ⟨q, hq, List.mem_cons_of_mem p hmem⟩

theorem ring_singleton (h : m.Rejoins p p m') : m'.Ring ([p] : List α) :=
  ⟨List.nodup_singleton p, (Cycle.chain_singleton _ p).mpr h.joined⟩

/-- A new node between `p` and the node after it. -/
theorem Ring.insert (h : m.Ring (p :: l : List α)) (hnew : new ∉ p :: l)
    (hq : m.next p = some q) (h₁ : m.Rejoins new q m₁) (h₂ : m₁.Rejoins p new m') :
    m'.Ring (p :: new :: l : List α) := by
  rw [h.next_eq] at hq
  have hring : m.Ring (l ++ [p] : List α) := Ring.rotate (show m.Ring ([p] ++ l : List α) from h)
  have hn : (new :: (l ++ [p])).Nodup := by
    apply List.nodup_cons.mpr
    constructor
    · intro hmem
      exact hnew ((List.mem_append.mp hmem).elim (List.mem_cons_of_mem p)
        fun hp => List.mem_singleton.mp hp ▸ List.mem_cons_self)
    · exact hring.nodup
  have hseg : m.Seg (l ++ [p]) := (List.isChain_cons.mp h.seg_append).2
  have hlong : m₁.Seg ([new] ++ (l ++ [p])) :=
    Seg.append (List.isChain_singleton new) hseg h₁ rfl hq hn
  have hclosed : m'.Ring ((new :: l) ++ [p] : List α) :=
    Seg.close hlong h₂ List.getLast?_concat rfl hn
  exact hclosed.rotate

/-- The neighbours of `e` are joined to each other. -/
theorem Ring.remove (h : m.Ring (e :: l : List α)) (hl : l ≠ []) (hp : m.prev e = some p)
    (hq : m.next e = some q) (hr : m.Rejoins p q m') : m'.Ring l := by
  obtain ⟨x, l, rfl⟩ := List.exists_cons_of_ne_nil hl
  rw [h.prev_eq, List.getLast?_cons_cons] at hp
  rw [h.next_eq, List.cons_append, List.head?_cons] at hq
  exact Seg.close (List.isChain_cons.mp h.seg).2 hr hp hq (List.nodup_cons.mp h.nodup).2

/-- What hangs between the neighbours of `k` is put between `p` and the node after it. -/
theorem Ring.splice {b : α} (hk : m.Ring (k :: xs : List α)) (h : m.Ring (p :: l : List α))
    (hxs : xs ≠ []) (hd : List.Disjoint (k :: xs) (p :: l)) (hf : m.next k = some f)
    (he : m.prev k = some e) (hb : m.next p = some b) (h₁ : m.Rejoins p f m₁)
    (h₂ : m₁.Rejoins e b m') : m'.Ring (p :: (xs ++ l) : List α) := by
  obtain ⟨x, xs, rfl⟩ := List.exists_cons_of_ne_nil hxs
  rw [hk.next_eq, List.cons_append, List.head?_cons] at hf
  rw [hk.prev_eq, List.getLast?_cons_cons] at he
  rw [h.next_eq] at hb
  have hring : m.Ring (l ++ [p] : List α) := Ring.rotate (show m.Ring ([p] ++ l : List α) from h)
  have hn : ((l ++ [p]) ++ (x :: xs)).Nodup := by
    apply List.Nodup.append hring.nodup (List.nodup_cons.mp hk.nodup).2
    intro y hy hyx
    apply hd (List.mem_cons_of_mem k hyx)
    rcases List.mem_append.mp hy with hy | hy
    · exact List.mem_cons_of_mem p hy
    · rw [List.mem_singleton.mp hy]
      exact List.mem_cons_self
  have hseg : m₁.Seg ((l ++ [p]) ++ (x :: xs)) :=
    Seg.append (List.isChain_cons.mp h.seg_append).2 (List.isChain_cons.mp hk.seg).2 h₁
      List.getLast?_concat hf hn
  have hclosed : m'.Ring ((l ++ [p]) ++ (x :: xs) : List α) := by
    apply Seg.close hseg h₂ _ _ hn
    · rw [List.getLast?_append_of_ne_nil _ (List.cons_ne_nil x xs)]
      exact he
    · rw [List.head?_append_of_ne_nil _ (List.append_ne_nil_of_right_ne_nil l
        (List.cons_ne_nil p []))]
      exact hb
  rw [List.append_assoc] at hclosed
  exact hclosed.rotate

end Rings

end Links

end LinuxInternals
