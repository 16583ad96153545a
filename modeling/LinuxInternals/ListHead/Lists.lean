import LinuxInternals.Lib.Machine
import LinuxInternals.ListHead.Rings

/-!
# What the calls of `list.h` mean

A memory holds lists: some nodes are heads, each with its entries in order, and some nodes are
allocated and in no list. `Calls` says when a call is allowed and what it makes of the lists,
without a word about pointers. A call takes nodes out of the lists into its hand, stores in these
only, and puts them back.
-/

namespace LinuxInternals.ListHead

open Links

/-- The entries behind each head, and the nodes that are in no list. -/
structure Lists where
  entries : Addr → Option (List Addr)
  loose : Set Addr

namespace Lists

def empty : Lists := ⟨fun _ => none, ∅⟩

/-- The list of `head` becomes `l`. -/
def put (s : Lists) (head : Addr) (l : List Addr) : Lists :=
  { s with entries := Function.update s.entries head (some l) }

/-- `head` is a head no more. -/
def drop (s : Lists) (head : Addr) : Lists :=
  { s with entries := Function.update s.entries head none }

def take (s : Lists) (a : Addr) : Lists := { s with loose := s.loose \ {a} }

def release (s : Lists) (a : Addr) : Lists := { s with loose := insert a s.loose }

/-- The nodes `victims` leave the list `l` of `head`. -/
def delete (s : Lists) (head : Addr) (l victims : List Addr) : Lists where
  entries := Function.update s.entries head (some (l.filter (· ∉ victims)))
  loose := s.loose ∪ {x | x ∈ l ∧ x ∈ victims}

def Member (s : Lists) (a : Addr) : Prop := ∃ h l, s.entries h = some l ∧ a ∈ h :: l

def nodes (s : Lists) : Set Addr := {a | a ∈ s.loose ∨ s.Member a}

/-- A node that is not in use: it is loose, or the head of an empty list. -/
inductive Taken (s : Lists) (a : Addr) : Lists → Prop where
  | loose : a ∈ s.loose → s.Taken a (s.take a)
  | head : s.entries a = some [] → s.Taken a (s.drop a)

end Lists

/-- The memory `m` consists of the lists `s` and of the nodes `hand`, which a call has taken out
of them. -/
structure Holds (m : Heap) (s : Lists) (hand : Set Addr) : Prop where
  ring : ∀ h l, s.entries h = some l → m.Ring (h :: l : List Addr)
  apart : ∀ h k l r, s.entries h = some l → s.entries k = some r → h ≠ k →
    List.Disjoint (h :: l) (k :: r)
  loose : ∀ a ∈ s.loose, ¬s.Member a
  held : ∀ a ∈ hand, a ∉ s.nodes
  live : ∀ a, m.Live a ↔ a ∈ s.nodes ∨ a ∈ hand

inductive Op where
  | alloc (a : Addr) (garbage : Link Addr)
  | free (a : Addr)
  | initListHead (ptr : Addr)
  | listAdd (new head : Addr)
  | listAddTail (new head : Addr)
  | listDel (entry : Addr)
  | listDelInit (entry : Addr)
  | listMove (list head : Addr)
  | listMoveTail (list head : Addr)
  | listEmpty (head : Addr)
  | listSplice (list head : Addr)
  | listSpliceInit (list head : Addr)
  | listForEach (fuel : Nat) (head : Addr)
  | listForEachEntryReverse (fuel : Nat) (head : Addr)
  | listForEachSafe (victims : List Addr) (fuel : Nat) (head : Addr)
deriving DecidableEq, Repr

inductive Answer where
  | nothing
  | truth (b : Bool)
  | nodes (l : List Addr)
deriving DecidableEq, Repr

def Op.run (m : Heap) : Op → Option (Heap × Answer)
  | .alloc a garbage =>
    if (m a).isSome then none else some (Function.update m a (some garbage), .nothing)
  | .free a => if (m a).isSome then some (Function.update m a none, .nothing) else none
  | .initListHead ptr => (ListHead.initListHead ptr m).map (·, .nothing)
  | .listAdd new head => (ListHead.listAdd new head m).map (·, .nothing)
  | .listAddTail new head => (ListHead.listAddTail new head m).map (·, .nothing)
  | .listDel entry => (ListHead.listDel entry m).map (·, .nothing)
  | .listDelInit entry => (ListHead.listDelInit entry m).map (·, .nothing)
  | .listMove list head => (ListHead.listMove list head m).map (·, .nothing)
  | .listMoveTail list head => (ListHead.listMoveTail list head m).map (·, .nothing)
  | .listEmpty head => (ListHead.listEmpty head m).map fun b => (m, .truth b)
  | .listSplice list head => (ListHead.listSplice list head m).map (·, .nothing)
  | .listSpliceInit list head => (ListHead.listSpliceInit list head m).map (·, .nothing)
  | .listForEach fuel head => (ListHead.listForEach fuel head m).map fun l => (m, .nodes l)
  | .listForEachEntryReverse fuel head =>
    (ListHead.listForEachEntryReverse fuel head m).map fun l => (m, .nodes l)
  | .listForEachSafe victims fuel head =>
    (ListHead.listForEachSafe id (delete victims) head fuel m).map (·, .nothing)

/-- The calls that `list.h` allows on the lists `s`, what the lists are after them, and the
answer. An entry is known by the list that it is in. -/
inductive Calls (s : Lists) : Op → Lists → Answer → Prop where
  | alloc {a : Addr} (garbage : Link Addr) : a ∉ s.nodes →
    Calls s (.alloc a garbage) (s.release a) .nothing
  | free {a : Addr} {s' : Lists} : s.Taken a s' → Calls s (.free a) s' .nothing
  | initListHead {ptr : Addr} {s' : Lists} : s.Taken ptr s' →
    Calls s (.initListHead ptr) (s'.put ptr []) .nothing
  | listAdd {new head : Addr} {l : List Addr} {s' : Lists} : s.Taken new s' →
    s'.entries head = some l → Calls s (.listAdd new head) (s'.put head (new :: l)) .nothing
  | listAddTail {new head : Addr} {l : List Addr} {s' : Lists} : s.Taken new s' →
    s'.entries head = some l → Calls s (.listAddTail new head) (s'.put head (l ++ [new])) .nothing
  | listDel {head entry : Addr} {xs ys : List Addr} :
    s.entries head = some (xs ++ entry :: ys) →
    Calls s (.listDel entry) ((s.put head (xs ++ ys)).release entry) .nothing
  | listDelInit {head entry : Addr} {xs ys : List Addr} :
    s.entries head = some (xs ++ entry :: ys) →
    Calls s (.listDelInit entry) ((s.put head (xs ++ ys)).put entry []) .nothing
  | listMove {from_ list head : Addr} {xs ys l : List Addr} :
    s.entries from_ = some (xs ++ list :: ys) →
    (s.put from_ (xs ++ ys)).entries head = some l →
    Calls s (.listMove list head) ((s.put from_ (xs ++ ys)).put head (list :: l)) .nothing
  | listMoveTail {from_ list head : Addr} {xs ys l : List Addr} :
    s.entries from_ = some (xs ++ list :: ys) →
    (s.put from_ (xs ++ ys)).entries head = some l →
    Calls s (.listMoveTail list head) ((s.put from_ (xs ++ ys)).put head (l ++ [list])) .nothing
  | listEmpty {head : Addr} {l : List Addr} : s.entries head = some l →
    Calls s (.listEmpty head) s (.truth (l = []))
  | listSplice {list head : Addr} {xs l : List Addr} : list ≠ head →
    s.entries list = some xs → s.entries head = some l → xs ≠ [] →
    Calls s (.listSplice list head) (((s.drop list).release list).put head (xs ++ l)) .nothing
  | listSpliceEmpty {list head : Addr} : s.entries list = some [] →
    Calls s (.listSplice list head) s .nothing
  | listSpliceInit {list head : Addr} {xs l : List Addr} : list ≠ head →
    s.entries list = some xs → s.entries head = some l →
    Calls s (.listSpliceInit list head) ((s.put list []).put head (xs ++ l)) .nothing
  | listForEach {fuel : Nat} {head : Addr} {l : List Addr} : s.entries head = some l →
    l.length < fuel → Calls s (.listForEach fuel head) s (.nodes l)
  | listForEachEntryReverse {fuel : Nat} {head : Addr} {l : List Addr} :
    s.entries head = some l → l.length < fuel →
    Calls s (.listForEachEntryReverse fuel head) s (.nodes l.reverse)
  | listForEachSafe (victims : List Addr) {fuel : Nat} {head : Addr} {l : List Addr} :
    s.entries head = some l → l.length < fuel →
    Calls s (.listForEachSafe victims fuel head) (s.delete head l victims) .nothing

/-- A sequence of allowed calls, with their answers. -/
inductive Session : Lists → List Op → Lists → List Answer → Prop where
  | nil (s : Lists) : Session s [] s []
  | cons {s s' s'' : Lists} {op : Op} {ops : List Op} {a : Answer} {as : List Answer} :
    Calls s op s' a → Session s' ops s'' as → Session s (op :: ops) s'' (a :: as)

/-- The memory under the calls, empty at first. -/
def machine : Machine Heap Op Answer where
  init _ := none
  step m op := (op.run m).map fun r => (r.1, [r.2])

variable {m m' : Heap} {s s' : Lists} {hand : Set Addr} {a head : Addr} {l : List Addr}

namespace Lists

@[simp] theorem entries_put_self (s : Lists) (head : Addr) (l : List Addr) :
    (s.put head l).entries head = some l :=
  Function.update_self ..

theorem entries_put_of_ne (s : Lists) (l : List Addr) {h head : Addr} (hne : h ≠ head) :
    (s.put head l).entries h = s.entries h :=
  Function.update_of_ne hne ..

@[simp] theorem entries_drop_self (s : Lists) (head : Addr) : (s.drop head).entries head = none :=
  Function.update_self ..

theorem entries_drop_of_ne (s : Lists) {h head : Addr} (hne : h ≠ head) :
    (s.drop head).entries h = s.entries h :=
  Function.update_of_ne hne ..

@[simp] theorem put_drop (s : Lists) (head : Addr) (l : List Addr) :
    (s.drop head).put head l = s.put head l := by
  simp [put, drop]

@[simp] theorem put_put (s : Lists) (head : Addr) (l r : List Addr) :
    (s.put head l).put head r = s.put head r := by
  simp [put]

theorem put_eq_self (hl : s.entries head = some l) : s.put head l = s := by
  obtain ⟨entries, loose⟩ := s
  simp only [put, Lists.mk.injEq, and_true]
  exact Function.update_eq_self_iff.mpr hl.symm

theorem put_comm (s : Lists) {h k : Addr} (hne : h ≠ k) (l r : List Addr) :
    (s.put h l).put k r = (s.put k r).put h l := by
  simp only [put, Function.update_comm hne]

theorem drop_put_of_ne (s : Lists) {h k : Addr} (hne : h ≠ k) (l : List Addr) :
    (s.drop h).put k l = (s.put k l).drop h := by
  simp only [put, drop, Function.update_comm hne]

theorem entries_of_drop {h : Addr} {l : List Addr} (he : (s.drop head).entries h = some l) :
    h ≠ head ∧ s.entries h = some l := by
  have hne : h ≠ head := by
    rintro rfl
    exact absurd he (by simp)
  exact ⟨hne, (s.entries_drop_of_ne hne).symm.trans he⟩

theorem mem_nodes_put (hs : s.entries head = none) :
    a ∈ (s.put head l).nodes ↔ a ∈ s.nodes ∨ a ∈ head :: l := by
  constructor
  · rintro (ha | ⟨h, r, he, ha⟩)
    · exact Or.inl (Or.inl ha)
    · by_cases hh : h = head
      · subst hh
        rw [entries_put_self] at he
        exact Or.inr (Option.some.inj he ▸ ha)
      · rw [s.entries_put_of_ne l hh] at he
        exact Or.inl (Or.inr ⟨h, r, he, ha⟩)
  · rintro ((ha | ⟨h, r, he, ha⟩) | ha)
    · exact Or.inl ha
    · refine Or.inr ⟨h, r, ?_, ha⟩
      rw [s.entries_put_of_ne l]
      · exact he
      · rintro rfl
        exact absurd (hs.symm.trans he) (by simp)
    · exact Or.inr ⟨head, l, s.entries_put_self head l, ha⟩

end Lists

theorem Holds.mem_nodes_drop (h : Holds m s hand) (hl : s.entries head = some l) :
    a ∈ (s.drop head).nodes ↔ a ∈ s.nodes ∧ a ∉ head :: l := by
  constructor
  · rintro (ha | ⟨k, r, he, ha⟩)
    · exact ⟨Or.inl ha, fun hmem => h.loose a ha ⟨head, l, hl, hmem⟩⟩
    · obtain ⟨hne, he⟩ := Lists.entries_of_drop he
      exact ⟨Or.inr ⟨k, r, he, ha⟩, fun hmem => h.apart k head r l he hl hne ha hmem⟩
  · rintro ⟨ha | ⟨k, r, he, ha⟩, hout⟩
    · exact Or.inl ha
    · refine Or.inr ⟨k, r, ?_, ha⟩
      rw [s.entries_drop_of_ne]
      · exact he
      · rintro rfl
        rw [he] at hl
        exact hout (Option.some.inj hl ▸ ha)

theorem Holds.mem_nodes_take (h : Holds m s hand) (ha : a ∈ s.loose) {x : Addr} :
    x ∈ (s.take a).nodes ↔ x ∈ s.nodes ∧ x ≠ a := by
  constructor
  · rintro (hx | hx)
    · exact ⟨Or.inl hx.1, hx.2⟩
    · exact ⟨Or.inr hx, fun hxa => h.loose a ha (hxa ▸ hx)⟩
  · rintro ⟨hx | hx, hne⟩
    · exact Or.inl ⟨hx, hne⟩
    · exact Or.inr hx

theorem Lists.mem_nodes_release {x : Addr} : x ∈ (s.release a).nodes ↔ x ∈ s.nodes ∨ x = a := by
  constructor
  · rintro ((hx | hx) | hx)
    · exact Or.inr hx
    · exact Or.inl (Or.inl hx)
    · exact Or.inl (Or.inr hx)
  · rintro ((hx | hx) | hx)
    · exact Or.inl (Or.inr hx)
    · exact Or.inr hx
    · exact Or.inl (Or.inl hx)

/-- A whole list is taken into the hand. -/
theorem Holds.open (h : Holds m s hand) (hl : s.entries head = some l) :
    Holds m (s.drop head) (hand ∪ {x | x ∈ head :: l}) where
  ring k r he := h.ring k r (Lists.entries_of_drop he).2
  apart k k' r r' he he' hne :=
    h.apart k k' r r' (Lists.entries_of_drop he).2 (Lists.entries_of_drop he').2 hne
  loose a ha hmem := by
    obtain ⟨k, r, he, hmem⟩ := hmem
    exact h.loose a ha ⟨k, r, (Lists.entries_of_drop he).2, hmem⟩
  held a ha hmem := by
    obtain ⟨hin, hout⟩ := (h.mem_nodes_drop hl).mp hmem
    cases ha with
    | inl ha => exact h.held a ha hin
    | inr ha => exact hout ha
  live a := by
    rw [h.live, h.mem_nodes_drop hl, Set.mem_union, Set.mem_ofPred_eq]
    have hin : a ∈ head :: l → a ∈ s.nodes := fun ha => Or.inr ⟨head, l, hl, ha⟩
    tauto

/-- A ring of nodes in the hand is put down as a list. -/
theorem Holds.close (h : Holds m s hand) (hr : m.Ring (head :: l : List Addr))
    (hin : ∀ x ∈ head :: l, x ∈ hand) : Holds m (s.put head l) (hand \ {x | x ∈ head :: l}) := by
  have hnone : s.entries head = none := by
    cases he : s.entries head with
    | none => rfl
    | some r =>
      exact absurd (Or.inr ⟨head, r, he, List.mem_cons_self⟩)
        (h.held head (hin head List.mem_cons_self))
  have hout : ∀ x ∈ head :: l, x ∉ s.nodes := fun x hx => h.held x (hin x hx)
  have hcases : ∀ k r, (s.put head l).entries k = some r →
      (k = head ∧ r = l) ∨ (k ≠ head ∧ s.entries k = some r) := by
    intro k r he
    by_cases hk : k = head
    · subst hk
      rw [Lists.entries_put_self] at he
      exact Or.inl ⟨rfl, (Option.some.inj he).symm⟩
    · rw [s.entries_put_of_ne l hk] at he
      exact Or.inr ⟨hk, he⟩
  constructor
  · intro k r he
    obtain ⟨rfl, rfl⟩ | ⟨-, he⟩ := hcases k r he
    · exact hr
    · exact h.ring k r he
  · intro k k' r r' hk hk' hne x hx hx'
    obtain ⟨rfl, rfl⟩ | ⟨-, he⟩ := hcases k r hk
    · obtain ⟨rfl, rfl⟩ | ⟨-, he'⟩ := hcases k' r' hk'
      · exact hne rfl
      · exact hout x hx (Or.inr ⟨k', r', he', hx'⟩)
    · obtain ⟨rfl, rfl⟩ | ⟨-, he'⟩ := hcases k' r' hk'
      · exact hout x hx' (Or.inr ⟨k, r, he, hx⟩)
      · exact h.apart k k' r r' he he' hne hx hx'
  · rintro x hx ⟨k, r, he, hxr⟩
    obtain ⟨rfl, rfl⟩ | ⟨-, he⟩ := hcases k r he
    · exact hout x hxr (Or.inl hx)
    · exact h.loose x hx ⟨k, r, he, hxr⟩
  · rintro x ⟨hx, hxl⟩ hmem
    cases (Lists.mem_nodes_put hnone).mp hmem with
    | inl hmem => exact h.held x hx hmem
    | inr hmem => exact hxl hmem
  · intro x
    rw [h.live, Lists.mem_nodes_put hnone, Set.mem_sdiff, Set.mem_ofPred_eq]
    have hx := hin x
    tauto

theorem Holds.take (h : Holds m s hand) (ha : a ∈ s.loose) :
    Holds m (s.take a) (insert a hand) where
  ring := h.ring
  apart := h.apart
  loose x hx := h.loose x hx.1
  held x hx hmem := by
    obtain ⟨hin, hne⟩ := (h.mem_nodes_take ha).mp hmem
    cases hx with
    | inl hx => exact hne hx
    | inr hx => exact h.held x hx hin
  live x := by
    rw [h.live, h.mem_nodes_take ha, Set.mem_insert_iff]
    have hin : x = a → x ∈ s.nodes := fun hx => Or.inl (hx ▸ ha)
    tauto

theorem Holds.release (h : Holds m s hand) (ha : a ∈ hand) :
    Holds m (s.release a) (hand \ {a}) where
  ring := h.ring
  apart := h.apart
  loose x hx hmem := by
    cases hx with
    | inl hx => exact h.held a ha (Or.inr (hx ▸ hmem))
    | inr hx => exact h.loose x hx hmem
  held x hx hmem := by
    cases Lists.mem_nodes_release.mp hmem with
    | inl hmem => exact h.held x hx.1 hmem
    | inr hmem => exact hx.2 hmem
  live x := by
    rw [h.live, Lists.mem_nodes_release, Set.mem_sdiff, Set.mem_singleton_iff]
    have hin : x = a → x ∈ hand := fun hx => hx ▸ ha
    tauto

theorem Holds.writes {t : Set Addr} (h : Holds m s hand) (hw : m.Writes t m') (ht : t ⊆ hand) :
    Holds m' s hand where
  ring k r he := by
    apply (h.ring k r he).of_agrees hw.agrees
    intro x hx hxt
    exact h.held x (ht hxt) (Or.inr ⟨k, r, he, hx⟩)
  apart := h.apart
  loose := h.loose
  held := h.held
  live x := (hw.live x).trans (h.live x)

theorem Holds.hand_congr {hand' : Set Addr} (h : Holds m s hand) (heq : ∀ x, x ∈ hand ↔ x ∈ hand') :
    Holds m s hand' :=
  (Set.ext heq : hand = hand') ▸ h

/-- The list of `head` is stored anew, out of its own nodes and those in the hand. -/
theorem Holds.replace {t hand' : Set Addr} {l' : List Addr} (h : Holds m s hand)
    (hl : s.entries head = some l) (hw : m.Writes t m') (hr : m'.Ring (head :: l' : List Addr))
    (ht : ∀ x ∈ t, x ∈ hand ∨ x ∈ head :: l) (hin : ∀ x ∈ head :: l', x ∈ hand ∨ x ∈ head :: l)
    (hleft : ∀ x, x ∈ hand' ↔ (x ∈ hand ∨ x ∈ head :: l) ∧ x ∉ head :: l') :
    Holds m' (s.put head l') hand' := by
  have hclosed := ((h.open hl).writes hw ht).close hr hin
  rw [Lists.put_drop] at hclosed
  apply hclosed.hand_congr
  intro x
  rw [hleft, Set.mem_sdiff, Set.mem_union]
  rfl

end LinuxInternals.ListHead
