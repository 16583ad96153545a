import LinuxInternals.Lib.Prog
import LinuxInternals.ListHead.Items

/-!
# The list functions, one access at a time

The functions of `list.h` as programs over single loads and stores. In one go, each is the
function of this name. An access touches one node only, so that what others have allocated for
themselves does not matter to it.
-/

namespace LinuxInternals.ListHead

open Links

/-- A load or a store of one word, or a `vfree`. -/
inductive Access (β : Type) where
  | next (p : Addr)
  | prev (p : Addr)
  | setNext (p q : Addr)
  | setPrev (p q : Addr)
  | data (p : Addr)
  | vfree (p : Addr)
deriving DecidableEq, Repr

/-- What an access loads. -/
def Access.Value {β : Type} : Access β → Type
  | .next _ | .prev _ => Addr
  | .data _ => β
  | .setNext _ _ | .setPrev _ _ | .vfree _ => Unit

variable {β ρ : Type}

def access : (a : Access β) → Items β → Option (Items β × a.Value)
  | .next p, m => (m.links.next p).map fun q => (m, q)
  | .prev p, m => (m.links.prev p).map fun q => (m, q)
  | .setNext p q, m => (m.links.setNext p q).map fun links => ({ m with links := links }, ())
  | .setPrev p q, m => (m.links.setPrev p q).map fun links => ({ m with links := links }, ())
  | .data p, m => (m.data p).map fun b => (m, b)
  | .vfree p, m => (m.vfree p).map fun m => (m, ())

abbrev Code (β ρ : Type) := Prog (Access β) Access.Value ρ

namespace Code

def next (p : Addr) : Code β Addr := .op (.next p) .ret

def prev (p : Addr) : Code β Addr := .op (.prev p) .ret

def setNext (p q : Addr) : Code β Unit := .op (.setNext p q) .ret

def setPrev (p q : Addr) : Code β Unit := .op (.setPrev p q) .ret

def data (p : Addr) : Code β β := .op (.data p) .ret

def vfree (p : Addr) : Code β Unit := .op (.vfree p) .ret

/-- `__list_add`. -/
def internalListAdd (new prev next : Addr) : Code β Unit := do
  setPrev next new
  setNext new next
  setPrev new prev
  setNext prev new

def listAddTail (new head : Addr) : Code β Unit := do
  let prev ← Code.prev head
  internalListAdd new prev head

/-- `__list_del`. -/
def internalListDel (prev next : Addr) : Code β Unit := do
  setPrev next prev
  setNext prev next

def listDel (entry : Addr) : Code β Unit := do
  let prev ← Code.prev entry
  let next ← Code.next entry
  internalListDel prev next
  setNext entry LIST_POISON1
  setPrev entry LIST_POISON2

/-- The loop of `list_for_each_safe`. -/
def forEachSafe (body : Addr → Code β Unit) (head : Addr) : Nat → Addr → Addr → Code β Unit
  | 0, _, _ => .fail
  | fuel + 1, pos, n =>
    if pos = head then return ()
    else do
      body pos
      let next ← Code.next n
      forEachSafe body head fuel n next

def listForEachSafe (body : Addr → Code β Unit) (fuel : Nat) (head : Addr) : Code β Unit := do
  let pos ← Code.next head
  let n ← Code.next pos
  forEachSafe body head fuel pos n

/-- The program in one go. -/
def run (P : Code β ρ) (m : Items β) : Option (Items β × ρ) := P.eval access m

variable {m : Items β} {p q : Addr}

@[simp] theorem run_next : (next p : Code β Addr).run m = (m.links.next p).map (m, ·) := by
  simp only [run, next, Prog.eval, access]
  cases m.links.next p <;> rfl

@[simp] theorem run_prev : (prev p : Code β Addr).run m = (m.links.prev p).map (m, ·) := by
  simp only [run, prev, Prog.eval, access]
  cases m.links.prev p <;> rfl

@[simp] theorem run_data : (data p : Code β β).run m = (m.data p).map (m, ·) := by
  simp only [run, data, Prog.eval, access]
  cases m.data p <;> rfl

@[simp] theorem run_setNext : (setNext p q : Code β Unit).run m =
    (m.links.setNext p q).map fun links => ({ m with links := links }, ()) := by
  simp only [run, setNext, Prog.eval, access]
  cases m.links.setNext p q <;> rfl

@[simp] theorem run_setPrev : (setPrev p q : Code β Unit).run m =
    (m.links.setPrev p q).map fun links => ({ m with links := links }, ()) := by
  simp only [run, setPrev, Prog.eval, access]
  cases m.links.setPrev p q <;> rfl

@[simp] theorem run_vfree : (vfree p : Code β Unit).run m = (m.vfree p).map (·, ()) := by
  simp only [run, vfree, Prog.eval, access]
  cases m.vfree p <;> rfl

@[simp] theorem run_pure (r : ρ) : (pure r : Code β ρ).run m = some (m, r) := rfl

@[simp] theorem run_bind {τ : Type} (P : Code β ρ) (f : ρ → Code β τ) :
    (P >>= f).run m = (P.run m).bind fun r => (f r.2).run r.1 :=
  Prog.eval_bind P f m

theorem run_listAddTail (new head : Addr) :
    (listAddTail new head : Code β Unit).run m = (m.listAddTail new head).map (·, ()) := by
  simp only [listAddTail, internalListAdd, run_bind, run_prev, run_setPrev, run_setNext,
    Items.listAddTail, ListHead.listAddTail, ListHead.internalListAdd, Option.bind_eq_bind,
    Option.map_bind, Option.bind_map, Option.map_map, Function.comp_def]

theorem run_listDel (entry : Addr) :
    (listDel entry : Code β Unit).run m = (m.listDel entry).map (·, ()) := by
  simp only [listDel, internalListDel, run_bind, run_prev, run_next, run_setPrev, run_setNext,
    Items.listDel, ListHead.listDel, unlink, ListHead.internalListDel, Option.bind_eq_bind,
    Option.map_bind, Option.bind_map, Option.map_map, Option.bind_assoc, Function.comp_def]

theorem run_forEachSafe (body : Addr → Code β Unit) (head : Addr) (fuel : Nat) (pos n : Addr)
    (m : Items β) :
    (forEachSafe body head fuel pos n).run m =
      (ListHead.forEachSafe Items.links (fun pos m => ((body pos).run m).map Prod.fst) head fuel
        pos n m).map (·, ()) := by
  induction fuel generalizing pos n m with
  | zero => rfl
  | succ fuel ih =>
    rw [forEachSafe, ListHead.forEachSafe]
    split
    · rfl
    · simp only [run_bind, run_next, ih, Option.bind_eq_bind, Option.map_bind, Option.bind_map,
        Function.comp_def]

theorem run_listForEachSafe (body : Addr → Code β Unit) (fuel : Nat) (head : Addr) :
    (listForEachSafe body fuel head).run m =
      (ListHead.listForEachSafe Items.links (fun pos m => ((body pos).run m).map Prod.fst) head
        fuel m).map (·, ()) := by
  simp only [listForEachSafe, ListHead.listForEachSafe, run_bind, run_next, run_forEachSafe,
    Option.bind_eq_bind, Option.map_bind, Option.bind_map, Function.comp_def]

end Code

/-- The memory `m` is `M`, and beside it what processes keep for themselves at `own`. -/
structure Items.Splits (m : Items β) (own : Set Addr) (M : Items β) : Prop where
  links : ∀ a, a ∉ own → m.links a = M.links a
  data : ∀ a, a ∉ own → m.data a = M.data a
  apart : ∀ a ∈ own, M.links a = none ∧ M.data a = none

namespace Items.Splits

variable {m M M' : Items β} {own : Set Addr} {p : Addr}

theorem notMem_of_links (h : m.Splits own M) {l : Link Addr} (hl : M.links p = some l) :
    p ∉ own := by
  intro hp
  rw [(h.apart p hp).1] at hl
  cases hl

theorem notMem_of_data (h : m.Splits own M) {b : β} (hb : M.data p = some b) : p ∉ own := by
  intro hp
  rw [(h.apart p hp).2] at hb
  cases hb

theorem setLinks (h : m.Splits own M) (hp : p ∉ own) (l : Option (Link Addr)) :
    Splits { m with links := Function.update m.links p l } own
      { M with links := Function.update M.links p l } := by
  constructor
  · intro a ha
    rcases eq_or_ne a p with rfl | hne
    · simp
    · simpa [hne] using h.links a ha
  · exact h.data
  · intro a ha
    simpa [ne_of_mem_of_not_mem ha hp] using h.apart a ha

theorem setData (h : m.Splits own M) (hp : p ∉ own) (b : Option β) :
    Splits { m with data := Function.update m.data p b } own
      { M with data := Function.update M.data p b } := by
  constructor
  · exact h.links
  · intro a ha
    rcases eq_or_ne a p with rfl | hne
    · simp
    · simpa [hne] using h.data a ha
  · intro a ha
    simpa [ne_of_mem_of_not_mem ha hp] using h.apart a ha

/-- An access that `M` allows has the same answer in `m`, and does not touch `own`. -/
theorem access (h : m.Splits own M) {a : Access β} {v : a.Value}
    (ha : ListHead.access a M = some (M', v)) :
    ∃ m', ListHead.access a m = some (m', v) ∧ m'.Splits own M' ∧
      ∀ p ∈ own, m'.links p = m.links p ∧ m'.data p = m.data p := by
  have hframe : ∀ {p : Addr}, p ∉ own → ∀ l : Option (Link Addr), ∀ q ∈ own,
      Function.update m.links p l q = m.links q :=
    fun hp l q hq => Function.update_of_ne (ne_of_mem_of_not_mem hq hp) _ _
  cases a with
  | next p =>
    obtain ⟨q, hq, heq⟩ := Option.map_eq_some_iff.mp ha
    obtain ⟨rfl, rfl⟩ := Prod.mk.inj heq
    obtain ⟨l, hl, rfl⟩ := Option.map_eq_some_iff.mp hq
    refine ⟨m, ?_, h, fun _ _ => ⟨rfl, rfl⟩⟩
    rw [ListHead.access, Links.next, h.links p (h.notMem_of_links hl), hl]
    rfl
  | prev p =>
    obtain ⟨q, hq, heq⟩ := Option.map_eq_some_iff.mp ha
    obtain ⟨rfl, rfl⟩ := Prod.mk.inj heq
    obtain ⟨l, hl, rfl⟩ := Option.map_eq_some_iff.mp hq
    refine ⟨m, ?_, h, fun _ _ => ⟨rfl, rfl⟩⟩
    rw [ListHead.access, Links.prev, h.links p (h.notMem_of_links hl), hl]
    rfl
  | setNext p q =>
    obtain ⟨links, hlinks, heq⟩ := Option.map_eq_some_iff.mp ha
    obtain ⟨rfl, rfl⟩ := Prod.mk.inj heq
    obtain ⟨l, hl, rfl⟩ := Option.map_eq_some_iff.mp hlinks
    have hp := h.notMem_of_links hl
    refine ⟨_, ?_, h.setLinks hp _, fun q hq => ⟨hframe hp _ q hq, rfl⟩⟩
    rw [ListHead.access, Links.setNext, h.links p hp, hl]
    rfl
  | setPrev p q =>
    obtain ⟨links, hlinks, heq⟩ := Option.map_eq_some_iff.mp ha
    obtain ⟨rfl, rfl⟩ := Prod.mk.inj heq
    obtain ⟨l, hl, rfl⟩ := Option.map_eq_some_iff.mp hlinks
    have hp := h.notMem_of_links hl
    refine ⟨_, ?_, h.setLinks hp _, fun q hq => ⟨hframe hp _ q hq, rfl⟩⟩
    rw [ListHead.access, Links.setPrev, h.links p hp, hl]
    rfl
  | data p =>
    obtain ⟨b, hb, heq⟩ := Option.map_eq_some_iff.mp ha
    obtain ⟨rfl, rfl⟩ := Prod.mk.inj heq
    refine ⟨m, ?_, h, fun _ _ => ⟨rfl, rfl⟩⟩
    rw [ListHead.access, h.data p (h.notMem_of_data hb), hb]
    rfl
  | vfree p =>
    obtain ⟨m₁, hfree, heq⟩ := Option.map_eq_some_iff.mp ha
    obtain ⟨rfl, rfl⟩ := Prod.mk.inj heq
    obtain ⟨hlive, heq⟩ := Option.ite_none_right_eq_some.mp hfree
    obtain rfl := Option.some.inj heq
    obtain ⟨hlinks, hdata⟩ := Bool.and_eq_true_iff.mp hlive
    obtain ⟨l, hl⟩ := Option.isSome_iff_exists.mp hlinks
    obtain ⟨b, hb⟩ := Option.isSome_iff_exists.mp hdata
    have hp := h.notMem_of_links hl
    refine ⟨_, ?_, (h.setLinks hp none).setData hp none, fun q hq => ⟨hframe hp _ q hq, ?_⟩⟩
    · rw [ListHead.access, Items.vfree, h.links p hp, h.data p hp, hl, hb]
      rfl
    · exact Function.update_of_ne (ne_of_mem_of_not_mem hq hp) _ _

/-- What `own` holds does not make a program longer. -/
theorem steps_eq (h : m.Splits own M) {P : Code β ρ} {out : Items β × ρ}
    (hrun : P.run M = some out) : P.steps ListHead.access m = P.steps ListHead.access M := by
  induction P generalizing m M with
  | ret | fail => rfl
  | op a k ih =>
    obtain ⟨M', v, ha, hrest⟩ := Prog.eval_op_eq_some.mp hrun
    obtain ⟨m', ha', h', -⟩ := h.access ha
    rw [Prog.steps, Prog.steps, ha, ha', Option.elim_some, Option.elim_some, ih v h' hrest]

/-- A process stores in an item of its own. -/
theorem store (h : m.Splits own M) (hp : p ∈ own) (b : Option β) :
    Splits { m with data := Function.update m.data p b } own M := by
  constructor
  · exact h.links
  · intro a ha
    exact (Function.update_of_ne (ne_of_mem_of_not_mem hp ha).symm _ _).trans (h.data a ha)
  · exact h.apart

/-- What a process allocates is its own. -/
theorem vmalloc (h : m.Splits own M) (hlinks : m.links p = none) (hdata : m.data p = none)
    (l : Link Addr) (b : β) : (m.vmalloc p l b).Splits (insert p own) M := by
  constructor
  · intro a ha
    obtain ⟨hne, ha⟩ := not_or.mp ha
    exact (Function.update_of_ne hne _ _).trans (h.links a ha)
  · intro a ha
    obtain ⟨hne, ha⟩ := not_or.mp ha
    exact (Function.update_of_ne hne _ _).trans (h.data a ha)
  · rintro a (rfl | ha)
    · by_cases hown : a ∈ own
      · exact h.apart a hown
      · exact ⟨(h.links a hown).symm.trans hlinks, (h.data a hown).symm.trans hdata⟩
    · exact h.apart a ha

/-- A process gives an item of its own to the others. -/
theorem give (h : m.Splits own M) {l : Link Addr} {b : β} (hlinks : m.links p = some l)
    (hdata : m.data p = some b) : m.Splits (own \ {p}) (M.vmalloc p l b) := by
  constructor
  · intro a ha
    rcases eq_or_ne a p with rfl | hne
    · simpa [Items.vmalloc] using hlinks
    · simpa [Items.vmalloc, hne] using h.links a fun hown => ha ⟨hown, hne⟩
  · intro a ha
    rcases eq_or_ne a p with rfl | hne
    · simpa [Items.vmalloc] using hdata
    · simpa [Items.vmalloc, hne] using h.data a fun hown => ha ⟨hown, hne⟩
  · rintro a ⟨hown, hne⟩
    have hne : a ≠ p := hne
    simpa [Items.vmalloc, hne] using h.apart a hown

end Items.Splits

end LinuxInternals.ListHead
