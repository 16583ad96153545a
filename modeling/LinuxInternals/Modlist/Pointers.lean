import LinuxInternals.ListHead.Programs
import LinuxInternals.Modlist.Linear

/-!
# The module `modlist`, access by access

`Pr3/ParteA/modlist.c` down to its pointers. What a process does with `sp` held is a program of
single loads and stores, and between two of these any other process may get on with its own
call: it may allocate and fill an item, but it has to wait where it takes `sp`.
-/

namespace LinuxInternals.Modlist.Pointers

open Text Object ListHead

/-- The loop of `modlist_read`, from `cur_node` on. -/
def readItems (mylist : Addr) : Nat → Addr → List UInt8 → Code Int32 (List UInt8)
  | 0, _, _ => .fail
  | fuel + 1, cur_node, modlistbuffer =>
    if cur_node = mylist then return modlistbuffer
    else if 239 ≤ modlistbuffer.length then return modlistbuffer
    else do
      let data ← Code.data cur_node
      let next ← Code.next cur_node
      readItems mylist fuel next (modlistbuffer ++ line data)

/-- What `modlist_read` does with `sp` held. -/
def modlistRead (fuel : Nat) (mylist : Addr) : Code Int32 (List UInt8) := do
  let cur_node ← Code.next mylist
  readItems mylist fuel cur_node []

def modlistRemove (fuel : Nat) (mylist : Addr) (num : Int32) : Code Int32 Unit :=
  Code.listForEachSafe (fun cur_node => do
    let data ← Code.data cur_node
    if data = num then do
      Code.listDel cur_node
      Code.vfree cur_node
    else return ()) fuel mylist

def modlistCleanup (fuel : Nat) (mylist : Addr) : Code Int32 Unit :=
  Code.listForEachSafe (fun cur_node => do
    Code.listDel cur_node
    Code.vfree cur_node) fuel mylist

/-- What a process has come to take `sp` for. `modlist_add` has its item by then. -/
inductive Pass where
  | read
  | add (num : Int32) (nodo : Addr)
  | remove (num : Int32)
  | cleanup
deriving DecidableEq, Repr

/-- What runs between `spin_lock` and `spin_unlock`, up to `modlistbuffer`. -/
def Pass.code (fuel : Nat) (mylist : Addr) : Pass → Code Int32 (List UInt8)
  | .read => modlistRead fuel mylist
  | .add _ nodo => do
    Code.listAddTail nodo mylist
    return []
  | .remove num => do
    modlistRemove fuel mylist num
    return []
  | .cleanup => do
    modlistCleanup fuel mylist
    return []

/-- Where a process is. A `filling` process has called `vmalloc`, and not yet stored in what it
has got. -/
inductive Pc where
  | user
  | called (op : Op) (stack : List UInt8)
  | filling (op : Op) (num : Int32) (nodo : Option Addr)
  | waiting (op : Op) (pass : Pass)
  | inside (op : Op) (rest : Code Int32 (List UInt8))
  | ret (r : Reply)

variable {ι : Type}

structure State (ι : Type) where
  mem : Items Int32
  sp : Option ι
  pc : ι → Pc

/-- `run` takes a process through one access to the list, or to where it makes its next one. -/
inductive Act where
  | call (op : Op) (stack : List UInt8)
  | vmalloc (nodo : Option (Slot Int32))
  | run
deriving DecidableEq, Repr

variable [DecidableEq ι]

def State.goto (s : State ι) (i : ι) (pc : Pc) : State ι :=
  { s with pc := Function.update s.pc i pc }

def step (fuel : Nat) (mylist : Addr) (s : State ι) (i : ι) (a : Act) :
    Option (State ι × List (Event Op Reply)) :=
  match s.pc i, a with
  | .user, .call op stack => some (s.goto i (.called op stack), [.invoked op])
  | .called op stack, .run =>
    match enter op stack with
    | .done r => some (s.goto i (.ret r), [])
    | .lock .read => some (s.goto i (.waiting op .read), [])
    | .lock (.add _) => none
    | .lock (.remove num) => some (s.goto i (.waiting op (.remove num)), [])
    | .lock .cleanup => some (s.goto i (.waiting op .cleanup), [])
  | .called op stack, .vmalloc nodo =>
    match enter op stack with
    | .lock (.add num) =>
      match nodo with
      | none => some (s.goto i (.filling op num none), [])
      | some slot =>
        some ({ s.goto i (.filling op num (some slot.item)) with
          mem := s.mem.vmalloc slot.item slot.links slot.data }, [])
    | _ => none
  | .filling op num nodo, .run => do
    -- a store through a null pointer has no outcome
    let nodo ← nodo
    let mem ← s.mem.setData nodo num
    return ({ s.goto i (.waiting op (.add num nodo)) with mem := mem }, [])
  | .waiting op pass, .run =>
    if s.sp = none then
      some ({ s.goto i (.inside op (pass.code fuel mylist)) with sp := some i }, [])
    else none
  | .inside op (.op a rest), .run => do
    let (mem, v) ← access a s.mem
    return ({ s.goto i (.inside op (rest v)) with mem := mem }, [])
  | .inside op (.ret modlistbuffer), .run =>
    some ({ s.goto i (.ret (finish modlistbuffer op)) with sp := none }, [])
  | .ret r, .run => some (s.goto i .user, [.returned r])
  | _, _ => none

/-- `init_modlist_module` has run, and the loops are given `fuel` turns. -/
def machine (ι : Type) [DecidableEq ι] (fuel : Nat) (mylist : Addr) :
    Machine (State ι) (ι × Act) (ι × Event Op Reply) where
  init := { mem := Items.onlyHead mylist, sp := none, pc := fun _ => .user }
  step s ia := (step fuel mylist s ia.1 ia.2).map fun r => (r.1, r.2.map (Prod.mk ia.1))

/-- `vmalloc` returns memory that is not in use. -/
def Fresh (s : State ι) (ia : ι × Act) : Prop :=
  match ia.2 with
  | .vmalloc (some slot) => s.mem.links slot.item = none ∧ s.mem.data slot.item = none
  | _ => True

instance (s : State ι) (ia : ι × Act) : Decidable (Fresh s ia) :=
  match ia with
  | (_, .vmalloc (some slot)) =>
    inferInstanceAs (Decidable (s.mem.links slot.item = none ∧ s.mem.data slot.item = none))
  | (_, .vmalloc none) | (_, .call _ _) | (_, .run) => isTrue trivial

section Moves

variable {fuel : Nat} {mylist : Addr} {s s' : State ι} {i : ι} {a : Act}

def Pass.job : Pass → Job
  | .read => .read
  | .add num _ => .add num
  | .remove num => .remove num
  | .cleanup => .cleanup

/-- The item that a process keeps for itself, and the number that it has stored there. -/
def Pc.own : Pc → Option (Addr × Option Int32)
  | .filling _ _ (some nodo) => some (nodo, none)
  | .waiting _ (.add num nodo) => some (nodo, some num)
  | _ => none

inductive Moves (fuel : Nat) (mylist : Addr) (s : State ι) (i : ι) :
    Act → State ι → List (Event Op Reply) → Prop where
  | call {op stack} : s.pc i = .user →
      Moves fuel mylist s i (.call op stack) (s.goto i (.called op stack)) [.invoked op]
  | early {op stack r} : s.pc i = .called op stack → enter op stack = .done r →
      Moves fuel mylist s i .run (s.goto i (.ret r)) []
  | arrive {op stack pass} : s.pc i = .called op stack → enter op stack = .lock pass.job →
      (Pc.waiting op pass).own = none →
      Moves fuel mylist s i .run (s.goto i (.waiting op pass)) []
  | null {op stack num} : s.pc i = .called op stack → enter op stack = .lock (.add num) →
      Moves fuel mylist s i (.vmalloc none) (s.goto i (.filling op num none)) []
  | vmalloc {op stack num slot} : s.pc i = .called op stack →
      enter op stack = .lock (.add num) →
      Moves fuel mylist s i (.vmalloc (some slot))
        { s.goto i (.filling op num (some slot.item)) with
          mem := s.mem.vmalloc slot.item slot.links slot.data } []
  | fill {op num nodo mem} : s.pc i = .filling op num (some nodo) →
      s.mem.setData nodo num = some mem →
      Moves fuel mylist s i .run { s.goto i (.waiting op (.add num nodo)) with mem := mem } []
  | lock {op pass} : s.pc i = .waiting op pass → s.sp = none →
      Moves fuel mylist s i .run
        { s.goto i (.inside op (pass.code fuel mylist)) with sp := some i } []
  | access {op a rest mem v} : s.pc i = .inside op (.op a rest) →
      ListHead.access a s.mem = some (mem, v) →
      Moves fuel mylist s i .run { s.goto i (.inside op (rest v)) with mem := mem } []
  | unlock {op buf} : s.pc i = .inside op (.ret buf) →
      Moves fuel mylist s i .run { s.goto i (.ret (finish buf op)) with sp := none } []
  | ret {r} : s.pc i = .ret r →
      Moves fuel mylist s i .run (s.goto i .user) [.returned r]

theorem moves_of_step {es : List (Event Op Reply)} (h : step fuel mylist s i a = some (s', es)) :
    Moves fuel mylist s i a s' es := by
  unfold step at h
  split at h
  case h_1 hpc =>
    cases h
    exact .call hpc
  case h_2 hpc =>
    split at h
    case h_1 henter =>
      cases h
      exact .early hpc henter
    case h_2 henter =>
      cases h
      exact .arrive hpc henter rfl
    case h_3 => cases h
    case h_4 henter =>
      cases h
      exact .arrive hpc henter rfl
    case h_5 henter =>
      cases h
      exact .arrive hpc henter rfl
  case h_3 hpc =>
    split at h
    case h_1 henter =>
      split at h
      · cases h
        exact .null hpc henter
      · cases h
        exact .vmalloc hpc henter
    case h_2 => cases h
  case h_4 hpc =>
    obtain ⟨nodo, rfl, hstore⟩ := Option.bind_eq_some_iff.mp h
    obtain ⟨mem, hmem, heq⟩ := Option.bind_eq_some_iff.mp hstore
    cases heq
    exact .fill hpc hmem
  case h_5 hpc =>
    obtain ⟨hsp, h⟩ := Option.ite_none_right_eq_some.mp h
    cases h
    exact .lock hpc hsp
  case h_6 hpc =>
    obtain ⟨⟨mem, v⟩, hmem, heq⟩ := Option.bind_eq_some_iff.mp h
    cases heq
    exact .access hpc hmem
  case h_7 hpc =>
    cases h
    exact .unlock hpc
  case h_8 hpc =>
    cases h
    exact .ret hpc
  case h_9 => cases h

theorem pc_of_moves {es : List (Event Op Reply)} (h : Moves fuel mylist s i a s' es) {j : ι}
    (hji : j ≠ i) : s'.pc j = s.pc j := by
  cases h <;> exact Function.update_of_ne hji _ _

end Moves

end LinuxInternals.Modlist.Pointers
