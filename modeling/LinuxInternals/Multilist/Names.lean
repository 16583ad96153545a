import LinuxInternals.Lib.Scanning
import LinuxInternals.Multilist.Steps

/-!
# The names of the entries

A name is a string that `sscanf` has stored. `strncpy` fills the array of a node with it, and
puts a terminator behind it only if there is room for one.
-/

namespace LinuxInternals.Multilist

open Text

section Arrays

variable {src : List UInt8} {n : Nat}

@[simp] theorem length_strncpy (src : List UInt8) (n : Nat) : (strncpy src n).length = n := by
  rw [strncpy, List.length_append, List.length_take, List.length_replicate]
  omega

theorem zero_mem_strncpy (h : src.length < n) : 0 ∈ strncpy src n := by
  apply List.mem_append_right
  rw [List.mem_replicate]
  exact ⟨by omega, rfl⟩

theorem strncpy_of_le (h : n ≤ src.length) : strncpy src n = src.take n := by
  rw [strncpy, Nat.sub_eq_zero_of_le h, List.replicate_zero, List.append_nil]

theorem cstring_strncpy (hzero : 0 ∉ src) (h : src.length < n) : cstring (strncpy src n) = src := by
  rw [strncpy, List.take_of_length_le h.le, cstring_append hzero]
  obtain ⟨m, hm⟩ := Nat.exists_eq_add_of_lt h
  rw [hm, Nat.add_assoc, Nat.add_sub_cancel_left, List.replicate_succ, ← List.nil_append (0 :: _),
    cstring_append_zero]
  exact List.append_nil src

variable {ι : Type} {x : Node ι}

theorem Node.nameString_of_mem (h : 0 ∈ x.name) : x.nameString = cstring x.name :=
  cstring_append_of_mem h _

/-- Without a terminator the string runs on into the mark. -/
theorem Node.nameString_of_not_mem (h : 0 ∉ x.name) :
    x.nameString = x.name ++ if x.markedForRemoval then [1] else [] := by
  rw [Node.nameString, cstring_append h]
  cases x.markedForRemoval <;> rfl

end Arrays

section Parsing

variable {off : Nat} {buf stack name : List UInt8} {copied : Bool}

/-- The call is a command on the entry with the name. -/
def Call.Names (name : List UInt8) : Call → Prop
  | .control off buf copied stack =>
    controlWrite off buf copied stack = .parsed (.create name) ∨
      controlWrite off buf copied stack = .parsed (.remove name)
  | _ => False

instance Call.decidableNames (name : List UInt8) (c : Call) : Decidable (c.Names name) :=
  match c with
  | .control .. => inferInstanceAs (Decidable (_ ∨ _))
  | .read .. | .write .. | .exit => isFalse id

/-- A name that `control_write` reads has no terminator inside. -/
theorem zero_not_mem_name
    (h : (Call.control off buf copied stack).Names name) : 0 ∉ name := by
  have hcreate : directives (bytes "create %s") = (bytes "create").map .lit ++ [.space, .str] := by
    decide
  have hremove : directives (bytes "remove %s") = (bytes "remove").map .lit ++ [.space, .str] := by
    decide
  have hzero := zero_not_mem_cstring stack
  rcases h with h | h
  all_goals
    rw [controlWrite] at h
    repeat' split at h
    all_goals cases h
  · exact fun hmem => hzero (mem_of_mem_scanStr hcreate ‹_› hmem)
  · exact fun hmem => hzero (mem_of_mem_scanStr hremove ‹_› hmem)

end Parsing

section Known

/-- The name that a process has read. -/
def Pc.names : Pc → List (List UInt8)
  | .create _ (.vmalloc name) | .create _ (.procCreateData name _)
  | .mark _ (.lockLists name) => [name]
  | _ => []

variable {ι : Type} [DecidableEq ι] {s s' : State ι} {i : ι} {act : Act} {es : List Event}
  {a : Addr}

/-- The arrays have their 20 bytes, and the names no terminator inside. -/
structure Named (s : State ι) : Prop where
  arrays : ∀ a, (s.node a).name.length = 20
  names : ∀ i, ∀ name ∈ (s.pc i).names, 0 ∉ name

/-- The array of a node is written once, and its mark is set once. -/
theorem node_name_of_moves (hmoves : Moves s i act s' es) (a : Addr) :
    ((s'.node a).name = (s.node a).name ∧
      ((s'.node a).markedForRemoval = (s.node a).markedForRemoval ∨
        (∃ w, s.pc i = .mark w (.lock a)) ∧ (s'.node a).markedForRemoval = true)) ∨
    a = s.nextNode ∧ ∃ w name, s.pc i = .create w (.vmalloc name) ∧
      (s'.node a).name = strncpy name 20 ∧ (s'.node a).markedForRemoval = false := by
  have hset {b : Addr} {n : Node ι} (hname : n.name = (s.node b).name)
      (hmark : n.markedForRemoval = (s.node b).markedForRemoval ∨
        (∃ w, s.pc i = .mark w (.lock b)) ∧ n.markedForRemoval = true) :
      (Function.update s.node b n a).name = (s.node a).name ∧
        ((Function.update s.node b n a).markedForRemoval = (s.node a).markedForRemoval ∨
          (∃ w, s.pc i = .mark w (.lock a)) ∧
            (Function.update s.node b n a).markedForRemoval = true) := by
    rcases eq_or_ne a b with rfl | hab
    · rw [Function.update_self]
      exact ⟨hname, hmark⟩
    · rw [Function.update_of_ne hab]
      exact ⟨rfl, .inl rfl⟩
  cases hmoves with
  | @vmalloc w name hpc =>
    rcases eq_or_ne a s.nextNode with rfl | ha
    · exact .inr ⟨rfl, w, name, hpc, by simp [State.setNode], by simp [State.setNode]⟩
    · have hsame : Function.update s.node s.nextNode
          { list := [], sp := none, name := strncpy name 20, markedForRemoval := false } a =
            s.node a := Function.update_of_ne ha ..
      exact .inl ⟨congrArg Node.name hsame, .inl (congrArg Node.markedForRemoval hsame)⟩
  | claim hpc => exact .inl (hset rfl (.inr ⟨⟨_, hpc⟩, rfl⟩))
  | isMarked | unlockMarked | unlockClaimed | cleanup | unlockEmpty | readLock | readUnlock
  | writeLock | writeUnlock => exact .inl (hset rfl (.inl rfl))
  | _ => exact .inl ⟨rfl, .inl rfl⟩

theorem names_of_moves (hmoves : Moves s i act s' es) {name : List UInt8}
    (hname : name ∈ (s'.pc i).names) :
    name ∈ (s.pc i).names ∨ ∃ c, act = .call c ∧ c.Names name := by
  cases hmoves with
  | callCreate _ _ hparse =>
    simp only [State.goto, Function.update_self, Pc.names, List.mem_singleton] at hname
    exact .inr ⟨_, rfl, .inl (hname ▸ hparse)⟩
  | callRemove _ _ hparse =>
    simp only [State.goto, Function.update_self, Pc.names, List.mem_singleton] at hname
    exact .inr ⟨_, rfl, .inr (hname ▸ hparse)⟩
  | @vfree k => cases k <;> simp [State.goto, Caller.pc, Pc.names] at hname
  | _ => simp_all [State.goto, State.setNode, State.unlock, State.unlockLists, Pc.names]

theorem Named.step (h : Named s) (hmoves : Moves s i act s' es) : Named s' := by
  constructor
  · intro a
    rcases node_name_of_moves hmoves a with ⟨hname, -⟩ | ⟨-, w, name, -, hname, -⟩
    · rw [hname]
      exact h.arrays a
    · rw [hname]
      exact length_strncpy ..
  · intro j name hname
    rcases eq_or_ne j i with rfl | hji
    · rcases names_of_moves hmoves hname with hname | ⟨c, -, hc⟩
      · exact h.names j name hname
      · cases c with
        | control => exact zero_not_mem_name hc
        | read | write | exit => cases hc
    · rw [pc_of_ne hmoves hji] at hname
      exact h.names j name hname

theorem named [Fintype ι] (h : (machine ι).Reachable s) : Named s := by
  refine reachable_of_moves ⟨fun _ => ?_, ?_⟩ (fun _ _ _ _ _ _ hI hmoves => hI.step hmoves) h
  · exact length_strncpy ..
  · rintro i name ⟨⟩

end Known

end LinuxInternals.Multilist
