import LinuxInternals.Modlist.Linear

/-!
# Rebuilding a list from its text

`%i` guesses the base of a number from its first characters, but a line that `modlist_read`
has printed always reads back as the number that it was printed from. So a list can be rebuilt
by adding the lines of its text one by one.
-/

namespace LinuxInternals.Modlist

open Text Object

theorem scanInt_add_line (x : Int32) : scanInt (bytes "add " ++ line x) "add %i" = some x := by
  have hformat : directives (bytes "add %i") = [.lit 97, .lit 100, .lit 100, .space, .int] := by
    decide
  have hadd : bytes "add " = [97, 100, 100, 32] := by decide
  have hskip : skipSpaces (32 :: line x) = line x := skipSpaces_line x
  have hne : line x ≠ [] := List.ne_nil_of_length_pos (length_line_pos x)
  have hconvert : convert .int (line x) = some (.int x, [10]) := convert_decimalInt x []
  have hscan : scan [.space, .int] (32 :: line x) = [.int x] := by
    rw [scan, hskip, scan, if_neg hne, hconvert]
    · rfl
    · nofun
    · nofun
  have hsscanf : sscanf (bytes "add " ++ line x) "add %i" = [.int x] := by
    rw [sscanf, hformat, hadd]
    exact hscan
  rw [scanInt, hsscanf]

theorem ofText_add_line (x : Int32) : Command.ofText (bytes "add " ++ line x) = .add x := by
  have hzero : 0 ∉ bytes "add " ++ line x := by
    intro h
    rcases List.mem_append.mp h with h | h
    · exact absurd h (by decide)
    · exact zero_not_mem_line x h
  rw [Command.ofText, cstring_of_not_mem hzero, scanInt_add_line]

variable {ι : Type} [DecidableEq ι] {i : ι} {s : State ι}

/-- Process `i` writes the line behind "add ", with `stack` in its buffer before. -/
def addLine (i : ι) (ln stack : List UInt8) : List (ι × Act) :=
  (i, .call (.write 0 (bytes "add " ++ ln) true) stack) :: List.replicate 4 (i, .run)

/-- Nobody holds `sp`, and `i` is outside. -/
def State.Quiet (s : State ι) (i : ι) : Prop := s.sp = none ∧ s.pc i = .user

theorem enter_add_line (x : Int32) (stack : List UInt8) :
    enter (.write 0 (bytes "add " ++ line x) true) stack = .lock (.add x) := by
  have hlen : ¬239 < (bytes "add " ++ line x).length := by
    have hline := length_line_le x
    have hadd : (bytes "add ").length = 4 := by decide
    rw [List.length_append, hadd]
    omega
  rw [enter, modlistWrite_eq (by decide) hlen, ofText_add_line]

theorem exec_addLine (hquiet : s.Quiet i) (x : Int32) (stack : List UInt8) :
    ∃ s' tr, (machine ι).exec s (addLine i (line x) stack) = some (s', tr) ∧ s'.Quiet i ∧
      s'.mylist = s.mylist ++ [x] := by
  obtain ⟨hsp, hpc⟩ := hquiet
  have hwrite := enter_add_line x stack
  set op : Op := .write 0 (bytes "add " ++ line x) true
  refine ⟨{ mylist := s.mylist ++ [x], sp := none, pc := Function.update s.pc i .user },
    [(i, .invoked op), (i, .returned (finish [] op))], ?_, ⟨rfl, Function.update_self ..⟩, rfl⟩
  simp [addLine, List.replicate, Machine.exec, machine, step, State.goto, hpc, hsp, hwrite,
    critical, modlistAdd, op]

theorem exec_addLines (hquiet : s.Quiet i) {l : List Int32}
    {writes : List (List UInt8 × List UInt8)} (hlines : writes.map Prod.fst = l.map line) :
    ∃ s' tr, (machine ι).exec s (writes.flatMap fun w => addLine i w.1 w.2) = some (s', tr) ∧
      s'.mylist = s.mylist ++ l := by
  induction l generalizing s writes with
  | nil =>
    obtain rfl := List.map_eq_nil_iff.mp hlines
    exact ⟨s, [], rfl, (List.append_nil _).symm⟩
  | cons x l ih =>
    cases writes with
    | nil => cases hlines
    | cons w ws =>
      obtain ⟨hw, hws⟩ := List.cons.inj hlines
      obtain ⟨s₁, tr₁, hexec₁, hquiet₁, hlist₁⟩ := exec_addLine hquiet x w.2
      obtain ⟨s₂, tr₂, hexec₂, hlist₂⟩ := ih hquiet₁ hws
      refine ⟨s₂, tr₁ ++ tr₂, ?_, ?_⟩
      · rw [List.flatMap_cons, Machine.exec_append_eq_some]
        exact ⟨s₁, tr₁, tr₂, by rw [hw]; exact hexec₁, hexec₂, rfl⟩
      · rw [hlist₂, hlist₁, List.append_assoc]
        rfl

/-- The module is a shared list, for any number of processes and whatever their buffers held
before; and the lines of a list's text, written one by one to an empty list, rebuild it. -/
theorem shared_list :
    sharedList.Linearizes (machine ι) State.mylist ∧
    ∀ (s : State ι) (i : ι) (l : List Int32) (writes : List (List UInt8 × List UInt8)),
      s.Quiet i → s.mylist = [] → writes.map Prod.fst = lines (rendering l) →
      ∃ s' tr, (machine ι).exec s (writes.flatMap fun w => addLine i w.1 w.2) = some (s', tr) ∧
        s'.mylist = l := by
  constructor
  · exact linearizes
  · intro s i l writes hquiet hempty hlines
    rw [rendering, lines_flatMap_line] at hlines
    obtain ⟨s', tr, hexec, hlist⟩ := exec_addLines hquiet hlines
    rw [hempty] at hlist
    exact ⟨s', tr, hexec, hlist⟩

theorem shared_list_negative :
    ∃ s' tr, (machine Unit).Run (addLine () (bytes "-17\n") [1, 2]) s' tr ∧
      s'.mylist = [-17] :=
  shared_list.2 (machine Unit).init () [-17] [(bytes "-17\n", [1, 2])] ⟨rfl, rfl⟩ rfl
    (by decide +kernel)

end LinuxInternals.Modlist
