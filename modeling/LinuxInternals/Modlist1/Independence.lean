import LinuxInternals.Modlist1.Basic

/-!
# What a write depends on

`modlist_write` parses the bytes of the user together with what the memory behind them held
before. The list that it leaves depends on them alone exactly when they contain a terminator,
or no continuation of them makes a different command.
-/

namespace LinuxInternals.Modlist1

open Text
open Modlist (Ret modlistAdd modlistRemove modlistCleanup)

/-- Two writes of the same bytes leave the same list, whatever the memory held before. -/
def Independent
    (modlistWrite : List UInt8 → Nat → List UInt8 → Bool → List Int32 → List Int32 × Ret × Nat)
    (mylist : List Int32) (buf : List UInt8) : Prop :=
  ∀ mem mem', 1024 ≤ mem.length → 1024 ≤ mem'.length →
    (modlistWrite mem 0 buf true mylist).1 = (modlistWrite mem' 0 buf true mylist).1

/-- No continuation of the bytes adds a number that another does not, and none removes numbers
or cleans up, unless all do or there is nothing in the list. -/
def Decided (mylist : List Int32) (buf : List UInt8) : Prop :=
  ¬Undecided (bytes "add") buf ∧
    (mylist = [] ∨ ¬Undecided (bytes "remove") buf ∧ ¬buf <+: bytes "cleanup\n")

instance Decided.decidable (mylist : List Int32) (buf : List UInt8) :
    Decidable (Decided mylist buf) :=
  inferInstanceAs (Decidable (_ ∧ _))

section Text

theorem directives_add :
    directives (bytes "add %i") = (bytes "add").map .lit ++ [.space, .int] := by
  decide

theorem directives_remove :
    directives (bytes "remove %i") = (bytes "remove").map .lit ++ [.space, .int] := by
  decide

theorem not_add_of_remove {s : List UInt8} (h : bytes "remove" <+: s) :
    scanInt s "add %i" = none :=
  scanInt_of_not_isPrefix directives_add (not_isPrefix_of_isPrefix h (by decide) (by decide))

end Text

section Commands

variable {others : List UInt8 → List Int32 → List Int32} {s : List UInt8} {l : List Int32}
  {num : Int32}

theorem obey_add (h : scanInt s "add %i" = some num) : obey others s l = l ++ [num] := by
  rw [obey, h]
  rfl

theorem obey_remove (h : scanInt s "remove %i" = some num) :
    obey others s l = modlistRemove num l := by
  have hremove : bytes "remove" <+: s := by
    by_contra hnot
    rw [scanInt_of_not_isPrefix directives_remove hnot] at h
    cases h
  rw [obey, not_add_of_remove hremove, h]

theorem obey_word {w : List UInt8} (hw : w <+: s)
    (hadd : ¬w <+: bytes "add" ∧ ¬bytes "add" <+: w)
    (hremove : ¬w <+: bytes "remove" ∧ ¬bytes "remove" <+: w) :
    obey others s l = if s = bytes "cleanup\n" then [] else others s l := by
  rw [obey, scanInt_of_not_isPrefix directives_add (not_isPrefix_of_isPrefix hw hadd.1 hadd.2),
    scanInt_of_not_isPrefix directives_remove (not_isPrefix_of_isPrefix hw hremove.1 hremove.2),
    Modlist.modlistCleanup_eq]

theorem obey_nil (hothers : others s [] = []) (hadd : scanInt s "add %i" = none) :
    obey others s [] = [] := by
  rw [obey, hadd]
  cases scanInt s "remove %i" with
  | some num => rfl
  | none =>
    dsimp only
    split
    · rfl
    · exact hothers

end Commands

section Memory

variable {others : List UInt8 → List Int32 → List Int32} {l : List Int32} {buf : List UInt8}

theorem write_eq (hlen : buf.length ≤ 1023) (mem : List UInt8) :
    (write others mem 0 buf true l).1 =
      obey others (cstring (buf ++ mem.drop buf.length)) l := by
  rw [write, if_neg (by decide), if_neg (by omega), if_neg (by decide)]

theorem independent_of_zero_mem (hlen : buf.length ≤ 1023) (hzero : 0 ∈ buf) :
    Independent (write others) l buf := by
  intro mem mem' _ _
  rw [write_eq hlen, write_eq hlen, cstring_append_of_mem hzero, cstring_append_of_mem hzero]

theorem le_length_append_zeros (s : List UInt8) :
    1024 ≤ (s ++ List.replicate 1024 0).length := by
  rw [List.length_append, List.length_replicate]
  exact Nat.le_add_left 1024 _

/-- Every continuation of the text is what some memory held. -/
theorem independent_iff (hlen : buf.length ≤ 1023) (hzero : 0 ∉ buf) :
    Independent (write others) l buf ↔ ∀ e e', 0 ∉ e → 0 ∉ e' →
      obey others (buf ++ e) l = obey others (buf ++ e') l := by
  constructor
  · intro h e e' he he'
    have hmem {e : List UInt8} (he : 0 ∉ e) :
        (write others (buf ++ e ++ List.replicate 1024 0) 0 buf true l).1 =
          obey others (buf ++ e) l := by
      rw [write_eq hlen, List.append_assoc, List.drop_left, ← List.append_assoc, cstring_append]
      · rw [show cstring (List.replicate 1024 0) = [] from rfl, List.append_nil]
      · intro hmem
        rcases List.mem_append.mp hmem with hmem | hmem
        · exact hzero hmem
        · exact he hmem
    rw [← hmem he, ← hmem he']
    exact h _ _ (le_length_append_zeros _) (le_length_append_zeros _)
  · intro h mem mem' _ _
    rw [write_eq hlen, write_eq hlen, cstring_append hzero, cstring_append hzero]
    exact h _ _ (zero_not_mem_cstring _) (zero_not_mem_cstring _)

end Memory

section Necessity

variable {others : List UInt8 → List Int32 → List Int32} {l : List Int32} {buf : List UInt8}

/-- What starts a word may go on to the word, or past it. -/
theorem obey_word_eq {w : List UInt8} (h : ∀ e e', 0 ∉ e → 0 ∉ e' →
    obey others (buf ++ e) l = obey others (buf ++ e') l) (hw : 0 ∉ w) (hbuf : buf <+: w) :
    obey others w l = obey others (w ++ [120]) l := by
  obtain ⟨r, rfl⟩ := hbuf
  have hzero : 0 ∉ r := fun hmem => hw (List.mem_append_right buf hmem)
  rw [List.append_assoc]
  exact h r (r ++ [120]) hzero (by simpa using hzero)

theorem decided_of_obey_eq (h : ∀ e e', 0 ∉ e → 0 ∉ e' →
      obey others (buf ++ e) l = obey others (buf ++ e') l)
    (hothers : others (bytes "cleanup\nx") l = l) : Decided l buf := by
  constructor
  · intro hundecided
    obtain ⟨e, hzero, he⟩ := exists_scanInt directives_add (by decide) hundecided 0
    obtain ⟨e', hzero', he'⟩ := exists_scanInt directives_add (by decide) hundecided 1
    have heq := h e e' hzero hzero'
    rw [obey_add he, obey_add he'] at heq
    simp at heq
  · by_contra hnot
    obtain ⟨hne, hword⟩ := not_or.mp hnot
    obtain ⟨x, l, rfl⟩ := List.exists_cons_of_ne_nil hne
    refine hword ⟨?_, ?_⟩
    · intro hundecided
      obtain ⟨y, hy⟩ : ∃ y, x ≠ y := by
        by_cases hx : x = 0
        · exact ⟨1, by rw [hx]; decide⟩
        · exact ⟨0, hx⟩
      obtain ⟨e, hzero, he⟩ := exists_scanInt directives_remove (by decide) hundecided x
      obtain ⟨e', hzero', he'⟩ := exists_scanInt directives_remove (by decide) hundecided y
      have heq := h e e' hzero hzero'
      rw [obey_remove he, obey_remove he'] at heq
      have hgone : x ∉ modlistRemove x (x :: l) := fun hx => (mem_modlistRemove.mp hx).2 rfl
      rw [heq, mem_modlistRemove] at hgone
      exact hgone ⟨List.mem_cons_self, hy⟩
    · intro hcleanup
      have heq := obey_word_eq h (by decide) hcleanup
      have hlonger : bytes "cleanup\n" ++ [120] = bytes "cleanup\nx" := by decide
      rw [hlonger, obey_word (List.prefix_refl _) (by decide) (by decide), if_pos rfl,
        obey_word (w := bytes "cleanup\n") (by decide) (by decide) (by decide),
        if_neg (by decide), hothers] at heq
      cases heq

/-- The sorting variant also takes `sort` for a command, which matters to unsorted lists. -/
theorem sorted_of_obey_eq (h : ∀ e e', 0 ∉ e → 0 ∉ e' →
    obey sortCommand (buf ++ e) l = obey sortCommand (buf ++ e') l)
    (hsort : buf <+: bytes "sort\n") : l.Pairwise (· ≤ ·) := by
  have heq := obey_word_eq h (by decide) hsort
  have hlonger : bytes "sort\n" ++ [120] = bytes "sort\nx" := by decide
  rw [hlonger, obey_word (List.prefix_refl _) (by decide) (by decide), if_neg (by decide),
    obey_word (w := bytes "sort\n") (by decide) (by decide) (by decide), if_neg (by decide),
    sortCommand, if_pos rfl, sortCommand, if_neg (by decide)] at heq
  exact modlistSort_eq_self_iff.mp heq

end Necessity

section Sufficiency

variable {others : List UInt8 → List Int32 → List Int32} {l : List Int32} {buf : List UInt8}

theorem obey_eq_of_decided (h : Decided l buf) (hnil : ∀ s, others s [] = [])
    (hothers : ∀ e e', others (buf ++ e) l = others (buf ++ e') l) (e e' : List UInt8) :
    obey others (buf ++ e) l = obey others (buf ++ e') l := by
  obtain ⟨hadd, hrest⟩ := h
  have hadd' (e : List UInt8) : scanInt (buf ++ e) "add %i" = scanInt buf "add %i" :=
    scanInt_append directives_add hadd e
  cases hnum : scanInt buf "add %i" with
  | some num =>
    have hsome (e : List UInt8) : scanInt (buf ++ e) "add %i" = some num := by rw [hadd', hnum]
    rw [obey_add (hsome e), obey_add (hsome e')]
  | none =>
    rcases hrest with rfl | ⟨hremove, hcleanup⟩
    · rw [obey_nil (hnil _) (by rw [hadd', hnum]), obey_nil (hnil _) (by rw [hadd', hnum])]
    · have hword (e : List UInt8) : buf ++ e ≠ bytes "cleanup\n" :=
        fun heq => hcleanup ⟨e, heq⟩
      rw [obey, obey, hadd', hadd', hnum, scanInt_append directives_remove hremove,
        scanInt_append directives_remove hremove, if_neg (hword e), if_neg (hword e'),
        hothers e e']

end Sufficiency

/-- When the list that a write leaves depends on the bytes of the user alone. -/
theorem independent_iff_decided (mylist : List Int32) {buf : List UInt8}
    (hlen : buf.length ≤ 1023) :
    (Independent modlistWrite mylist buf ↔ 0 ∈ buf ∨ Decided mylist buf) ∧
    (Independent Opcional1.modlistWrite mylist buf ↔
      0 ∈ buf ∨ Decided mylist buf ∧
        (mylist.Pairwise (· ≤ ·) ∨ ¬buf <+: bytes "sort\n")) := by
  by_cases hzero : 0 ∈ buf
  · exact ⟨iff_of_true (independent_of_zero_mem hlen hzero) (.inl hzero),
      iff_of_true (independent_of_zero_mem hlen hzero) (.inl hzero)⟩
  rw [modlistWrite, Opcional1.modlistWrite, independent_iff hlen hzero,
    independent_iff hlen hzero, or_iff_right hzero, or_iff_right hzero]
  refine ⟨⟨fun h => decided_of_obey_eq h rfl, fun h e e' _ _ => ?_⟩, ?_, ?_⟩
  · exact obey_eq_of_decided h (fun _ => rfl) (fun _ _ => rfl) e e'
  · intro h
    refine ⟨decided_of_obey_eq h (if_neg (by decide)), ?_⟩
    by_cases hsort : buf <+: bytes "sort\n"
    · exact .inl (sorted_of_obey_eq h hsort)
    · exact .inr hsort
  · rintro ⟨h, hsort⟩ e e' _ _
    have hsame (e : List UInt8) : sortCommand (buf ++ e) mylist = mylist := by
      rw [sortCommand]
      split
      · rcases hsort with hsorted | hnot
        · exact modlistSort_eq_self_iff.mpr hsorted
        · exact absurd ⟨e, ‹buf ++ e = _›⟩ hnot
      · rfl
    refine obey_eq_of_decided h (fun s => ?_) (fun e e' => by rw [hsame, hsame]) e e'
    rw [sortCommand]
    split
    · exact modlistSort_eq_self_iff.mpr List.Pairwise.nil
    · rfl

theorem independent_iff_decided_line :
    Independent modlistWrite [3, 1] (bytes "add 5\n") ∧
      Independent Opcional1.modlistWrite [1, 3] (bytes "sort\n") :=
  ⟨(independent_iff_decided [3, 1] (by decide)).1.mpr (.inr (by decide)),
    (independent_iff_decided [1, 3] (by decide)).2.mpr (.inr ⟨by decide, .inl (by decide)⟩)⟩

/-- Without a newline the number may go on in the memory behind it. -/
theorem add_without_newline_dependent : ¬Independent modlistWrite [] (bytes "add 5") := by
  intro h
  have heq := h (bytes "add 50" ++ List.replicate 1024 0) (List.replicate 1024 0)
    (le_length_append_zeros _) (le_length_append_zeros [])
  have hfifty : (modlistWrite (bytes "add 50" ++ List.replicate 1024 0) 0 (bytes "add 5") true
      []).1 = [50] := by
    decide +kernel
  have hfive : (modlistWrite (List.replicate 1024 0) 0 (bytes "add 5") true []).1 = [5] := by
    decide +kernel
  rw [hfifty, hfive] at heq
  exact absurd heq (by decide)

end LinuxInternals.Modlist1
