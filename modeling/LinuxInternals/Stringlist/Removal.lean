import LinuxInternals.Stringlist.Basic

/-!
# Removing what was added

`modlist_write` takes the string of `add` from behind the command, blanks included and without
the last byte, and the string of `remove` from the token that `sscanf` finds. The two are the
same for a word that a blank or a terminator ends.
-/

namespace LinuxInternals.Stringlist

open Text

/-- A text that adds a node to the list removes, written again behind `remove`, the nodes with
the string that was stored, and these alone. -/
def RemovesAgain (mylist : List (List UInt8)) (u : List UInt8) : Prop :=
  ∀ mem mem', 1024 ≤ mem.length → 1024 ≤ mem'.length → ∀ str,
    (modlistWrite mem 0 (bytes "add " ++ u) true mylist).1 = mylist ++ [str] →
    (modlistWrite mem' 0 (bytes "remove " ++ u) true (mylist ++ [str])).1 =
      (mylist ++ [str]).filter (· ≠ str)

/-- The text adds nothing, or its string is a word and the token of `remove` too. -/
def Removable (u : List UInt8) : Prop :=
  1019 < u.length ∨ u ≠ [] ∧
    (20 < (cstring u.dropLast).length ∨
      0 ∈ u ∧ (∀ c ∈ cstring u.dropLast, isSpace c = true) ∨
      u.length ≤ 1016 ∧ (cstring u.dropLast ≠ [] ∧ ∀ c ∈ cstring u.dropLast, isSpace c = false) ∧
        (0 ∈ u ∨ ∀ c ∈ u.getLast?, isSpace c = true))

section Texts

variable {u : List UInt8} {mylist : List (List UInt8)}

theorem ne_concat (l : List (List UInt8)) (str : List UInt8) : l ≠ l ++ [str] := by
  simp

theorem added_iff (hlen : u.length ≤ 1019) (mem str : List UInt8) :
    (modlistWrite mem 0 (bytes "add " ++ u) true mylist).1 = mylist ++ [str] ↔
      (scanToken (cstring (u ++ mem.drop (bytes "add " ++ u).length))).isSome = true ∧
      (stored u (mem.drop (bytes "add " ++ u).length)).length ≤ 20 ∧
      stored u (mem.drop (bytes "add " ++ u).length) = str := by
  rw [write_add hlen]
  dsimp only
  generalize mem.drop (bytes "add " ++ u).length = rest
  split
  · rw [modlistAdd]
    split
    · exact iff_of_false (ne_concat mylist str) fun h => absurd h.2.1 (by omega)
    · rw [List.append_cancel_left_eq, List.singleton_inj]
      exact ⟨fun h => ⟨‹_›, by omega, h⟩, fun h => h.2.2⟩
  · exact iff_of_false (ne_concat mylist str) fun h => ‹¬_› h.1

theorem removed_iff (mem str : List UInt8) :
    (modlistWrite mem 0 (bytes "remove " ++ u) true (mylist ++ [str])).1 =
        (mylist ++ [str]).filter (· ≠ str) ↔
      u.length ≤ 1016 ∧
        scanToken (cstring (u ++ mem.drop (bytes "remove " ++ u).length)) = some str := by
  have hseven : (bytes "remove ").length = 7 := by decide
  have hkept : mylist ++ [str] ≠ (mylist ++ [str]).filter (· ≠ str) := by
    intro h
    have hmem : str ∈ (mylist ++ [str]).filter (· ≠ str) := h ▸ List.mem_concat_self
    simp at hmem
  by_cases hlen : u.length ≤ 1016
  · rw [write_remove hlen, and_iff_right hlen]
    cases htoken : scanToken (cstring (u ++ mem.drop (bytes "remove " ++ u).length)) with
    | none => exact iff_of_false hkept (Option.some_ne_none str).symm
    | some string =>
      dsimp only
      rw [modlistRemove_eq, Option.some_inj]
      constructor
      · intro h
        by_contra hne
        have hmem : str ∈ (mylist ++ [str]).filter (· ≠ string) := by
          simp [Ne.symm hne]
        rw [h] at hmem
        simp at hmem
      · rintro rfl
        rfl
  · rw [write_long (by rw [List.length_append]; omega)]
    exact iff_of_false hkept fun h => hlen h.1

theorem exists_mem (n : Nat) (e : List UInt8) :
    ∃ mem : List UInt8, 1024 ≤ mem.length ∧ mem.drop n = e ++ 0 :: List.replicate 1023 0 := by
  refine ⟨List.replicate n 0 ++ (e ++ 0 :: List.replicate 1023 0), ?_, ?_⟩
  · rw [List.length_append, List.length_append, List.length_cons, List.length_replicate,
      List.length_replicate]
    omega
  · rw [List.drop_append_of_le_length (by rw [List.length_replicate]), List.drop_replicate,
      Nat.sub_self]
    rfl

theorem removesAgain_iff (hlen : u.length ≤ 1019) :
    RemovesAgain mylist u ↔ ∀ e e', (scanToken (cstring (u ++ e))).isSome = true →
      (stored u e).length ≤ 20 →
      u.length ≤ 1016 ∧ scanToken (cstring (u ++ e')) = some (stored u e) := by
  constructor
  · intro h e e' htoken hshort
    obtain ⟨mem, hmem, hdrop⟩ := exists_mem (bytes "add " ++ u).length e
    obtain ⟨mem', hmem', hdrop'⟩ := exists_mem (bytes "remove " ++ u).length e'
    have htext (e : List UInt8) :
        cstring (u ++ (e ++ 0 :: List.replicate 1023 0)) = cstring (u ++ e) := by
      rw [← List.append_assoc, cstring_append_zero]
    have hstored : stored u (e ++ 0 :: List.replicate 1023 0) = stored u e := by
      rw [stored, stored, cstring_append_zero]
    have hremoved := h mem mem' hmem hmem' (stored u e)
    rw [added_iff hlen, removed_iff, hdrop, hdrop', htext, htext, hstored] at hremoved
    exact hremoved ⟨htoken, hshort, rfl⟩
  · intro h mem mem' _ _ str hadd
    obtain ⟨htoken, hshort, rfl⟩ := (added_iff hlen mem str).mp hadd
    exact (removed_iff mem' _).mpr (h _ _ htoken hshort)

theorem stored_of_ne (hne : u ≠ []) (rest : List UInt8) :
    stored u rest = cstring u.dropLast := if_neg hne

theorem cstring_dropLast (hzero : 0 ∈ u) : cstring u.dropLast = cstring u := by
  rcases List.eq_nil_or_concat u with rfl | ⟨t, c, rfl⟩
  · rfl
  · rw [List.concat_eq_append] at hzero ⊢
    rw [List.dropLast_concat]
    by_cases ht : 0 ∈ t
    · rw [cstring_append_of_mem ht]
    · have hc : 0 = c := by simpa [ht] using hzero
      rw [← hc, cstring_append_zero]

/-- Nothing behind a terminator is looked at. -/
theorem removesAgain_of_terminated (hlen : u.length ≤ 1019) (hzero : 0 ∈ u) :
    RemovesAgain mylist u ↔ Removable u := by
  have hne : u ≠ [] := List.ne_nil_of_mem hzero
  have hnil : cstring u.dropLast ≠ [] ∧ (∀ c ∈ cstring u.dropLast, isSpace c = false) →
      ¬∀ c ∈ cstring u.dropLast, isSpace c = true := by
    rintro ⟨hnil, hword⟩ hblank
    obtain ⟨c, hc⟩ := List.exists_mem_of_ne_nil _ hnil
    exact absurd (hword c hc) (by rw [hblank c hc]; decide)
  rw [removesAgain_iff hlen, Removable, or_iff_right (by omega), and_iff_right hne]
  simp only [stored_of_ne hne, cstring_append_of_mem hzero, ← cstring_dropLast hzero,
    Option.isSome_iff_ne_none, Ne, scanToken_eq_none_iff, scanToken_eq_self_iff, hzero,
    true_and, true_or, and_true]
  constructor
  · intro h
    by_cases hshort : (cstring u.dropLast).length ≤ 20
    · by_cases hblank : ∀ c ∈ cstring u.dropLast, isSpace c = true
      · exact .inr (.inl hblank)
      · exact .inr (.inr (h [] [] hblank hshort))
    · exact .inl (by omega)
  · rintro (hlong | hblank | hword) _ _ hsome hshort
    · omega
    · exact absurd hblank hsome
    · exact hword

/-- Without a terminator what is in memory behind the text may end the token or go on with it. -/
theorem removesAgain_of_open (hlen : u.length ≤ 1019) (hzero : 0 ∉ u) (hne : u ≠ []) :
    RemovesAgain mylist u ↔ Removable u := by
  obtain ⟨t, c, rfl⟩ := (List.eq_nil_or_concat u).resolve_left hne
  rw [List.concat_eq_append] at *
  have ht : 0 ∉ t := fun hmem => hzero (List.mem_append_left [c] hmem)
  rw [removesAgain_iff hlen, Removable, or_iff_right (by omega), and_iff_right hne]
  simp only [stored_of_ne hne, List.dropLast_concat, cstring_of_not_mem ht,
    cstring_append hzero, hzero, false_and, false_or, List.getLast?_concat, Option.mem_def,
    Option.some_inj, forall_eq']
  constructor
  · intro h
    by_cases hshort : t.length ≤ 20
    · obtain ⟨hfits, htoken⟩ := h [98] [] (isSome_scanToken (c := 98) (by decide)
        (List.mem_append_right _ (by decide))) hshort
      have hword := word_of_scanToken htoken
      refine .inr ⟨hfits, hword, ?_⟩
      by_contra hblank
      -- the last byte belongs to the token of `remove`
      rw [show cstring [] = [] from rfl, List.append_nil, scanToken_word hword.1 hword.2,
        List.takeWhile_cons_of_pos (by simpa using hblank)] at htoken
      simp at htoken
    · exact .inl (by omega)
  · rintro (hlong | ⟨hfits, hword, hblank⟩) e e' _ hshort
    · omega
    · refine ⟨hfits, ?_⟩
      rw [List.append_assoc, scanToken_word hword.1 hword.2, List.singleton_append,
        List.takeWhile_cons_of_neg (by simpa using hblank), List.append_nil]

end Texts

/-- Which texts remove again what they add. -/
theorem removesAgain_iff_removable (mylist : List (List UInt8)) (u : List UInt8) :
    RemovesAgain mylist u ↔ Removable u := by
  by_cases hlong : 1019 < u.length
  · refine iff_of_true ?_ (.inl hlong)
    intro mem mem' _ _ str hadd
    have hfour : (bytes "add ").length = 4 := by decide
    rw [write_long (by rw [List.length_append]; omega)] at hadd
    exact absurd hadd (ne_concat mylist str)
  have hlen : u.length ≤ 1019 := by omega
  by_cases hzero : 0 ∈ u
  · exact removesAgain_of_terminated hlen hzero
  by_cases hne : u = []
  · -- the string is whatever the memory holds
    subst hne
    refine iff_of_false ?_ (by simp [Removable])
    intro h
    exact absurd ((removesAgain_iff hlen).mp h [98] [] (by decide) (by decide)).2 (by decide)
  · exact removesAgain_of_open hlen hzero hne

/-- `add a b` stores the string `a b`, and `remove a b` looks for `a`. -/
theorem not_removesAgain_inner_space : ¬RemovesAgain [] (bytes "a b\n") := by
  intro h
  have hadd : (modlistWrite (List.replicate 1024 0) 0 (bytes "add " ++ bytes "a b\n") true []).1 =
      [] ++ [bytes "a b"] := by
    decide +kernel
  have hremove : (modlistWrite (List.replicate 1024 0) 0 (bytes "remove " ++ bytes "a b\n") true
      ([] ++ [bytes "a b"])).1 = [bytes "a b"] := by
    decide +kernel
  have hgone := h (List.replicate 1024 0) (List.replicate 1024 0) List.length_replicate.ge
    List.length_replicate.ge _ hadd
  rw [hremove] at hgone
  exact absurd hgone (by decide)

end LinuxInternals.Stringlist
