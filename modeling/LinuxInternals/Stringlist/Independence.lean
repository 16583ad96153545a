import LinuxInternals.Stringlist.Copies

/-!
# What a write of a string depends on

The memory behind the text of the user is parsed with it, and a token that does not end in the
text goes on there for as long as there are letters, past the end of `str` if there are many. A
text that may still become one of the commands depends on what follows as well.
-/

namespace LinuxInternals.Stringlist

open Text

/-- Whatever the memory held before, a write of the bytes keeps to the arrays, and two writes of
them leave the same list. -/
def Independent (buf : List UInt8) : Prop :=
  ∀ mylist mem mem', 1024 ≤ mem.length → 1024 ≤ mem'.length →
    (∀ str ∈ copies mem 0 buf true, str.length + 1 ≤ 20) ∧
      (modlistWrite mem 0 buf true mylist).1 = (modlistWrite mem' 0 buf true mylist).1

/-- Behind a command: a blank ends the token. -/
def Ends (u : List UInt8) : Prop := ∃ c ∈ skipSpaces u, isSpace c = true

/-- The bytes of the user, which are not terminated, make the same command with whatever follows
them. -/
structure Decided (buf : List UInt8) : Prop where
  add : ∀ u, buf = bytes "add" ++ u → Ends u
  remove : ∀ u, buf = bytes "remove" ++ u → Ends u
  started : ¬buf <+: bytes "ad" ∧ ¬buf <+: bytes "remov" ∧ ¬buf <+: bytes "cleanup\n"

section Commands

variable {mem mem' buf : List UInt8} {mylist : List (List UInt8)}

/-- The text that a write parses. -/
def parsed (mem buf : List UInt8) : List UInt8 := cstring (buf ++ mem.drop buf.length)

theorem scanStr_eq_none {w text : List UInt8} {format : String}
    (hformat : directives (bytes format) = w.map .lit ++ [.space, .str])
    (h : ∀ s, text = w ++ s → scanToken s = none) : scanStr text format = none := by
  rw [Option.eq_none_iff_forall_ne_some]
  intro token hscan
  obtain ⟨s, htext, htoken⟩ := (scanStr_eq_some_iff hformat text token).mp hscan
  rw [h s htext] at htoken
  cases htoken

theorem add_ne_remove (s s' : List UInt8) : bytes "add" ++ s ≠ bytes "remove" ++ s' := by
  intro heq
  exact absurd (List.head_eq_of_cons_eq heq) (by decide)

theorem write_eq (hlen : buf.length ≤ 1023)
    (hadd : scanStr (parsed mem buf) "add %s" = none) :
    (modlistWrite mem 0 buf true mylist).1 =
      (scanStr (parsed mem buf) "remove %s").elim
        (if parsed mem buf = bytes "cleanup\n" then [] else mylist)
        fun str => modlistRemove str mylist := by
  rw [parsed] at hadd ⊢
  rw [modlistWrite, if_neg (lt_irrefl 0), if_neg (not_lt.mpr hlen), if_neg (by decide)]
  simp only [hadd, modlistCleanup_eq]
  cases scanStr (cstring (buf ++ mem.drop buf.length)) "remove %s" with
  | some str => rfl
  | none => rfl

/-- The string of `add` does not look behind the bytes of the user, unless the last of them
belongs to the command. -/
theorem addString_eq {w v : List UInt8} (hw : w.length = 4) (c : UInt8) (mem : List UInt8) :
    addString mem (w ++ (v ++ [c])) = cstring v := by
  have hlen : (w ++ (v ++ [c])).length = (v.length + 4) + 1 := by
    simp [hw, Nat.add_comm, Nat.add_left_comm]
  rw [addString, hlen, cutLast]
  generalize mem.drop (v.length + 4 + 1) = rest
  have hset : ((w ++ (v ++ [c]) ++ rest).set (v.length + 4) 0).drop 4 = v ++ 0 :: rest := by
    rw [List.append_assoc, List.append_assoc, Nat.add_comm, ← hw,
      List.set_append_right _ _ (by simp)]
    simp
  rw [hset, cstring_append_zero]

theorem exists_cut (hlen : 5 ≤ buf.length) : ∃ w v c, buf = w ++ (v ++ [c]) ∧ w.length = 4 := by
  have hdrop : buf.drop 4 ≠ [] := by
    intro hnil
    have hshort := List.drop_eq_nil_iff.mp hnil
    omega
  obtain ⟨v, c, hv⟩ := (List.eq_nil_or_concat _).resolve_left hdrop
  refine ⟨buf.take 4, v, c, ?_, ?_⟩
  · rw [← List.concat_eq_append, ← hv, List.take_append_drop]
  · rw [List.length_take]
    omega

theorem addString_congr (hlen : 5 ≤ buf.length) : addString mem buf = addString mem' buf := by
  obtain ⟨w, v, c, rfl, hw⟩ := exists_cut hlen
  rw [addString_eq hw, addString_eq hw]

/-- With `mem` and with `mem'` behind it, a text is parsed as the same command. -/
structure Alike (mem mem' buf : List UInt8) : Prop where
  add : scanStr (parsed mem buf) "add %s" = scanStr (parsed mem' buf) "add %s"
  remove : scanStr (parsed mem buf) "remove %s" = scanStr (parsed mem' buf) "remove %s"
  cleanup : parsed mem buf = bytes "cleanup\n" ↔ parsed mem' buf = bytes "cleanup\n"
  string : (scanStr (parsed mem buf) "add %s").isSome = true →
    addString mem buf = addString mem' buf

theorem Alike.write_eq (h : Alike mem mem' buf) (hlen : buf.length ≤ 1023) :
    (modlistWrite mem 0 buf true mylist).1 = (modlistWrite mem' 0 buf true mylist).1 := by
  cases hscan : scanStr (parsed mem buf) "add %s" with
  | none =>
    rw [Stringlist.write_eq hlen hscan, Stringlist.write_eq hlen (h.add.symm.trans hscan),
      h.remove, if_congr h.cleanup rfl rfl]
  | some token =>
    rw [(write_of_add mylist hlen hscan).2, h.string (Option.isSome_of_eq_some hscan),
      (write_of_add mylist hlen (h.add.symm.trans hscan)).2]

theorem Alike.copies_eq (h : Alike mem mem' buf) (hlen : buf.length ≤ 1023) :
    copies mem 0 buf true = copies mem' 0 buf true := by
  cases hscan : scanStr (parsed mem buf) "add %s" with
  | none =>
    have hremove := h.remove
    rw [parsed, parsed] at hremove
    rw [(write_of_not_add [] hlen hscan).1,
      (write_of_not_add [] hlen (h.add.symm.trans hscan)).1, hremove]
  | some token =>
    rw [(write_of_add [] hlen hscan).1, h.string (Option.isSome_of_eq_some hscan),
      (write_of_add [] hlen (h.add.symm.trans hscan)).1]

end Commands

section Sufficiency

variable {buf u : List UInt8}

theorem alike_of_zero_mem (hzero : 0 ∈ buf) (mem mem' : List UInt8) : Alike mem mem' buf := by
  have hparsed (mem : List UInt8) : parsed mem buf = cstring buf := cstring_append_of_mem hzero _
  constructor
  · rw [hparsed, hparsed]
  · rw [hparsed, hparsed]
  · rw [hparsed, hparsed]
  · intro hsome
    obtain ⟨token, hscan⟩ := Option.isSome_iff_exists.mp hsome
    obtain ⟨s, hs, htoken⟩ := (scanStr_eq_some_iff directives_add _ _).mp hscan
    rw [hparsed] at hs
    -- the token and the terminator are behind the three letters
    have hne : s ≠ [] := by
      rintro rfl
      cases htoken
    have hadd : (bytes "add").length = 3 := by decide
    have hshort : (cstring buf).length ≠ buf.length := by
      intro heq
      have hself := (List.takeWhile_prefix (· != 0)).eq_of_length heq
      rw [← hself] at hzero
      exact zero_not_mem_cstring buf hzero
    have hle := (List.takeWhile_prefix (p := (· != 0)) (l := buf)).length_le
    change (cstring buf).length ≤ buf.length at hle
    have hpos := List.length_pos_of_ne_nil hne
    rw [hs, List.length_append, hadd] at hshort hle
    exact addString_congr (by omega)

theorem parsed_of_open (hzero : 0 ∉ buf) (mem : List UInt8) :
    parsed mem buf = buf ++ cstring (mem.drop buf.length) := cstring_append hzero _

/-- A token that a blank ends is the same with whatever follows. -/
theorem Ends.scanToken (h : Ends u) : ∃ token, ∀ r, scanToken (u ++ r) = some token := by
  obtain ⟨c, hc, hspace⟩ := h
  have hne : skipSpaces u ≠ [] := List.ne_nil_of_mem hc
  refine ⟨(skipSpaces u).takeWhile fun c => !isSpace c, fun r => ?_⟩
  rw [Text.scanToken, skipSpaces_append hne,
    if_neg (List.append_ne_nil_of_left_ne_nil hne r), List.takeWhile_append, if_neg]
  intro hall
  have hself := (List.takeWhile_prefix fun c => !isSpace c).eq_of_length hall
  have hnot := List.takeWhile_eq_self_iff.mp hself c hc
  rw [hspace] at hnot
  cases hnot

theorem Ends.two_le (h : Ends u) : 2 ≤ u.length := by
  obtain ⟨c, hc, hspace⟩ := h
  obtain ⟨x, t, hskip⟩ := List.exists_cons_of_ne_nil (List.ne_nil_of_mem hc)
  have hx := isSpace_of_skipSpaces hskip
  have hmem : c ∈ t := by
    rw [hskip] at hc
    rcases List.mem_cons.mp hc with rfl | hmem
    · rw [hspace] at hx
      cases hx
    · exact hmem
  have hle : (skipSpaces u).length ≤ u.length := (List.dropWhile_sublist _).length_le
  have hpos := List.length_pos_of_mem hmem
  rw [hskip, List.length_cons] at hle
  omega

theorem alike_of_add (hzero : 0 ∉ buf) (hbuf : buf = bytes "add" ++ u) (h : Ends u)
    (mem mem' : List UInt8) : Alike mem mem' buf := by
  obtain ⟨token, htoken⟩ := h.scanToken
  have htext (mem : List UInt8) :
      parsed mem buf = bytes "add" ++ (u ++ cstring (mem.drop buf.length)) := by
    rw [parsed_of_open hzero, ← List.append_assoc, ← hbuf]
  have hscan (mem : List UInt8) : scanStr (parsed mem buf) "add %s" = some token :=
    (scanStr_eq_some_iff directives_add _ _).mpr ⟨_, htext mem, htoken _⟩
  have hremove (mem : List UInt8) : scanStr (parsed mem buf) "remove %s" = none :=
    scanStr_eq_none directives_remove fun s hs =>
      absurd ((htext mem).symm.trans hs) (add_ne_remove _ s)
  have hcleanup (mem : List UInt8) : parsed mem buf ≠ bytes "cleanup\n" := by
    rw [htext]
    intro heq
    exact absurd (List.head_eq_of_cons_eq heq) (by decide)
  have hfive : 5 ≤ buf.length := by
    have htwo := h.two_le
    have hadd : (bytes "add").length = 3 := by decide
    rw [hbuf, List.length_append, hadd]
    omega
  constructor
  · rw [hscan, hscan]
  · rw [hremove, hremove]
  · exact iff_of_false (hcleanup mem) (hcleanup mem')
  · exact fun _ => addString_congr hfive

theorem alike_of_remove (hzero : 0 ∉ buf) (hbuf : buf = bytes "remove" ++ u) (h : Ends u)
    (mem mem' : List UInt8) : Alike mem mem' buf := by
  obtain ⟨token, htoken⟩ := h.scanToken
  have htext (mem : List UInt8) :
      parsed mem buf = bytes "remove" ++ (u ++ cstring (mem.drop buf.length)) := by
    rw [parsed_of_open hzero, ← List.append_assoc, ← hbuf]
  have hadd (mem : List UInt8) : scanStr (parsed mem buf) "add %s" = none :=
    scanStr_eq_none directives_add fun s hs =>
      absurd (hs.symm.trans (htext mem)) (add_ne_remove s _)
  have hscan (mem : List UInt8) : scanStr (parsed mem buf) "remove %s" = some token :=
    (scanStr_eq_some_iff directives_remove _ _).mpr ⟨_, htext mem, htoken _⟩
  have hcleanup (mem : List UInt8) : parsed mem buf ≠ bytes "cleanup\n" := by
    rw [htext]
    intro heq
    exact absurd (List.head_eq_of_cons_eq heq) (by decide)
  constructor
  · rw [hadd, hadd]
  · rw [hscan, hscan]
  · exact iff_of_false (hcleanup mem) (hcleanup mem')
  · rw [hadd]
    exact fun hsome => absurd hsome Bool.false_ne_true

theorem alike_of_other (hzero : 0 ∉ buf) (hadd : ¬bytes "add" <+: buf)
    (hremove : ¬bytes "remove" <+: buf)
    (hstarted : ¬buf <+: bytes "ad" ∧ ¬buf <+: bytes "remov" ∧ ¬buf <+: bytes "cleanup\n")
    (mem mem' : List UInt8) : Alike mem mem' buf := by
  obtain ⟨had, hremov, hcleanup⟩ := hstarted
  have hword {w : List UInt8} (mem : List UInt8) {s : List UInt8} (hs : parsed mem buf = w ++ s) :
      w <+: buf ∨ buf <+: w := by
    rw [parsed_of_open hzero] at hs
    exact List.prefix_or_prefix_of_prefix (hs ▸ List.prefix_append w s) (List.prefix_append ..)
  have hnoAdd (mem : List UInt8) : scanStr (parsed mem buf) "add %s" = none := by
    apply scanStr_eq_none directives_add
    intro s hs
    have hshorter : ∀ b ∈ (bytes "add").inits, b <+: bytes "ad" ∨ bytes "add" <+: b := by decide
    rcases hword mem hs with h | h
    · exact absurd h hadd
    · rcases hshorter buf ((List.mem_inits _ _).mpr h) with h | h
      · exact absurd h had
      · exact absurd h hadd
  have hnoRemove (mem : List UInt8) : scanStr (parsed mem buf) "remove %s" = none := by
    apply scanStr_eq_none directives_remove
    intro s hs
    have hshorter : ∀ b ∈ (bytes "remove").inits, b <+: bytes "remov" ∨ bytes "remove" <+: b := by
      decide
    rcases hword mem hs with h | h
    · exact absurd h hremove
    · rcases hshorter buf ((List.mem_inits _ _).mpr h) with h | h
      · exact absurd h hremov
      · exact absurd h hremove
  have hnoCleanup (mem : List UInt8) : parsed mem buf ≠ bytes "cleanup\n" := by
    intro hs
    rw [parsed_of_open hzero] at hs
    exact hcleanup (hs ▸ List.prefix_append ..)
  constructor
  · rw [hnoAdd, hnoAdd]
  · rw [hnoRemove, hnoRemove]
  · exact iff_of_false (hnoCleanup mem) (hnoCleanup mem')
  · rw [hnoAdd]
    exact fun hsome => absurd hsome Bool.false_ne_true

/-- What follows a text that is terminated or decided plays no part. -/
theorem alike_of_decided (h : 0 ∈ buf ∨ Decided buf) (mem mem' : List UInt8) :
    Alike mem mem' buf := by
  by_cases hzero : 0 ∈ buf
  · exact alike_of_zero_mem hzero mem mem'
  have h := h.resolve_left hzero
  by_cases hadd : bytes "add" <+: buf
  · obtain ⟨u, hu⟩ := hadd
    exact alike_of_add hzero hu.symm (h.add u hu.symm) mem mem'
  by_cases hremove : bytes "remove" <+: buf
  · obtain ⟨u, hu⟩ := hremove
    exact alike_of_remove hzero hu.symm (h.remove u hu.symm) mem mem'
  exact alike_of_other hzero hadd hremove h.started mem mem'

end Sufficiency

section Necessity

variable {buf u w : List UInt8}

/-- Memory that holds `e` behind the text. -/
def behind (buf e : List UInt8) : List UInt8 := buf ++ e ++ List.replicate 1024 0

theorem le_length_behind (buf e : List UInt8) : 1024 ≤ (behind buf e).length := by
  rw [behind, List.length_append, List.length_replicate]
  exact Nat.le_add_left 1024 _

theorem parsed_behind (hzero : 0 ∉ buf) {e : List UInt8} (he : 0 ∉ e) :
    parsed (behind buf e) buf = buf ++ e := by
  rw [parsed_of_open hzero, behind, List.append_assoc, List.drop_left, cstring_append he]
  rw [show cstring (List.replicate 1024 0) = [] from rfl, List.append_nil]

/-- A token that goes on to the end of the text goes on behind it. -/
theorem scanToken_append_word (hu : ¬Ends u) {e : List UInt8} (hne : e ≠ [])
    (he : ∀ c ∈ e, isSpace c = false) : scanToken (u ++ e) = some (skipSpaces u ++ e) := by
  have hskip : skipSpaces (u ++ e) = skipSpaces u ++ e := by
    by_cases hnil : skipSpaces u = []
    · obtain ⟨x, t, rfl⟩ := List.exists_cons_of_ne_nil hne
      have hblank := List.dropWhile_eq_nil_iff.mp hnil
      rw [hnil, skipSpaces, List.dropWhile_append_of_pos hblank,
        List.dropWhile_cons_of_neg (ne_true_of_eq_false (he x List.mem_cons_self)),
        List.nil_append]
    · exact skipSpaces_append hnil e
  have hword : ∀ c ∈ skipSpaces u ++ e, (!isSpace c) = true := by
    intro c hc
    rw [Bool.not_eq_true']
    rcases List.mem_append.mp hc with hc | hc
    · exact Bool.of_not_eq_true fun hspace => hu ⟨c, hc, hspace⟩
    · exact he c hc
  rw [scanToken, hskip, if_neg (List.append_ne_nil_of_right_ne_nil _ hne),
    List.takeWhile_eq_self_iff.mpr hword]

/-- Behind a token that does not end, twenty letters leave no room in `str`. -/
theorem ends_of_independent (hlen : buf.length ≤ 1023) (hzero : 0 ∉ buf) (h : Independent buf) :
    (∀ u, buf = bytes "add" ++ u → Ends u) ∧ ∀ u, buf = bytes "remove" ++ u → Ends u := by
  let e : List UInt8 := List.replicate 20 97
  have hinside := (h [] _ _ (le_length_behind buf e) (le_length_behind buf e)).1
  have htext {w u : List UInt8} (hbuf : buf = w ++ u) :
      parsed (behind buf e) buf = w ++ (u ++ e) := by
    rw [parsed_behind hzero (by decide), hbuf, List.append_assoc]
  have htoken {u : List UInt8} (hu : ¬Ends u) : scanToken (u ++ e) = some (skipSpaces u ++ e) :=
    scanToken_append_word hu (List.cons_ne_nil _ _) fun c hc => by
      rw [List.eq_of_mem_replicate hc]
      rfl
  have hlong (u : List UInt8) : 20 < (skipSpaces u ++ e).length + 1 := by
    rw [List.length_append, List.length_replicate]
    omega
  constructor
  · intro u hbuf
    by_contra hu
    have hscan := (scanStr_eq_some_iff directives_add _ _).mpr ⟨_, htext hbuf, htoken hu⟩
    rw [(write_of_add [] hlen hscan).1] at hinside
    exact absurd (hinside _ List.mem_cons_self) (not_le.mpr (hlong u))
  · intro u hbuf
    by_contra hu
    have hadd : scanStr (parsed (behind buf e) buf) "add %s" = none :=
      scanStr_eq_none directives_add fun s hs =>
        absurd (hs.symm.trans (htext hbuf)) (add_ne_remove s _)
    have hscan : scanStr (cstring (buf ++ (behind buf e).drop buf.length)) "remove %s" = _ :=
      (scanStr_eq_some_iff directives_remove _ _).mpr ⟨_, htext hbuf, htoken hu⟩
    rw [(write_of_not_add [] hlen hadd).1, hscan] at hinside
    exact absurd (hinside _ (by simp)) (not_le.mpr (hlong u))

/-- What is no command yet may become one. -/
theorem started_of_independent (h : Independent buf) :
    ¬buf <+: bytes "ad" ∧ ¬buf <+: bytes "remov" ∧ ¬buf <+: bytes "cleanup\n" := by
  refine ⟨fun hstart => ?_, fun hstart => ?_, fun hstart => ?_⟩
  · have hadds : ∀ b ∈ (bytes "ad").inits,
        (modlistWrite (behind [] (bytes "addab")) 0 b true []).1 ≠
          (modlistWrite (behind [] []) 0 b true []).1 := by
      decide +kernel
    exact hadds buf ((List.mem_inits _ _).mpr hstart)
      (h _ _ _ (le_length_behind _ _) (le_length_behind _ _)).2
  · have hremoves : ∀ b ∈ (bytes "remov").inits,
        (modlistWrite (behind [] (bytes "removea")) 0 b true [[97]]).1 ≠
          (modlistWrite (behind [] (bytes "removeb")) 0 b true [[97]]).1 := by
      decide +kernel
    exact hremoves buf ((List.mem_inits _ _).mpr hstart)
      (h _ _ _ (le_length_behind _ _) (le_length_behind _ _)).2
  · have hcleans : ∀ b ∈ (bytes "cleanup\n").inits,
        (modlistWrite (behind [] (bytes "cleanup\n")) 0 b true [[]]).1 ≠
          (modlistWrite (behind [] (bytes "cleanup\nx")) 0 b true [[]]).1 := by
      decide +kernel
    exact hcleans buf ((List.mem_inits _ _).mpr hstart)
      (h _ _ _ (le_length_behind _ _) (le_length_behind _ _)).2

end Necessity

/-- When the list that a write leaves depends on the bytes of the user alone: the strings that the
bytes themselves ask for are short, and what follows the bytes plays no part. -/
theorem write_independent_iff {buf : List UInt8} (hlen : buf.length ≤ 1023) :
    Independent buf ↔ Short [] buf ∧ (0 ∈ buf ∨ Decided buf) := by
  constructor
  · intro h
    have hdecided : 0 ∈ buf ∨ Decided buf := by
      by_cases hzero : 0 ∈ buf
      · exact .inl hzero
      · obtain ⟨hadd, hremove⟩ := ends_of_independent hlen hzero h
        exact .inr ⟨hadd, hremove, started_of_independent h⟩
    refine ⟨(copies_short_iff hlen).mp ?_, hdecided⟩
    rw [(alike_of_decided hdecided [] (behind buf [])).copies_eq hlen]
    intro str hstr
    have hinside := (h [] _ _ (le_length_behind buf []) (le_length_behind buf [])).1
    exact Nat.le_of_succ_le_succ (hinside str hstr)
  · rintro ⟨hshort, hdecided⟩ mylist mem mem' - -
    refine ⟨?_, (alike_of_decided hdecided mem mem').write_eq hlen⟩
    rw [(alike_of_decided hdecided mem []).copies_eq hlen]
    intro str hstr
    exact Nat.succ_le_succ ((copies_short_iff hlen).mpr hshort str hstr)

theorem write_independent_iff_lines :
    Independent (bytes "add five\n") ∧ ¬Independent (bytes "add five") ∧
      ¬Independent (bytes "add aaaaaaaaaaaaaaaaaaaa\n") := by
  have hopen : ∀ c ∈ skipSpaces (bytes " five"), isSpace c = false := by decide +kernel
  refine ⟨(write_independent_iff (by decide)).mpr ⟨?_, .inr ⟨?_, ?_, by decide⟩⟩, ?_, ?_⟩
  · exact (copies_short_iff (by decide)).mp (by decide +kernel)
  · intro u hu
    have hfive : bytes "add five\n" = bytes "add" ++ bytes " five\n" := by decide
    rw [List.append_cancel_left (hu.symm.trans hfive)]
    exact ⟨10, by decide +kernel, by decide⟩
  · intro u hu
    exact absurd (List.head_eq_of_cons_eq hu) (by decide)
  · intro h
    have hdecided := ((write_independent_iff (by decide)).mp h).2.resolve_left (by decide)
    obtain ⟨c, hc, hspace⟩ := hdecided.add (bytes " five") (by decide)
    rw [hopen c hc] at hspace
    cases hspace
  · intro h
    have hshort := ((write_independent_iff (by decide)).mp h).1
    exact absurd ((copies_short_iff (by decide)).mpr hshort) (by decide +kernel)

end LinuxInternals.Stringlist
