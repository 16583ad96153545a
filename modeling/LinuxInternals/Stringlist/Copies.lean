import LinuxInternals.Stringlist.Basic

/-!
# Strings in arrays of 20 bytes

`modlist_write` copies the token that `sscanf` finds and the string of `add` into `str` before
`modlist_add` looks at the length, and `modlist_add` lets twenty bytes pass, which leave no room
for the terminator. The copies stay inside the arrays exactly when all these strings are
shorter.
-/

namespace LinuxInternals.Stringlist

open Text

/-- The strings that `modlist_add` copies. -/
def modlistAddCopies (str : List UInt8) : List (List UInt8) :=
  if 20 < str.length then [] else [str]

/-- The string that `add` is asked for. -/
def addString (mem buf : List UInt8) : List UInt8 :=
  cstring ((cutLast (buf ++ mem.drop buf.length) buf.length).drop 4)

/-- The strings that a write copies into `str` and into a node, each with a terminator. -/
def copies (mem : List UInt8) (off : Nat) (buf : List UInt8) (copied : Bool) :
    List (List UInt8) :=
  if 0 < off then []
  else if 1023 < buf.length then []
  else if !copied then []
  else
    match scanStr (cstring (buf ++ mem.drop buf.length)) "add %s" with
    | some token => token :: addString mem buf :: modlistAddCopies (addString mem buf)
    | none =>
      match scanStr (cstring (buf ++ mem.drop buf.length)) "remove %s" with
      | some token => [token]
      | none => []

/-- A write copies at most 20 bytes at a time, adds no string that needs more, and leaves a
terminator in each node. -/
structure StringsFit (mem : List UInt8) (off : Nat) (buf : List UInt8) (copied : Bool)
    (mylist : List (List UInt8)) : Prop where
  inside : ∀ str ∈ copies mem off buf copied, str.length + 1 ≤ 20
  refused : (scanStr (cstring (buf ++ mem.drop buf.length)) "add %s").isSome = true →
    20 < (addString mem buf).length + 1 → (modlistWrite mem off buf copied mylist).1 = mylist
  terminated : (∀ str ∈ mylist, str.length < 20) →
    ∀ str ∈ (modlistWrite mem off buf copied mylist).1, str.length < 20

/-- The tokens behind the commands, and the string of `add`, have at most 19 bytes. -/
def Short (mem buf : List UInt8) : Prop :=
  (∀ s token, cstring (buf ++ mem.drop buf.length) = bytes "add" ++ s →
    scanToken s = some token → token.length ≤ 19 ∧ (addString mem buf).length ≤ 19) ∧
  ∀ s token, cstring (buf ++ mem.drop buf.length) = bytes "remove" ++ s →
    scanToken s = some token → token.length ≤ 19

/-- The write comes to the parse. -/
def Parsed (off : Nat) (buf : List UInt8) (copied : Bool) : Prop :=
  off = 0 ∧ buf.length ≤ 1023 ∧ copied = true

theorem modlistCleanup_eq (l : List (List UInt8)) : modlistCleanup l = [] := by
  induction l with
  | nil => rfl
  | cons string l ih => rw [modlistCleanup, ih]

theorem scanStr_eq_some_iff {w : List UInt8} {format : String}
    (hformat : directives (bytes format) = w.map .lit ++ [.space, .str])
    (text token : List UInt8) :
    scanStr text format = some token ↔ ∃ s, text = w ++ s ∧ scanToken s = some token := by
  by_cases hw : w <+: text
  · obtain ⟨s, rfl⟩ := hw
    rw [scanStr_of_word hformat]
    constructor
    · exact fun h => ⟨s, rfl, h⟩
    · rintro ⟨s', heq, h⟩
      rwa [List.append_cancel_left heq]
  · rw [scanStr_of_not_isPrefix hformat hw]
    apply iff_of_false (Option.some_ne_none token).symm
    rintro ⟨s, rfl, -⟩
    exact hw (List.prefix_append w s)

variable {mem buf : List UInt8} {off : Nat} {copied : Bool} {mylist : List (List UInt8)}

theorem write_of_not_parsed (mem : List UInt8) (mylist : List (List UInt8))
    (h : ¬Parsed off buf copied) :
    copies mem off buf copied = [] ∧ (modlistWrite mem off buf copied mylist).1 = mylist := by
  rw [copies, modlistWrite]
  split
  · exact ⟨rfl, rfl⟩
  split
  · exact ⟨rfl, rfl⟩
  split
  · exact ⟨rfl, rfl⟩
  · exact absurd ⟨by omega, by omega, by simpa using ‹¬(!copied) = true›⟩ h

theorem write_of_add (mylist : List (List UInt8)) (hlen : buf.length ≤ 1023) {token : List UInt8}
    (hadd : scanStr (cstring (buf ++ mem.drop buf.length)) "add %s" = some token) :
    copies mem 0 buf true =
        token :: addString mem buf :: modlistAddCopies (addString mem buf) ∧
      (modlistWrite mem 0 buf true mylist).1 = modlistAdd (addString mem buf) mylist := by
  have hfits := Nat.not_lt.mpr hlen
  rw [copies, modlistWrite, if_neg (lt_irrefl 0), if_neg (lt_irrefl 0), if_neg hfits,
    if_neg hfits, if_neg (by decide), if_neg (by decide)]
  simp only [hadd, addString, and_self]

theorem write_of_not_add (mylist : List (List UInt8)) (hlen : buf.length ≤ 1023)
    (hadd : scanStr (cstring (buf ++ mem.drop buf.length)) "add %s" = none) :
    copies mem 0 buf true =
        (scanStr (cstring (buf ++ mem.drop buf.length)) "remove %s").toList ∧
      ∀ str ∈ (modlistWrite mem 0 buf true mylist).1, str ∈ mylist := by
  have hfits := Nat.not_lt.mpr hlen
  rw [copies, modlistWrite, if_neg (lt_irrefl 0), if_neg (lt_irrefl 0), if_neg hfits,
    if_neg hfits, if_neg (by decide), if_neg (by decide)]
  simp only [hadd]
  cases scanStr (cstring (buf ++ mem.drop buf.length)) "remove %s" with
  | some token =>
    refine ⟨rfl, fun str hstr => ?_⟩
    simp only [modlistRemove_eq] at hstr
    exact List.mem_of_mem_filter hstr
  | none =>
    refine ⟨rfl, fun str hstr => ?_⟩
    simp only at hstr
    split at hstr
    · rw [modlistCleanup_eq] at hstr
      cases hstr
    · exact hstr

/-- Strings that are short enough for `str` are short enough for the list. -/
theorem stringsFit_of_inside (h : ∀ str ∈ copies mem off buf copied, str.length ≤ 19) :
    StringsFit mem off buf copied mylist := by
  by_cases hparsed : Parsed off buf copied
  · obtain ⟨rfl, hlen, rfl⟩ := hparsed
    cases hadd : scanStr (cstring (buf ++ mem.drop buf.length)) "add %s" with
    | some token =>
      obtain ⟨hcopies, hwrite⟩ := write_of_add mylist hlen hadd
      have hshort : (addString mem buf).length ≤ 19 := h _ (by simp [hcopies])
      refine ⟨fun str hstr => Nat.succ_le_succ (h str hstr), fun _ hlong => by omega, ?_⟩
      rw [hwrite, modlistAdd, if_neg (by omega)]
      intro hlist str hstr
      rcases List.mem_append.mp hstr with hstr | hstr
      · exact hlist str hstr
      · rw [List.mem_singleton.mp hstr]
        omega
    | none =>
      obtain ⟨-, hkept⟩ := write_of_not_add mylist hlen hadd
      refine ⟨fun str hstr => Nat.succ_le_succ (h str hstr), ?_,
        fun hlist str hstr => hlist str (hkept str hstr)⟩
      rw [hadd]
      exact fun hsome => absurd hsome Bool.false_ne_true
  · obtain ⟨-, hwrite⟩ := write_of_not_parsed mem mylist hparsed
    refine ⟨fun str hstr => Nat.succ_le_succ (h str hstr), fun _ _ => hwrite, ?_⟩
    rw [hwrite]
    exact fun hlist => hlist

theorem copies_short_iff (hlen : buf.length ≤ 1023) :
    (∀ str ∈ copies mem 0 buf true, str.length ≤ 19) ↔ Short mem buf := by
  have hadd := scanStr_eq_some_iff directives_add (cstring (buf ++ mem.drop buf.length))
  have hremove := scanStr_eq_some_iff directives_remove (cstring (buf ++ mem.drop buf.length))
  have hprefix : ∀ s s', bytes "add" ++ s ≠ bytes "remove" ++ s' := by
    intro s s' heq
    exact absurd (List.head_eq_of_cons_eq heq) (by decide)
  constructor
  · intro h
    constructor
    · intro s token htext htoken
      have hscan := (hadd token).mpr ⟨s, htext, htoken⟩
      obtain ⟨hcopies, -⟩ := write_of_add [] hlen hscan
      exact ⟨h token (by simp [hcopies]), h (addString mem buf) (by simp [hcopies])⟩
    · intro s token htext htoken
      have hscan := (hremove token).mpr ⟨s, htext, htoken⟩
      have hnone : scanStr (cstring (buf ++ mem.drop buf.length)) "add %s" = none := by
        rw [Option.eq_none_iff_forall_ne_some]
        intro token' htoken'
        obtain ⟨s', hs', -⟩ := (hadd token').mp htoken'
        exact hprefix s' s (hs'.symm.trans htext)
      obtain ⟨hcopies, -⟩ := write_of_not_add [] hlen hnone
      exact h token (by simp [hcopies, hscan])
  · rintro ⟨hshort, hshort'⟩ str hstr
    cases hscan : scanStr (cstring (buf ++ mem.drop buf.length)) "add %s" with
    | some token =>
      obtain ⟨hcopies, -⟩ := write_of_add [] hlen hscan
      obtain ⟨s, htext, htoken⟩ := (hadd token).mp hscan
      obtain ⟨htoken19, hstring19⟩ := hshort s token htext htoken
      rw [hcopies, modlistAddCopies, if_neg (by omega)] at hstr
      simp only [List.mem_cons, List.not_mem_nil, or_false, or_self] at hstr
      rcases hstr with rfl | rfl
      · exact htoken19
      · exact hstring19
    | none =>
      obtain ⟨hcopies, -⟩ := write_of_not_add [] hlen hscan
      rw [hcopies, Option.mem_toList] at hstr
      obtain ⟨s, htext, htoken⟩ := (hremove str).mp hstr
      exact hshort' s str htext htoken

/-- A write keeps to the arrays exactly when it is refused before the parse or its strings are
short. -/
theorem strings_fit_iff_short (mem : List UInt8) (off : Nat) (buf : List UInt8) (copied : Bool)
    (mylist : List (List UInt8)) :
    StringsFit mem off buf copied mylist ↔ (Parsed off buf copied → Short mem buf) := by
  have hinside : StringsFit mem off buf copied mylist ↔
      ∀ str ∈ copies mem off buf copied, str.length ≤ 19 :=
    ⟨fun h str hstr => Nat.le_of_succ_le_succ (h.inside str hstr), stringsFit_of_inside⟩
  rw [hinside]
  by_cases hparsed : Parsed off buf copied
  · obtain ⟨rfl, hlen, rfl⟩ := hparsed
    rw [copies_short_iff hlen]
    exact ⟨fun h _ => h, fun h => h ⟨rfl, hlen, rfl⟩⟩
  · rw [(write_of_not_parsed mem mylist hparsed).1]
    exact iff_of_true (List.forall_mem_nil _) fun h => absurd h hparsed

/-- Twenty letters are stored, and no terminator behind them. -/
theorem twentyLetters_not_fit :
    (modlistWrite (List.replicate 1024 0) 0 (bytes "add aaaaaaaaaaaaaaaaaaaa\n") true []).1 =
        [bytes "aaaaaaaaaaaaaaaaaaaa"] ∧
      ¬StringsFit (List.replicate 1024 0) 0 (bytes "add aaaaaaaaaaaaaaaaaaaa\n") true [] := by
  have hwrite : (modlistWrite (List.replicate 1024 0) 0 (bytes "add aaaaaaaaaaaaaaaaaaaa\n")
      true []).1 = [bytes "aaaaaaaaaaaaaaaaaaaa"] := by
    decide +kernel
  refine ⟨hwrite, fun h => ?_⟩
  have hlen := h.terminated (List.forall_mem_nil _) (bytes "aaaaaaaaaaaaaaaaaaaa")
    (by rw [hwrite]; exact List.mem_singleton_self _)
  exact absurd hlen (by decide)

end LinuxInternals.Stringlist
