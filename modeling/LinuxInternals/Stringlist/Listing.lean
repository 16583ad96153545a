import LinuxInternals.Lib.Sprintf
import LinuxInternals.Stringlist.Copies

/-!
# A list of strings and its text

`modlist_read` prints one string a line, and nothing keeps newlines out of a string, or one that
is blank out of the list. So the lines of a text, added one by one, need not rebuild the list
that was printed: a newline makes two strings of one, and of a blank string there is nothing that
`sscanf` could find.
-/

namespace LinuxInternals.Stringlist

open Text
open Modlist (Reply)

/-- `sprintf(modlistbuffer + buf_length, "%s\n", item->string)`. -/
def row (string : List UInt8) : List UInt8 := string ++ [10]

/-- What a text that leaves the buffer overwrites is not modelled. `len` is no bound for what is
copied to the user. -/
def modlistRead (off len : Nat) (copied : Bool) (mylist : List (List UInt8)) : Option Reply :=
  if 0 < off then some ⟨.done 0, [], off⟩
  else if len < 1 then some ⟨.error .enospc, [], off⟩
  else if ∀ i ∈ stores 0 (mylist.map row), i < 1024 then
    let modlistbuffer := mylist.flatMap row
    if !copied then some ⟨.error .einval, [], off⟩
    else some ⟨.done modlistbuffer.length, modlistbuffer, off + len⟩
  else none

structure Write where
  mem : List UInt8
  off : Nat
  buf : List UInt8
  copied : Bool
deriving DecidableEq, Repr

def Write.copies (w : Write) : List (List UInt8) := Stringlist.copies w.mem w.off w.buf w.copied

def Write.apply (mylist : List (List UInt8)) (w : Write) : List (List UInt8) :=
  (modlistWrite w.mem w.off w.buf w.copied mylist).1

/-- The list after the writes, on an empty list in the beginning. -/
def written (ws : List Write) : List (List UInt8) := ws.foldl Write.apply []

/-- The write that adds a line, into a buffer that holds `mem`. -/
def addLine (mem ln : List UInt8) : Write := ⟨mem, 0, bytes "add " ++ ln, true⟩

/-- A string as its node can keep it. -/
def Kept (str : List UInt8) : Prop := str.length ≤ 19 ∧ 0 ∉ str

/-- A string of one line that is not blank. -/
def Proper (str : List UInt8) : Prop := 10 ∉ str ∧ ∃ c ∈ str, isSpace c = false

section Runs

variable {w : Write} {ws : List Write} {mylist : List (List UInt8)}

theorem apply_kept (hshort : ∀ str ∈ w.copies, str.length ≤ 19)
    (h : ∀ str ∈ mylist, Kept str) : ∀ str ∈ w.apply mylist, Kept str := by
  obtain ⟨mem, off, buf, copied⟩ := w
  by_cases hparsed : Parsed off buf copied
  · obtain ⟨rfl, hlen, rfl⟩ := hparsed
    cases hadd : scanStr (cstring (buf ++ mem.drop buf.length)) "add %s" with
    | some token =>
      obtain ⟨hcopies, hlist⟩ := write_of_add mylist hlen hadd
      have hmem : addString mem buf ∈ Write.copies ⟨mem, 0, buf, true⟩ := by
        rw [Write.copies, hcopies]
        exact List.mem_cons_of_mem _ List.mem_cons_self
      have hkept : Kept (addString mem buf) := ⟨hshort _ hmem, zero_not_mem_cstring _⟩
      rw [Write.apply, hlist, modlistAdd]
      split
      · exact h
      · intro str hstr
        rcases List.mem_append.mp hstr with hstr | hstr
        · exact h str hstr
        · rw [List.mem_singleton.mp hstr]
          exact hkept
    | none =>
      intro str hstr
      exact h str ((write_of_not_add mylist hlen hadd).2 str hstr)
  · rw [Write.apply, (write_of_not_parsed mem mylist hparsed).2]
    exact h

theorem written_kept (hshort : ∀ w ∈ ws, ∀ str ∈ w.copies, str.length ≤ 19) :
    ∀ str ∈ written ws, Kept str := by
  apply List.foldlRecOn (motive := fun l => ∀ str ∈ l, Kept str)
  · intro str hstr
    cases hstr
  · intro mylist ih w hw
    exact apply_kept (hshort w hw) ih

end Runs

section Lines

variable {mylist l : List (List UInt8)} {text ln str mem : List UInt8}

/-- A line ends with the first newline in it. -/
theorem line_shape (h : ln ∈ lines text) : ln ≠ [] ∧ 10 ∉ ln.dropLast := by
  induction text generalizing ln with
  | nil => cases h
  | cons c s ih =>
    rw [lines] at h
    split at h
    · rcases List.mem_cons.mp h with rfl | h
      · exact ⟨List.cons_ne_nil _ _, List.not_mem_nil⟩
      · exact ih h
    · have hc : ¬c = 10 := ‹_›
      cases hlines : lines s with
      | nil =>
        rw [hlines] at h
        rw [List.mem_singleton.mp h]
        exact ⟨List.cons_ne_nil _ _, List.not_mem_nil⟩
      | cons first rest =>
        rw [hlines] at h ih
        rcases List.mem_cons.mp h with rfl | h
        · obtain ⟨hne, hlast⟩ := ih List.mem_cons_self
          rw [List.dropLast_cons_of_ne_nil hne, List.mem_cons, not_or]
          exact ⟨List.cons_ne_nil _ _, Ne.symm hc, hlast⟩
        · exact ih (List.mem_cons_of_mem _ h)

theorem lines_rows (h : ∀ str ∈ l, 10 ∉ str) : lines (l.flatMap row) = l.map row := by
  induction l with
  | nil => rfl
  | cons str l ih =>
    rw [List.forall_mem_cons] at h
    rw [List.flatMap_cons, row, List.append_assoc, List.singleton_append, lines_append h.1, ih h.2,
      List.map_cons, row]

/-- Adding a line adds its bytes up to the newline, if anything. -/
theorem mem_apply_addLine (hne : ln ≠ []) (h : str ∈ (addLine mem ln).apply mylist) :
    str ∈ mylist ∨ str = cstring ln.dropLast := by
  rw [Write.apply, addLine] at h
  by_cases hlen : ln.length ≤ 1019
  · rw [write_add hlen] at h
    dsimp only at h
    rw [stored, if_neg hne] at h
    split at h
    · rw [modlistAdd] at h
      split at h
      · exact .inl h
      · rw [List.mem_append, List.mem_singleton] at h
        exact h
    · exact .inl h
  · have hfour : (bytes "add ").length = 4 := by decide
    rw [write_long (by rw [List.length_append]; omega)] at h
    exact .inl h

/-- A row is added if `sscanf` finds something in it, or behind it. -/
theorem apply_addLine_row (h : Kept str) : (addLine mem (row str)).apply mylist =
    if (scanToken (row str ++ cstring (mem.drop (bytes "add " ++ row str).length))).isSome then
      mylist ++ [str]
    else mylist := by
  obtain ⟨hlen, hzero⟩ := h
  have hrow : (row str).length ≤ 1019 := by
    rw [row, List.length_append, List.length_singleton]
    omega
  have hterminator : 0 ∉ row str := by
    rw [row, List.mem_append, not_or]
    exact ⟨hzero, by decide⟩
  have hstored (rest : List UInt8) : stored (row str) rest = str := by
    rw [stored, row, if_neg (List.concat_ne_nil _ _), List.dropLast_concat,
      cstring_of_not_mem hzero]
  have hadds : modlistAdd str mylist = mylist ++ [str] := if_neg (by omega)
  rw [Write.apply, addLine, write_add hrow]
  dsimp only
  rw [cstring_append hterminator, hstored, hadds]

theorem apply_addLine_proper (hkept : Kept str) (hproper : ∃ c ∈ str, isSpace c = false) :
    (addLine mem (row str)).apply mylist = mylist ++ [str] := by
  obtain ⟨c, hc, hspace⟩ := hproper
  rw [apply_addLine_row hkept, if_pos]
  exact isSome_scanToken hspace (List.mem_append_left _ (List.mem_append_left _ hc))

/-- In a buffer that was cleared, nothing is found behind a blank row. -/
theorem apply_addLine_blank (hkept : Kept str) (hblank : ∀ c ∈ str, isSpace c = true) :
    (addLine (List.replicate 1024 0) (row str)).apply mylist = mylist := by
  have hcleared (n : Nat) : cstring ((List.replicate 1024 (0 : UInt8)).drop n) = [] := by
    rw [List.drop_replicate]
    cases 1024 - n with
    | zero => rfl
    | succ k => rfl
  have hnone : scanToken (row str) = none := by
    apply scanToken_eq_none_iff.mpr
    intro c hc
    rcases List.mem_append.mp hc with hc | hc
    · exact hblank c hc
    · rw [List.mem_singleton.mp hc]
      rfl
  rw [apply_addLine_row hkept, hcleared, List.append_nil, hnone]
  exact if_neg Bool.false_ne_true

end Lines

section Rebuilding

variable {ws : List Write} {l : List (List UInt8)} {mems : List (List UInt8)}

/-- The writes that add the lines of a text, each into memory of its own. -/
def addLines (mems : List (List UInt8)) (text : List UInt8) : List Write :=
  List.zipWith addLine mems (lines text)

/-- Whatever the buffers hold, the lines of the text rebuild the list. -/
def Rebuilds (text : List UInt8) (mylist : List (List UInt8)) : Prop :=
  ∀ mems, mems.length = (lines text).length → (∀ mem ∈ mems, 1024 ≤ mem.length) →
    written (addLines mems text) = mylist

theorem foldl_proper (hlen : mems.length = l.length) (hkept : ∀ str ∈ l, Kept str)
    (hproper : ∀ str ∈ l, Proper str) (start : List (List UInt8)) :
    (List.zipWith addLine mems (l.map row)).foldl Write.apply start = start ++ l := by
  induction l generalizing mems start with
  | nil => rw [List.map_nil, List.zipWith_nil_right, List.foldl_nil, List.append_nil]
  | cons str l ih =>
    cases mems with
    | nil => cases hlen
    | cons mem mems =>
      rw [List.forall_mem_cons] at hkept hproper
      rw [List.map_cons, List.zipWith_cons_cons, List.foldl_cons,
        apply_addLine_proper hkept.1 hproper.1.2, ih (Nat.succ.inj hlen) hkept.2 hproper.2,
        List.append_assoc, List.singleton_append]

theorem rebuilds_of_proper (hkept : ∀ str ∈ l, Kept str) (hproper : ∀ str ∈ l, Proper str) :
    Rebuilds (l.flatMap row) l := by
  have hlines := lines_rows fun str hstr => (hproper str hstr).1
  intro mems hlen _
  rw [hlines, List.length_map] at hlen
  rw [written, addLines, hlines, foldl_proper hlen hkept hproper, List.nil_append]

/-- No string that is added with a line has a newline. -/
theorem newline_not_mem_written (mems : List (List UInt8)) (text : List UInt8) :
    ∀ str ∈ written (addLines mems text), 10 ∉ str := by
  apply List.foldlRecOn (motive := fun l => ∀ str ∈ l, 10 ∉ str)
  · intro str hstr
    cases hstr
  · intro mylist ih w hw str hstr
    rw [addLines, ← List.map_uncurry_zip_eq_zipWith, List.mem_map] at hw
    obtain ⟨⟨mem, ln⟩, hzip, rfl⟩ := hw
    have hln := (List.of_mem_zip hzip).2
    obtain ⟨hne, hnewline⟩ := line_shape hln
    rcases mem_apply_addLine hne hstr with hstr | rfl
    · exact ih str hstr
    · intro h
      exact hnewline ((List.takeWhile_sublist _).mem h)

/-- Into buffers that were cleared, blank strings are not added. -/
theorem foldl_cleared (hkept : ∀ str ∈ l, Kept str) (start : List (List UInt8)) :
    (List.zipWith addLine (List.replicate l.length (List.replicate 1024 0)) (l.map row)).foldl
        Write.apply start =
      start ++ l.filter fun str => !str.all isSpace := by
  induction l generalizing start with
  | nil => exact (List.append_nil start).symm
  | cons str l ih =>
    rw [List.forall_mem_cons] at hkept
    rw [List.length_cons, List.replicate_succ, List.map_cons, List.zipWith_cons_cons,
      List.foldl_cons, ih hkept.2]
    cases hblank : str.all isSpace with
    | true =>
      rw [apply_addLine_blank hkept.1 (List.all_eq_true.mp hblank),
        List.filter_cons_of_neg (by rw [hblank]; exact Bool.false_ne_true)]
    | false =>
      have hproper : ∃ c ∈ str, isSpace c = false := by
        simpa using hblank
      rw [apply_addLine_proper hkept.1 hproper, List.filter_cons_of_pos (by rw [hblank]; rfl),
        List.append_assoc, List.singleton_append]

theorem proper_of_rebuilds (hkept : ∀ str ∈ l, Kept str) (h : Rebuilds (l.flatMap row) l) :
    ∀ str ∈ l, Proper str := by
  have hcleared := h (List.replicate (lines (l.flatMap row)).length (List.replicate 1024 0))
    List.length_replicate (by
      intro mem hmem
      rw [List.eq_of_mem_replicate hmem, List.length_replicate])
  have hnewline : ∀ str ∈ l, 10 ∉ str := by
    rw [← hcleared]
    exact newline_not_mem_written _ _
  rw [written, addLines, lines_rows hnewline, List.length_map, foldl_cleared hkept,
    List.nil_append, List.filter_eq_self] at hcleared
  intro str hstr
  have hblank := hcleared str hstr
  exact ⟨hnewline str hstr, by simpa using hblank⟩

/-- A list that the module has come to is rebuilt from its text exactly if it has no string with
a newline and no blank one. -/
theorem text_rebuilds {len : Nat} {r : Reply}
    (hshort : ∀ w ∈ ws, ∀ str ∈ w.copies, str.length ≤ 19) (hlen : 1 ≤ len)
    (hread : modlistRead 0 len true (written ws) = some r) :
    Rebuilds r.out (written ws) ↔ ∀ str ∈ written ws, Proper str := by
  have hkept := written_kept hshort
  have hout : r.out = (written ws).flatMap row := by
    rw [modlistRead, if_neg (lt_irrefl 0), if_neg (not_lt.mpr hlen)] at hread
    split at hread
    · cases hread
      rfl
    · cases hread
  rw [hout]
  exact ⟨proper_of_rebuilds hkept, rebuilds_of_proper hkept⟩

/-- The string `a b`, and an empty one, of which the text lacked the newline. -/
def twoAdds : List Write :=
  [⟨[], 0, bytes "add a b\n", true⟩, ⟨[0], 0, bytes "add x", true⟩]

theorem text_rebuilds_twoAdds : ¬Rebuilds (bytes "a b\n\n") [bytes "a b", []] := by
  have hshort : ∀ w ∈ twoAdds, ∀ str ∈ w.copies, str.length ≤ 19 := by decide +kernel
  have hread : modlistRead 0 64 true (written twoAdds) =
      some ⟨.done 5, bytes "a b\n\n", 64⟩ := by
    decide +kernel
  have hlist : written twoAdds = [bytes "a b", []] := by decide +kernel
  intro h
  rw [← hlist] at h
  have hproper := (text_rebuilds hshort (by decide) hread).mp h []
  rw [hlist] at hproper
  obtain ⟨-, c, hc, -⟩ := hproper (by decide)
  cases hc

end Rebuilding

end LinuxInternals.Stringlist
