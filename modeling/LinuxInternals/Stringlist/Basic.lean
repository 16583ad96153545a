import LinuxInternals.Lib.Scanning
import LinuxInternals.Modlist.Basic

/-!
# The module `modlist` with strings

`Pr1/Opcional2/modlist.c` keeps strings in its list. A command is recognised by a token, but
`add` takes its string from a fixed offset of the text and cuts the last byte off. What the
copies into arrays of `STRING_LENGTH` bytes overwrite behind them is not modelled here.
-/

namespace LinuxInternals.Stringlist

open Text
open Modlist (Ret)

def modlistAdd (str : List UInt8) (mylist : List (List UInt8)) : List (List UInt8) :=
  if 20 < str.length then mylist else mylist ++ [str]

/-- `list_for_each_safe` has the next node before the current one is deleted. -/
def modlistRemove (str : List UInt8) : List (List UInt8) → List (List UInt8)
  | [] => []
  | string :: mylist =>
    if string = str then modlistRemove str mylist else string :: modlistRemove str mylist

def modlistCleanup : List (List UInt8) → List (List UInt8)
  | [] => []
  | _ :: mylist => modlistCleanup mylist

/-- `modlistbuffer[len-1] = '\0'`; when nothing was written the store goes in front of the
buffer. -/
def cutLast (modlistbuffer : List UInt8) : Nat → List UInt8
  | 0 => modlistbuffer
  | n + 1 => modlistbuffer.set n 0

/-- `mem` is what the memory from `modlistbuffer` on held before the write: the 1024 bytes asked
for, and whatever is behind them in the pages of `vmalloc`. -/
def modlistWrite (mem : List UInt8) (off : Nat) (buf : List UInt8) (copied : Bool)
    (mylist : List (List UInt8)) : List (List UInt8) × Ret × Nat :=
  if 0 < off then (mylist, .done 0, off)
  else if 1023 < buf.length then (mylist, .error .enospc, off)
  else if !copied then (mylist, .error .efault, off)
  else
    let modlistbuffer := buf ++ mem.drop buf.length
    let mylist :=
      match scanStr (cstring modlistbuffer) "add %s" with
      | some _ => modlistAdd (cstring ((cutLast modlistbuffer buf.length).drop 4)) mylist
      | none =>
        match scanStr (cstring modlistbuffer) "remove %s" with
        | some str => modlistRemove str mylist
        | none =>
          if cstring modlistbuffer = bytes "cleanup\n" then modlistCleanup mylist else mylist
    (mylist, .done buf.length, off + buf.length)

theorem modlistRemove_eq (str : List UInt8) (l : List (List UInt8)) :
    modlistRemove str l = l.filter (· ≠ str) := by
  induction l with
  | nil => rfl
  | cons string l ih =>
    rw [modlistRemove, ih]
    split
    · rw [List.filter_cons_of_neg (by simpa using ‹string = str›)]
    · rw [List.filter_cons_of_pos (by simpa using ‹¬string = str›)]

section Write

variable {mem u : List UInt8} {l : List (List UInt8)}

theorem directives_add :
    directives (bytes "add %s") = (bytes "add").map .lit ++ [.space, .str] := by
  decide

theorem directives_remove :
    directives (bytes "remove %s") = (bytes "remove").map .lit ++ [.space, .str] := by
  decide

/-- What `add` stores of the bytes behind the command, where `rest` follows them in memory. -/
def stored (u rest : List UInt8) : List UInt8 :=
  if u = [] then cstring rest else cstring u.dropLast

theorem stored_eq (u rest : List UInt8) :
    cstring ((cutLast (bytes "add " ++ u ++ rest) (bytes "add " ++ u).length).drop 4) =
      stored u rest := by
  have hadd : bytes "add " = [97, 100, 100, 32] := by decide
  rw [hadd, stored]
  rcases List.eq_nil_or_concat u with rfl | ⟨v, c, rfl⟩
  · rfl
  · have hlen : ([97, 100, 100, 32] ++ v.concat c : List UInt8).length = (v.length + 4) + 1 := by
      simp
    rw [if_neg (by simp), hlen, cutLast, List.concat_eq_append, List.dropLast_concat]
    have hset : (([97, 100, 100, 32] ++ (v ++ [c]) ++ rest : List UInt8).set
        (v.length + 4) 0).drop 4 = v ++ 0 :: rest := by
      simp
    rw [hset, cstring_append_zero]

/-- The text that a command and what follows it make. -/
theorem cstring_command {w : List UInt8} (hw : 0 ∉ w) (u rest : List UInt8) :
    cstring (w ++ [32] ++ u ++ rest) = w ++ 32 :: cstring (u ++ rest) := by
  rw [List.append_assoc, cstring_append, List.append_assoc]
  · rfl
  · intro h
    rcases List.mem_append.mp h with h | h
    · exact hw h
    · exact absurd h (by decide)

theorem scanToken_blank (s : List UInt8) : scanToken (32 :: s) = scanToken s := rfl

theorem write_add (hlen : u.length ≤ 1019) :
    (modlistWrite mem 0 (bytes "add " ++ u) true l).1 =
      let rest := mem.drop (bytes "add " ++ u).length
      if (scanToken (cstring (u ++ rest))).isSome then modlistAdd (stored u rest) l
      else l := by
  have hadd : bytes "add " = bytes "add" ++ [32] := by decide
  have hfour : (bytes "add ").length = 4 := by decide
  rw [modlistWrite, if_neg (lt_irrefl 0), if_neg (by rw [List.length_append]; omega),
    if_neg (by decide)]
  generalize mem.drop (bytes "add " ++ u).length = rest
  dsimp only
  rw [stored_eq, hadd, cstring_command (by decide), scanStr_of_word directives_add,
    scanToken_blank]
  cases scanToken (cstring (u ++ rest)) with
  | some str => rfl
  | none =>
    have hprefix : bytes "add" <+: bytes "add" ++ 32 :: cstring (u ++ rest) :=
      List.prefix_append ..
    rw [scanStr_of_not_isPrefix directives_remove
      (not_isPrefix_of_isPrefix hprefix (by decide) (by decide)), if_neg]
    · rfl
    · intro heq
      rw [heq] at hprefix
      exact absurd hprefix (by decide)

theorem write_remove (hlen : u.length ≤ 1016) :
    (modlistWrite mem 0 (bytes "remove " ++ u) true l).1 =
      match scanToken (cstring (u ++ mem.drop (bytes "remove " ++ u).length)) with
      | some str => modlistRemove str l
      | none => l := by
  have hremove : bytes "remove " = bytes "remove" ++ [32] := by decide
  have hseven : (bytes "remove ").length = 7 := by decide
  rw [modlistWrite, if_neg (lt_irrefl 0), if_neg (by rw [List.length_append]; omega),
    if_neg (by decide)]
  dsimp only
  generalize mem.drop (bytes "remove " ++ u).length = rest
  have hprefix : bytes "remove" <+: bytes "remove" ++ 32 :: cstring (u ++ rest) :=
    List.prefix_append ..
  rw [hremove, cstring_command (by decide), scanStr_of_word directives_remove, scanToken_blank,
    scanStr_of_not_isPrefix directives_add
      (not_isPrefix_of_isPrefix hprefix (by decide) (by decide))]
  cases scanToken (cstring (u ++ rest)) with
  | some str => rfl
  | none =>
    have hcleanup : bytes "remove" ++ 32 :: cstring (u ++ rest) ≠ bytes "cleanup\n" := by
      intro heq
      rw [heq] at hprefix
      exact absurd hprefix (by decide)
    simp only [if_neg hcleanup]

theorem write_long {buf : List UInt8} (hlen : 1023 < buf.length) :
    (modlistWrite mem 0 buf true l).1 = l := by
  rw [modlistWrite, if_neg (lt_irrefl 0), if_pos hlen]

end Write

end LinuxInternals.Stringlist
