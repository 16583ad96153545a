import LinuxInternals.Lib.Scanning
import LinuxInternals.Modtimer.ConfigRead

/-!
# Configuring and reading back

A write to `/proc/modconfig` sets the value that its command names and leaves the others. A
number below 2^64 is stored as a signed word, and is printed as it was written.
-/

namespace LinuxInternals.Modtimer

open Text

variable {msecsToJiffies : UInt32 → UInt64} {jiffiesToMsecs : UInt64 → UInt32} {cfg : Config}

/-- At most one value differs. -/
def ChangesOne (cfg cfg' : Config) : Prop :=
  cfg' = { cfg with timerPeriod := cfg'.timerPeriod } ∨
  cfg' = { cfg with emergencyThreshold := cfg'.emergencyThreshold } ∨
  cfg' = { cfg with maxRandom := cfg'.maxRandom }

def configFormats : List String :=
  ["timer_period_ms %zu", "emergency_threshold %zu", "max_random %zu"]

theorem directives_threshold :
    directives (bytes "emergency_threshold %zu") =
      (bytes "emergency_threshold").map .lit ++ [.space, .size] := by
  decide

theorem directives_maxRandom :
    directives (bytes "max_random %zu") = (bytes "max_random").map .lit ++ [.space, .size] := by
  decide

theorem directives_period :
    directives (bytes "timer_period_ms %zu") =
      (bytes "timer_period_ms").map .lit ++ [.space, .size] := by
  decide

theorem configWrite_changesOne (off : Nat) (buf : List UInt8) (copied : Bool) :
    ChangesOne cfg (modtimerConfigWrite msecsToJiffies cfg off buf copied).1 := by
  rw [modtimerConfigWrite]
  split
  · exact .inl rfl
  split
  · exact .inl rfl
  split
  · exact .inl rfl
  dsimp only
  split
  · exact .inl rfl
  split
  · exact .inr (.inl rfl)
  split
  · exact .inr (.inr rfl)
  · exact .inl rfl

theorem configWrite_of_no_match {buf : List UInt8} (hlen : buf.length ≤ 99)
    (h : ∀ format ∈ configFormats, (sscanf (cstring (buf ++ [0])) format).length ≠ 1) :
    (modtimerConfigWrite msecsToJiffies cfg 0 buf true).1 = cfg := by
  rw [modtimerConfigWrite, if_neg (lt_irrefl 0), if_neg (Nat.not_lt.mpr hlen),
    if_neg (by decide)]
  dsimp only
  have hne {format : String} (hformat : format ∈ configFormats) (num : UInt64) :
      sscanf (cstring (buf ++ [0])) format ≠ [.size num] := by
    intro heq
    exact h format hformat (by rw [heq]; rfl)
  split
  · exact absurd ‹_› (hne (by decide) _)
  split
  · exact absurd ‹_› (hne (by decide) _)
  split
  · exact absurd ‹_› (hne (by decide) _)
  · rfl

section Number

variable {v w : List UInt8} {format : String} {n : Nat}

/-- The text of a command with a number, as `sscanf` finds it. -/
theorem cstring_command (hw : 0 ∉ w) (n : Nat) :
    cstring (w ++ 32 :: decimal n ++ [0]) = w ++ 32 :: (decimal n ++ []) := by
  rw [cstring_append_zero, List.append_nil]
  apply cstring_of_not_mem
  intro h
  rcases List.mem_append.mp h with h | h
  · exact hw h
  · exact not_mem_decimal rfl n (by simpa using h)

theorem sscanf_command (hw : 0 ∉ w)
    (hformat : directives (bytes format) = w.map .lit ++ [.space, .size]) (n : Nat) :
    sscanf (cstring (w ++ 32 :: decimal n ++ [0])) format = [.size (UInt64.ofNat n)] := by
  rw [cstring_command hw, sscanf_size_of_word hformat, scanSize_decimal n (by simp)]
  rfl

theorem sscanf_other_command (hw : 0 ∉ w)
    (hformat : directives (bytes format) = v.map .lit ++ [.space, .size]) (h : ¬w <+: v)
    (h' : ¬v <+: w) (n : Nat) : sscanf (cstring (w ++ 32 :: decimal n ++ [0])) format = [] := by
  rw [cstring_command hw]
  exact sscanf_of_not_isPrefix hformat
    (not_isPrefix_of_isPrefix (List.prefix_append w _) h h')

theorem length_command (hn : n < 18446744073709551616) (w : List UInt8) :
    (w ++ 32 :: decimal n).length ≤ w.length + 21 := by
  have hdigits : (decimal n).length ≤ 20 := (length_decimal_le_iff (by decide)).mpr (by omega)
  rw [List.length_append, List.length_cons]
  omega

theorem configWrite_maxRandom (hn : n < 18446744073709551616) :
    (modtimerConfigWrite msecsToJiffies cfg 0 (bytes "max_random" ++ 32 :: decimal n) true).1 =
      { cfg with maxRandom := (UInt64.ofNat n).toInt64 } := by
  have hlen := (length_command hn (bytes "max_random")).trans (by decide : _ ≤ 99)
  have hperiod := sscanf_other_command (w := bytes "max_random") (by decide) directives_period
    (by decide) (by decide) n
  have hthreshold := sscanf_other_command (w := bytes "max_random") (by decide)
    directives_threshold (by decide) (by decide) n
  rw [modtimerConfigWrite, if_neg (lt_irrefl 0), if_neg (Nat.not_lt.mpr hlen),
    if_neg (by decide)]
  simp only [hperiod, hthreshold, sscanf_command (w := bytes "max_random") (by decide)
    directives_maxRandom]

theorem configWrite_threshold (hn : n < 18446744073709551616) :
    (modtimerConfigWrite msecsToJiffies cfg 0
      (bytes "emergency_threshold" ++ 32 :: decimal n) true).1 =
      { cfg with emergencyThreshold := (UInt64.ofNat n).toInt64 } := by
  have hlen := (length_command hn (bytes "emergency_threshold")).trans (by decide : _ ≤ 99)
  have hperiod := sscanf_other_command (w := bytes "emergency_threshold") (by decide)
    directives_period (by decide) (by decide) n
  rw [modtimerConfigWrite, if_neg (lt_irrefl 0), if_neg (Nat.not_lt.mpr hlen),
    if_neg (by decide)]
  simp only [hperiod, sscanf_command (w := bytes "emergency_threshold") (by decide)
    directives_threshold]

/-- A number that is stored in a signed word is printed as it was. -/
theorem toNat_stored (hn : n < 18446744073709551616) :
    (UInt64.ofNat n).toInt64.toUInt64.toNat = n := by
  rw [UInt64.toUInt64_toInt64, UInt64.toNat_ofNat_of_lt' hn]

theorem configRead_eq {len : Nat} (hlen : 1 ≤ len) {texts : List (List UInt8)}
    (h : configTexts jiffiesToMsecs cfg = texts) :
    modtimerConfigRead jiffiesToMsecs cfg 0 len true =
      (.done texts.flatten.length, texts.flatten, len) := by
  rw [modtimerConfigRead, if_neg (lt_irrefl 0), if_neg (by omega), h, Nat.zero_add]
  rfl

end Number

/-- After the text `name n` is written, a read that fits its buffer shows `name=n` on line `k`, and
the other lines as they were. -/
def ReadsBack (msecsToJiffies : UInt32 → UInt64) (jiffiesToMsecs : UInt64 → UInt32) (cfg : Config)
    (name : String) (k n len : Nat) : Prop :=
  let cfg' :=
    (modtimerConfigWrite msecsToJiffies cfg 0 (bytes (name ++ " ") ++ decimal n) true).1
  let texts := (configTexts jiffiesToMsecs cfg).set k (bytes (name ++ "=") ++ decimal n ++ [10])
  (∀ i ∈ configStores jiffiesToMsecs cfg', i < 100) →
    modtimerConfigRead jiffiesToMsecs cfg' 0 len true =
      (.done texts.flatten.length, texts.flatten, len)

/-- A write changes one value at most, and none without a command; a number that is written to
one of the two words is read back. -/
theorem config_read_back (msecsToJiffies : UInt32 → UInt64) (jiffiesToMsecs : UInt64 → UInt32)
    (cfg : Config) :
    (∀ buf : List UInt8, buf.length ≤ 99 →
      ChangesOne cfg (modtimerConfigWrite msecsToJiffies cfg 0 buf true).1 ∧
      ((∀ format ∈ configFormats, (sscanf (cstring (buf ++ [0])) format).length ≠ 1) →
        (modtimerConfigWrite msecsToJiffies cfg 0 buf true).1 = cfg)) ∧
    ∀ n < 18446744073709551616, ∀ len, 1 ≤ len →
      ReadsBack msecsToJiffies jiffiesToMsecs cfg "max_random" 2 n len ∧
      ReadsBack msecsToJiffies jiffiesToMsecs cfg "emergency_threshold" 1 n len := by
  refine ⟨?_, ?_⟩
  · intro buf hlen
    exact ⟨configWrite_changesOne 0 buf true, configWrite_of_no_match hlen⟩
  · intro n hn len hlen
    constructor
    · have htext : bytes ("max_random" ++ " ") = bytes "max_random" ++ [32] := by decide
      rintro -
      apply configRead_eq hlen
      simp only [htext, List.append_assoc, List.singleton_append,
        configWrite_maxRandom hn, configTexts, toNat_stored hn, List.set_cons_succ,
        List.set_cons_zero]
      rfl
    · have htext : bytes ("emergency_threshold" ++ " ") = bytes "emergency_threshold" ++ [32] := by
        decide
      rintro -
      apply configRead_eq hlen
      simp only [htext, List.append_assoc, List.singleton_append,
        configWrite_threshold hn, configTexts, toNat_stored hn, List.set_cons_succ,
        List.set_cons_zero]
      rfl

/-- The greatest number of all, and a read of one byte. -/
theorem config_read_back_greatest :
    modtimerConfigRead jiffiesToMsecs250 ⟨250, -1, 80⟩ 0 1 true =
      (.done 76, bytes "timer_period_ms=1000\nemergency_threshold=80\n" ++
        bytes "max_random=18446744073709551615\n", 1) := by
  have hread := ((config_read_back msecsToJiffies250 jiffiesToMsecs250 ⟨250, 300, 80⟩).2
    18446744073709551615 (by decide) 1 (le_refl 1)).1
  have hwrite : (modtimerConfigWrite msecsToJiffies250 ⟨250, 300, 80⟩ 0
      (bytes ("max_random" ++ " ") ++ decimal 18446744073709551615) true).1 = ⟨250, -1, 80⟩ := by
    decide +kernel
  have htexts : ((configTexts jiffiesToMsecs250 ⟨250, 300, 80⟩).set 2
      (bytes ("max_random" ++ "=") ++ decimal 18446744073709551615 ++ [10])).flatten =
        bytes "timer_period_ms=1000\nemergency_threshold=80\n" ++
          bytes "max_random=18446744073709551615\n" := by
    decide +kernel
  have hfits : ∀ i ∈ configStores jiffiesToMsecs250 ⟨250, -1, 80⟩, i < 100 := by
    decide +kernel
  have hlength : (bytes "timer_period_ms=1000\nemergency_threshold=80\n" ++
      bytes "max_random=18446744073709551615\n").length = 76 := by
    decide +kernel
  simp only [ReadsBack, hwrite, htexts, hlength] at hread
  exact hread hfits

end LinuxInternals.Modtimer
