import LinuxInternals.Modleds.Basic

/-!
# Two ways to the same LEDs

Both ways show the last three bits of a hexadecimal number, in the order in which the LEDs are on
a keyboard. They part where the number does not fit in 64 bits: the kernel keeps its last bits,
and the C library answers with the greatest number that there is.
-/

namespace LinuxInternals.Modleds

open Text

/-- The digits of a number behind the mark of its base, which need not be there. -/
def afterMark : List UInt8 → List UInt8
  | 48 :: x :: s => if toLower x = 120 then s else 48 :: x :: s
  | s => s

/-- The hexadecimal number that a text starts with; 0 if it starts with something else. -/
def number (text : List UInt8) : Nat :=
  digitsValue 16 ((afterMark (skipSpaces text)).takeWhile isXDigit) 0

/-- The LEDs from left to right. -/
def lightsOf (n : Nat) : Lights where
  num := n.testBit 2
  caps := n.testBit 1
  scroll := n.testBit 0

/-- A text without a sign, and without the blank that only the kernel knows. -/
structure Plain (text : List UInt8) : Prop where
  blanks : 160 ∉ text.takeWhile isSpace
  plus : (skipSpaces text).head? ≠ some 43
  minus : (skipSpaces text).head? ≠ some 45

/-- What stands behind a text does not belong to its number. -/
def Closed (text : List UInt8) : Prop :=
  0 ∈ text ∨ (afterMark (skipSpaces text)).all isXDigit = false

section Masks

theorem setLeds_and_seven (m : UInt32) : setLeds (m &&& 7) = setLeds m := by
  have hseven : ∀ i ∈ List.range 3,
      (7 : UInt32) &&& (1 <<< UInt32.ofNat i) = 1 <<< UInt32.ofNat i := by
    decide
  rw [setLeds, setLeds]
  apply List.foldl_ext
  intro state i hi
  simp only [addLed, UInt32.and_assoc, hseven i hi]

theorem lightsOf_mod (n : Nat) : lightsOf (n % 8) = lightsOf n := by
  have hbit (i : Nat) (hi : i < 3) : (n % 2 ^ 3).testBit i = n.testBit i := by
    rw [Nat.testBit_mod_two_pow, decide_eq_true hi, Bool.true_and]
  have hnum := hbit 2 (by decide)
  have hcaps := hbit 1 (by decide)
  have hscroll := hbit 0 (by decide)
  rw [lightsOf, lightsOf]
  exact Lights.mk.injEq .. ▸ ⟨hnum, hcaps, hscroll⟩

theorem lightsOf_eq_iff (a b : Nat) : lightsOf a = lightsOf b ↔ a % 8 = b % 8 := by
  have hsmall : ∀ a < 8, ∀ b < 8, lightsOf a = lightsOf b → a = b := by decide
  constructor
  · intro h
    apply hsmall _ (Nat.mod_lt a (by decide)) _ (Nat.mod_lt b (by decide))
    rw [lightsOf_mod, lightsOf_mod, h]
  · intro h
    rw [← lightsOf_mod a, ← lightsOf_mod b, h]

/-- The loop brings the bits of the mask into the order of the LEDs. -/
theorem ledctl_eq (m : UInt32) : ledctl m = lightsOf m.toNat := by
  have hsmall : ∀ n < 8, ledctl (UInt32.ofNat n) = lightsOf n := by decide
  have hand : m &&& 7 = UInt32.ofNat (m.toNat % 8) := by
    apply UInt32.toNat.inj
    have hlt : m.toNat % 8 < UInt32.size := lt_trans (Nat.mod_lt _ (by decide)) (by decide)
    rw [UInt32.toNat_and, UInt32.toNat_ofNat_of_lt' hlt]
    exact Nat.and_two_pow_sub_one_eq_mod m.toNat 3
  rw [ledctl, ← setLeds_and_seven, hand, ← lightsOf_mod]
  exact hsmall _ (Nat.mod_lt _ (by decide))

end Masks

section Numbers

variable {s t : List UInt8}

theorem isDigitOf_sixteen (c : UInt8) : isDigitOf 16 c = isXDigit c :=
  forall_byte (p := fun c => isDigitOf 16 c = isXDigit c) (by decide +kernel) c

/-- Reading takes the digits that a text starts with. -/
theorem parseInteger_sixteen (s : List UInt8) :
    (parseInteger 16 s 0).1 = digitsValue 16 (s.takeWhile isXDigit) 0 := by
  have hall : (s.takeWhile isXDigit).all (isDigitOf 16) = true := by
    apply List.all_eq_true.mpr
    intro c hc
    rw [isDigitOf_sixteen]
    exact List.mem_takeWhile_imp hc
  have hstops : ∀ c ∈ (s.dropWhile isXDigit).head?, isDigitOf 16 c = false := by
    intro c hc
    rw [isDigitOf_sixteen]
    have hhead := List.head?_dropWhile_not isXDigit s
    rw [hc] at hhead
    exact hhead
  have hparse := parseInteger_of_all hall hstops 0
  rw [List.takeWhile_append_dropWhile] at hparse
  rw [hparse]

theorem afterMark_of_ne {c : UInt8} (h : c ≠ 48) (s : List UInt8) :
    afterMark (c :: s) = c :: s := by
  rw [afterMark]
  intro x t heq
  exact h (List.head_eq_of_cons_eq heq)

theorem hexDigits_of_ne {c : UInt8} (h : c ≠ 48) (s : List UInt8) :
    hexDigits (c :: s) = c :: s := by
  rw [hexDigits]
  intro x t heq
  exact h (List.head_eq_of_cons_eq heq)

theorem fixupRadix_sixteen (s : List UInt8) : fixupRadix 16 s = (16, afterMark s) := by
  have hbase : ¬(16 : Nat) = 0 := by decide
  simp only [fixupRadix, if_neg hbase]
  split
  · rw [afterMark]
    simp only [true_and]
    split
    · rfl
    · rfl
  · rw [afterMark]
    assumption

theorem simpleStrtoul_sixteen (s : List UInt8) :
    (simpleStrtoul (skipSpaces s) 16).1 = UInt64.ofNat (number s) := by
  simp only [simpleStrtoul, fixupRadix_sixteen, parseInteger_sixteen, number]

theorem number_of_head (h : (skipSpaces s).head?.any isXDigit = false) : number s = 0 := by
  rw [number]
  cases hs : skipSpaces s with
  | nil => rfl
  | cons c t =>
    rw [hs] at h
    have hc : isXDigit c = false := h
    have hzero : c ≠ 48 := by
      rintro rfl
      cases hc
    rw [afterMark_of_ne hzero, List.takeWhile_cons_of_neg (ne_true_of_eq_false hc)]
    rfl

/-- What is no number leaves the 0 that was there. -/
theorem scanHex_eq (s : List UInt8) : scanHex s = UInt32.ofNat (number s) := by
  have hformat : directives (bytes "%x") = [.hex] := by decide
  rw [scanHex, sscanf, hformat]
  by_cases hnil : s = []
  · rw [hnil]
    rfl
  rw [scan, if_neg hnil]
  · cases hhead : (skipSpaces s).head?.any isXDigit with
    | false =>
      simp only [convert, hhead, Bool.false_eq_true, if_false]
      rw [number_of_head hhead]
      rfl
    | true =>
      simp only [convert, hhead, if_true, scan, simpleStrtoul_sixteen]
      exact UInt64.toUInt32_ofNat' ..
  · rintro ⟨⟩
  · rintro c ⟨⟩

/-- A mark that no digit follows leaves nothing to read, with or without its zero. -/
theorem parseInteger_hexDigits (s : List UInt8) :
    (parseInteger 16 (hexDigits s) 0).1 = (parseInteger 16 (afterMark s) 0).1 := by
  cases s with
  | nil => rfl
  | cons c s =>
    by_cases hc : c = 48
    · subst hc
      cases s with
      | nil => rfl
      | cons x s =>
        rw [hexDigits, afterMark]
        by_cases hx : toLower x = 120
        · rw [if_pos hx]
          cases hmark : hexMark (x :: s) with
          | true => rw [if_pos rfl]
          | false =>
            rw [if_neg Bool.false_ne_true, parseInteger_zero 16 (by decide),
              parseInteger_of_none (digitVal_of_mark hx)]
            cases s with
            | nil => rfl
            | cons d s =>
              have hd : isXDigit d = false := by simpa [hexMark, hx] using hmark
              rw [parseInteger_of_none (digitVal_eq_none_of_not_isXDigit hd)]
        · have hmark : ¬hexMark (x :: s) = true := by
            cases s with
            | nil => exact Bool.false_ne_true
            | cons d s => simp [hexMark, hx]
          rw [if_neg hx, if_neg hmark]
    · rw [hexDigits_of_ne hc, afterMark_of_ne hc]

theorem dropWhile_isBlank (h : 160 ∉ s.takeWhile isSpace) :
    s.dropWhile isBlank = skipSpaces s := by
  induction s with
  | nil => rfl
  | cons c s ih =>
    cases hc : isSpace c with
    | false =>
      have hblank : isBlank c = false := (Bool.or_eq_false_iff.mp hc).1
      rw [skipSpaces, List.dropWhile_cons_of_neg (ne_true_of_eq_false hblank),
        List.dropWhile_cons_of_neg (ne_true_of_eq_false hc)]
    | true =>
      rw [List.takeWhile_cons_of_pos hc, List.mem_cons, not_or] at h
      have hblank : isBlank c = true := by
        rcases Bool.or_eq_true_iff.mp hc with hblank | h160
        · exact hblank
        · exact absurd (beq_iff_eq.mp h160).symm h.1
      rw [skipSpaces, List.dropWhile_cons_of_pos hc, List.dropWhile_cons_of_pos hblank]
      exact ih h.2

theorem strtoul_eq (h : Plain s) :
    strtoul s = if 2 ^ 64 ≤ number s then -1 else UInt64.ofNat (number s) := by
  have hvalue : (parseInteger 16 (hexDigits (skipSpaces s)) 0).1 = number s := by
    rw [parseInteger_hexDigits, parseInteger_sixteen, number]
  rw [strtoul, dropWhile_isBlank h.blanks]
  have hplus := h.plus
  have hminus := h.minus
  generalize skipSpaces s = t at hvalue hplus hminus ⊢
  simp only [if_neg hminus]
  split
  · exact absurd rfl hminus
  · exact absurd rfl hplus
  · rw [hvalue]

theorem afterMark_append (h : (afterMark t).all isXDigit = false) (r : List UInt8) :
    afterMark (t ++ r) = afterMark t ++ r := by
  cases t with
  | nil => cases h
  | cons c t =>
    by_cases hc : c = 48
    · subst hc
      cases t with
      | nil => cases h
      | cons x t =>
        rw [List.cons_append, List.cons_append, afterMark, afterMark]
        split
        · rfl
        · rfl
    · rw [List.cons_append, afterMark_of_ne hc, afterMark_of_ne hc, List.cons_append]

theorem number_append (h : (afterMark (skipSpaces s)).all isXDigit = false) (r : List UInt8) :
    number (s ++ r) = number s := by
  have hne : skipSpaces s ≠ [] := by
    intro hnil
    rw [hnil] at h
    cases h
  have htake : (afterMark (skipSpaces s) ++ r).takeWhile isXDigit =
      (afterMark (skipSpaces s)).takeWhile isXDigit := by
    rw [List.takeWhile_append, if_neg]
    intro hlen
    have hself := (List.takeWhile_prefix isXDigit).eq_of_length hlen
    have hall := List.all_eq_true.mpr (List.takeWhile_eq_self_iff.mp hself)
    rw [h] at hall
    cases hall
  rw [number, skipSpaces_append hne, afterMark_append h, htake, number]

end Numbers

/-- The mask that a step asks for, read off its text; none if the step is refused. -/
def Act.asked : Act → Option Nat
  | .load => some 7
  | .unload => some 0
  | .write _ off buf copied =>
    if off = 0 ∧ buf.length ≤ 1023 ∧ copied = true then some (number (cstring buf)) else none
  | .invoke [text] => some (number text)
  | .invoke _ => none
  | .turn n => some (ledsUser n).toNat

/-- What the LEDs show from step to step if every step is given what it asks for. -/
def shown : Lights → List Act → List Lights
  | _, [] => []
  | lights, a :: as =>
    let next := (a.asked.map lightsOf).getD lights
    next :: shown next as

def Act.Readable : Act → Prop
  | .write _ _ buf _ => Closed buf
  | .invoke argv => ∀ text ∈ argv, Plain text
  | _ => True

/-- Only the C library has a greatest number. -/
def Act.Fits : Act → Prop
  | .invoke [text] => number text < 2 ^ 64 ∨ number text % 8 = 7
  | _ => True

section Steps

variable {before : Lights} {s s' : State} {a : Act} {as : List Act} {es tr : List Lights}

theorem number_of_closed {buf : List UInt8} (h : Closed buf) (rest : List UInt8) :
    number (cstring (buf ++ rest)) = number (cstring buf) := by
  by_cases hzero : 0 ∈ buf
  · rw [cstring_append_of_mem hzero]
  · rw [cstring_append hzero, cstring_of_not_mem hzero]
    exact number_append (h.resolve_left hzero) _

theorem lightsOf_ofNat (n : Nat) : lightsOf (UInt32.ofNat n).toNat = lightsOf n := by
  rw [lightsOf_eq_iff, UInt32.toNat_ofNat']
  exact Nat.mod_mod_of_dvd n (by decide)

theorem modledsWrite_lights {mem buf : List UInt8} (off : Nat) (copied : Bool) (h : Closed buf)
    (lights : Lights) : (modledsWrite mem off buf copied lights).1 =
      (((Act.write mem off buf copied).asked).map lightsOf).getD lights := by
  rw [modledsWrite, Act.asked]
  by_cases hcounts : off = 0 ∧ buf.length ≤ 1023 ∧ copied = true
  · obtain ⟨rfl, hlen, rfl⟩ := hcounts
    rw [if_neg (lt_irrefl 0), if_neg (not_lt.mpr hlen), if_neg (by decide),
      if_pos ⟨rfl, hlen, rfl⟩, scanHex_eq, number_of_closed h]
    exact (ledctl_eq _).trans (lightsOf_ofNat _)
  · rw [if_neg hcounts]
    split
    · rfl
    split
    · rfl
    split
    · rfl
    · have hoff : ¬0 < off := ‹_›
      have hlen : ¬1023 < buf.length := ‹_›
      have hcopied : ¬(!copied) = true := ‹_›
      refine absurd ⟨Nat.eq_zero_of_not_pos hoff, not_lt.mp hlen, ?_⟩ hcounts
      simpa using hcopied

/-- A number that does not fit turns on all the LEDs. -/
theorem ledctl_strtoul {text : List UInt8} (h : Plain text) :
    ledctl (strtoul text).toUInt32 = lightsOf (number text) ↔
      number text < 2 ^ 64 ∨ number text % 8 = 7 := by
  rw [strtoul_eq h, ledctl_eq]
  by_cases hbig : 2 ^ 64 ≤ number text
  · rw [if_pos hbig, or_iff_right (not_lt.mpr hbig), lightsOf_eq_iff]
    exact eq_comm
  · rw [if_neg hbig]
    refine iff_of_true ?_ (.inl (not_le.mp hbig))
    rw [UInt64.toUInt32_ofNat', lightsOf_ofNat]

theorem step_shows (hread : a.Readable) (hstep : step s a = some (s', es)) :
    es = [s'.lights] ∧ (s'.lights = (a.asked.map lightsOf).getD s.lights ↔ a.Fits) := by
  cases a with
  | load =>
    rw [step] at hstep
    split at hstep
    · cases hstep
    · cases hstep
      have hon : kdsetled allLedsOn = lightsOf 7 := by decide
      exact ⟨rfl, iff_of_true hon trivial⟩
  | unload =>
    rw [step] at hstep
    split at hstep
    · cases hstep
      have hoff : kdsetled allLedsOff = lightsOf 0 := by decide
      exact ⟨rfl, iff_of_true hoff trivial⟩
    · cases hstep
  | write mem off buf copied =>
    rw [step] at hstep
    split at hstep
    · cases hstep
      exact ⟨rfl, iff_of_true (modledsWrite_lights off copied hread s.lights) trivial⟩
    · cases hstep
  | invoke argv =>
    cases hstep
    refine ⟨rfl, ?_⟩
    match argv with
    | [] => exact iff_of_true rfl trivial
    | [text] => exact ledctl_strtoul (hread text List.mem_cons_self)
    | _ :: _ :: _ => exact iff_of_true rfl trivial
  | turn n =>
    cases hstep
    exact ⟨rfl, iff_of_true (ledctl_eq _) trivial⟩

theorem exec_shows (hread : ∀ a ∈ as, a.Readable)
    (hexec : (machine before).exec s as = some (s', tr)) :
    tr = shown s.lights as ↔ ∀ a ∈ as, a.Fits := by
  induction as generalizing s tr with
  | nil =>
    cases hexec
    exact iff_of_true rfl (by simp)
  | cons a as ih =>
    obtain ⟨s₁, es, t, ha, hrest, rfl⟩ := Machine.exec_cons_eq_some.mp hexec
    rw [List.forall_mem_cons] at hread
    obtain ⟨rfl, hfits⟩ := step_shows hread.1 ha
    have ih := ih hread.2 hrest
    rw [List.forall_mem_cons, ← hfits, shown, List.singleton_append, List.cons.injEq]
    constructor
    · rintro ⟨hlights, ht⟩
      rw [← hlights] at ht
      exact ⟨hlights, ih.mp ht⟩
    · rintro ⟨hlights, hall⟩
      rw [← hlights]
      exact ⟨rfl, ih.mpr hall⟩

/-- Whatever the order of the steps, and whatever memory the module is given, the LEDs show the
number that was asked for last, whichever way it took, exactly if no number for the system call
goes beyond 64 bits, or else ends in three ones. -/
theorem same_lights (hread : ∀ a ∈ as, a.Readable) (hrun : (machine before).Run as s tr) :
    tr = shown before as ↔ ∀ a ∈ as, a.Fits :=
  exec_shows hread hrun

/-- The number 2^64 + 3, by both ways. -/
def wrapping : List Act :=
  [.load, .write [49] 0 (bytes "0x10000000000000003\n") true, .invoke [bytes "0x10000000000000003"]]

theorem same_lights_wrapping :
    (machine (lightsOf 0)).Run wrapping ⟨true, lightsOf 7⟩ [lightsOf 7, lightsOf 3, lightsOf 7] ∧
      [lightsOf 7, lightsOf 3, lightsOf 7] ≠ shown (lightsOf 0) wrapping := by
  have hplain : Plain (bytes "0x10000000000000003") := ⟨by decide, by decide, by decide⟩
  have hread : ∀ a ∈ wrapping, a.Readable := by
    rw [wrapping, List.forall_mem_cons, List.forall_mem_cons, List.forall_mem_singleton]
    exact ⟨trivial, .inr (by decide), List.forall_mem_singleton.mpr hplain⟩
  have hrun : (machine (lightsOf 0)).Run wrapping ⟨true, lightsOf 7⟩
      [lightsOf 7, lightsOf 3, lightsOf 7] := by
    rw [Machine.Run]
    decide +kernel
  refine ⟨hrun, fun h => ?_⟩
  have hfits := (same_lights hread hrun).mp h _ (List.getLast_mem (by decide : wrapping ≠ []))
  have hnot : ¬(number (bytes "0x10000000000000003") < 2 ^ 64 ∨
      number (bytes "0x10000000000000003") % 8 = 7) := by
    decide +kernel
  exact hnot hfits

end Steps

end LinuxInternals.Modleds
