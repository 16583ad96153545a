import LinuxInternals.Lib.Text
import Mathlib.Data.List.DropRight

/-!
# What a number in a text depends on

`%i` reads digits as long as it finds some, so what stands behind a text may belong to its
last number. When the digits of a text stop, its number is the same whatever follows. When
they run to the end, every number can be had by going on: the value wraps around.
-/

namespace LinuxInternals.Text

/-- The base in which `%i` reads, and the digits behind the mark of the base. -/
def digitsOf : List UInt8 → Nat × List UInt8
  | [48] => (8, [])
  | 48 :: x :: s => if toLower x = 120 then (16, s) else (8, x :: s)
  | s => (10, s)

def unsigned : List UInt8 → List UInt8
  | 45 :: t => t
  | s => s

/-- Digits behind the text would belong to its number. -/
def runsOn (s : List UInt8) : Bool :=
  (digitsOf (unsigned s)).2.all (isDigitOf (digitsOf (unsigned s)).1)

/-- The number that a conversion `%i` behind a blank stores. -/
def scanNumber (s : List UInt8) : Option Int32 :=
  if (unsigned (skipSpaces s)).head?.any isDigit then
    some (simpleStrtol (skipSpaces s) 0).1.toUInt32.toInt32
  else none

section Digits

variable {base : Nat} {s u : List UInt8}

/-- Facts about single bytes are checked on all of them. -/
theorem forall_byte {p : UInt8 → Prop} (h : ∀ n < 256, p (UInt8.ofNat n)) (c : UInt8) : p c := by
  have hc := h c.toNat c.toNat_lt
  rwa [UInt8.ofNat_toNat] at hc

theorem isDigit_of_isDigitOf_ten (c : UInt8) : isDigitOf 10 c = true → isDigit c = true :=
  forall_byte (p := fun c => isDigitOf 10 c = true → isDigit c = true) (by decide +kernel) c

theorem parseInteger_of_stops (h : s.all (isDigitOf base) = false) (r : List UInt8) (acc : Nat) :
    (parseInteger base (s ++ r) acc).1 = (parseInteger base s acc).1 := by
  induction s generalizing acc with
  | nil => cases h
  | cons c s ih =>
    rw [List.cons_append, parseInteger, parseInteger]
    cases hval : digitVal c with
    | none => rfl
    | some d =>
      by_cases hd : d < base
      · have hc : isDigitOf base c = true := isDigitOf_iff.mpr ⟨d, hd, hval⟩
        rw [List.all_cons, hc, Bool.true_and] at h
        simp only [if_pos hd]
        exact ih h _
      · simp only [if_neg hd]

theorem parseInteger_of_none {c : UInt8} (h : digitVal c = none) (s : List UInt8) (acc : Nat) :
    parseInteger base (c :: s) acc = (acc, c :: s) := by
  rw [parseInteger, h]

theorem digitVal_of_mark {x : UInt8} : toLower x = 120 → digitVal x = none :=
  forall_byte (p := fun x => toLower x = 120 → digitVal x = none) (by decide +kernel) x

theorem digitVal_eq_none_of_not_isXDigit {c : UInt8} (h : isXDigit c = false) :
    digitVal c = none := by
  obtain ⟨hdigit, hletter⟩ := Bool.or_eq_false_iff.mp h
  rw [digitVal, hdigit, if_neg Bool.false_ne_true, if_neg]
  simpa using hletter

theorem digitsOf_of_mark {x : UInt8} (h : toLower x = 120) (s : List UInt8) :
    digitsOf (48 :: x :: s) = (16, s) := if_pos h

theorem digitsOf_of_zero {x : UInt8} (h : toLower x ≠ 120) (s : List UInt8) :
    digitsOf (48 :: x :: s) = (8, x :: s) := if_neg h

theorem digitsOf_of_ne {c : UInt8} (h : c ≠ 48) (s : List UInt8) :
    digitsOf (c :: s) = (10, c :: s) := by
  rw [digitsOf]
  · rintro heq
    exact h (List.head_eq_of_cons_eq heq)
  · rintro x t heq
    exact h (List.head_eq_of_cons_eq heq)

theorem fixupRadix_of_hexMark {x : UInt8} (hx : toLower x = 120) (h : hexMark (x :: s) = true) :
    fixupRadix 0 (48 :: x :: s) = (16, s) := by
  simp [fixupRadix, h, hx]

theorem fixupRadix_of_octal {x : UInt8} (h : hexMark (x :: s) = false) :
    fixupRadix 0 (48 :: x :: s) = (8, 48 :: x :: s) := by
  simp [fixupRadix, h]

theorem parseInteger_zero (base : Nat) (hbase : 0 < base) (s : List UInt8) :
    parseInteger base (48 :: s) 0 = parseInteger base s 0 := by
  have hzero : digitVal 48 = some 0 := rfl
  rw [parseInteger, hzero]
  simp only [if_pos hbase, Nat.zero_mul, Nat.zero_add]

/-- `simple_strtoul` reads the digits in their base; a mark that no digit follows is left, and
the zero before it is the number. -/
theorem simpleStrtoul_eq (s : List UInt8) :
    (simpleStrtoul s 0).1 =
      UInt64.ofNat (parseInteger (digitsOf s).1 (digitsOf s).2 0).1 := by
  rw [simpleStrtoul]
  cases s with
  | nil => rfl
  | cons c s =>
    by_cases hc : c = 48
    · subst hc
      cases s with
      | nil => rfl
      | cons x s =>
        by_cases hx : toLower x = 120
        · rw [digitsOf_of_mark hx]
          cases hmark : hexMark (x :: s) with
          | true => rw [fixupRadix_of_hexMark hx hmark]
          | false =>
            -- both readings come to zero
            rw [fixupRadix_of_octal hmark]
            simp only [parseInteger_zero 8 (by decide), parseInteger_of_none (digitVal_of_mark hx)]
            cases s with
            | nil => rfl
            | cons d s =>
              have hd : isXDigit d = false := by simpa [hexMark, hx] using hmark
              rw [parseInteger_of_none (digitVal_eq_none_of_not_isXDigit hd)]
        · have hmark : hexMark (x :: s) = false := by
            cases s with
            | nil => rfl
            | cons d s => simp [hexMark, hx]
          rw [digitsOf_of_zero hx, fixupRadix_of_octal hmark]
          simp only [parseInteger_zero 8 (by decide)]
    · rw [digitsOf_of_ne hc, fixupRadix_of_ne hc]

theorem digitsOf_append (hu : u ≠ []) (hzero : u ≠ [48]) (r : List UInt8) :
    digitsOf (u ++ r) = ((digitsOf u).1, (digitsOf u).2 ++ r) := by
  cases u with
  | nil => exact absurd rfl hu
  | cons c u =>
    rw [List.cons_append]
    by_cases hc : c = 48
    · subst hc
      cases u with
      | nil => exact absurd rfl hzero
      | cons x u =>
        rw [List.cons_append]
        by_cases hx : toLower x = 120
        · rw [digitsOf_of_mark hx, digitsOf_of_mark hx]
        · rw [digitsOf_of_zero hx, digitsOf_of_zero hx, List.cons_append]
    · rw [digitsOf_of_ne hc, digitsOf_of_ne hc, List.cons_append]

end Digits

section Number

variable {s t : List UInt8}

theorem unsigned_of_ne {c : UInt8} (hc : c ≠ 45) (u : List UInt8) :
    unsigned (c :: u) = c :: u := by
  rw [unsigned]
  rintro v heq
  exact hc (List.head_eq_of_cons_eq heq)

theorem unsigned_append (ht : t ≠ []) (r : List UInt8) :
    unsigned (t ++ r) = unsigned t ++ r := by
  obtain ⟨c, u, rfl⟩ := List.exists_cons_of_ne_nil ht
  by_cases hc : c = 45
  · subst hc
    rfl
  · rw [List.cons_append, unsigned_of_ne hc, unsigned_of_ne hc, List.cons_append]

theorem simpleStrtol_eq (t : List UInt8) :
    (simpleStrtol t 0).1 = if t.head? = some 45 then -(simpleStrtoul (unsigned t) 0).1
      else (simpleStrtoul (unsigned t) 0).1 := by
  cases t with
  | nil => rfl
  | cons c u =>
    by_cases hc : c = 45
    · subst hc
      rfl
    · have hne (v : List UInt8) : c :: u ≠ 45 :: v := fun heq => hc (List.head_eq_of_cons_eq heq)
      rw [simpleStrtol, unsigned, if_neg (by simpa using hc)]
      · exact hne
      · exact hne

theorem skipSpaces_append (h : skipSpaces s ≠ []) (r : List UInt8) :
    skipSpaces (s ++ r) = skipSpaces s ++ r := by
  induction s with
  | nil => exact absurd rfl h
  | cons c s ih =>
    rw [List.cons_append, skipSpaces, skipSpaces, List.dropWhile_cons, List.dropWhile_cons]
    split
    · rw [skipSpaces, List.dropWhile_cons, if_pos ‹_›] at h
      exact ih h
    · rfl

theorem scanNumber_append (h : runsOn (skipSpaces s) = false) (r : List UInt8) :
    scanNumber (s ++ r) = scanNumber s := by
  generalize ht : skipSpaces s = t at h
  have hne : t ≠ [] := by
    rintro rfl
    cases h
  have hu : unsigned t ≠ [] := by
    intro hnil
    rw [runsOn, hnil] at h
    cases h
  have hzero : unsigned t ≠ [48] := by
    intro hzero
    rw [runsOn, hzero] at h
    cases h
  have hhead : (unsigned t ++ r).head? = (unsigned t).head? := by
    obtain ⟨c, u, hcons⟩ := List.exists_cons_of_ne_nil hu
    rw [hcons]
    rfl
  have hsign : (t ++ r).head? = t.head? := by
    obtain ⟨c, u, rfl⟩ := List.exists_cons_of_ne_nil hne
    rfl
  have hvalue : (simpleStrtoul (unsigned t ++ r) 0).1 = (simpleStrtoul (unsigned t) 0).1 := by
    rw [simpleStrtoul_eq, simpleStrtoul_eq, digitsOf_append hu hzero]
    exact congrArg UInt64.ofNat (parseInteger_of_stops h r 0)
  rw [scanNumber, scanNumber, skipSpaces_append (ht.symm ▸ hne), ht, unsigned_append hne, hhead,
    simpleStrtol_eq, simpleStrtol_eq, hsign, unsigned_append hne, hvalue]

end Number

section Continuation

/-- The last `k` digits of a number. -/
def fixedDigits (base : Nat) : Nat → Nat → List Nat
  | 0, _ => []
  | k + 1, n => fixedDigits base k (n / base) ++ [n % base]

def digitByte (d : Nat) : UInt8 := if d < 10 then UInt8.ofNat (48 + d) else UInt8.ofNat (87 + d)

def digitBytes (base k n : Nat) : List UInt8 := (fixedDigits base k n).map digitByte

theorem digitVal_digitByte {d : Nat} (h : d < 16) :
    digitVal (digitByte d) = some d ∧ digitByte d ≠ 0 := by
  have hall : ∀ d < 16, digitVal (digitByte d) = some d ∧ digitByte d ≠ 0 := by decide
  exact hall d h

theorem lt_of_mem_fixedDigits {base k n d : Nat} (hbase : 0 < base)
    (h : d ∈ fixedDigits base k n) : d < base := by
  induction k generalizing n with
  | zero => cases h
  | succ k ih =>
    rcases List.mem_append.mp h with h | h
    · exact ih h
    · rw [List.mem_singleton.mp h]
      exact Nat.mod_lt n hbase

variable {base k n : Nat}

theorem all_digitBytes (hpos : 0 < base) (hbase : base ≤ 16) :
    (digitBytes base k n).all (isDigitOf base) = true := by
  rw [digitBytes, List.all_map, List.all_eq_true]
  intro d hd
  have hlt := lt_of_mem_fixedDigits hpos hd
  exact isDigitOf_iff.mpr ⟨d, hlt, (digitVal_digitByte (by omega)).1⟩

theorem zero_not_mem_digitBytes (hpos : 0 < base) (hbase : base ≤ 16) :
    0 ∉ digitBytes base k n := by
  intro h
  obtain ⟨d, hd, hzero⟩ := List.mem_map.mp h
  have hlt := lt_of_mem_fixedDigits hpos hd
  exact (digitVal_digitByte (by omega)).2 hzero

theorem digitsValue_digitBytes (hpos : 0 < base) (hbase : base ≤ 16) (hn : n < base ^ k)
    (acc : Nat) : digitsValue base (digitBytes base k n) acc = acc * base ^ k + n := by
  induction k generalizing n with
  | zero =>
    have hzero : n = 0 := by simpa using hn
    simp [digitBytes, fixedDigits, digitsValue, hzero]
  | succ k ih =>
    have hquot : n / base < base ^ k := Nat.div_lt_of_lt_mul (by rwa [Nat.pow_succ'] at hn)
    have hlast : digitVal (digitByte (n % base)) = some (n % base) :=
      (digitVal_digitByte ((Nat.mod_lt n hpos).trans_le hbase)).1
    have hsplit : digitBytes base (k + 1) n =
        digitBytes base k (n / base) ++ [digitByte (n % base)] := by
      simp [digitBytes, fixedDigits]
    have happend : digitsValue base (digitBytes base (k + 1) n) acc =
        digitsValue base (digitBytes base k (n / base)) acc * base + n % base := by
      simp only [hsplit, digitsValue, List.foldl_append, List.foldl_cons, List.foldl_nil, hlast,
        Option.getD_some]
    rw [happend, ih hquot]
    rw [Nat.add_mul, Nat.mul_assoc, ← Nat.pow_succ, Nat.add_assoc, Nat.div_add_mod']

theorem digitsValue_bounds {s : List UInt8} (hs : s.all (isDigitOf base) = true) (acc : Nat) :
    digitsValue base s acc < (acc + 1) * base ^ s.length ∧
      acc * base ^ s.length ≤ digitsValue base s acc := by
  induction s generalizing acc with
  | nil => simp [digitsValue]
  | cons c s ih =>
    rw [List.all_cons, Bool.and_eq_true] at hs
    obtain ⟨d, hd, hval⟩ := isDigitOf_iff.mp hs.1
    have hstep : digitsValue base (c :: s) acc = digitsValue base s (acc * base + d) := by
      rw [digitsValue, List.foldl_cons, hval]
      rfl
    obtain ⟨hlt, hle⟩ := ih hs.2 (acc * base + d)
    rw [hstep, List.length_cons, pow_succ]
    constructor
    · apply hlt.trans_le
      calc (acc * base + d + 1) * base ^ s.length ≤ ((acc + 1) * base) * base ^ s.length := by
            apply Nat.mul_le_mul_right
            rw [Nat.add_mul]
            omega
        _ = (acc + 1) * (base ^ s.length * base) := by ring
    · apply le_trans _ hle
      calc acc * (base ^ s.length * base) = acc * base * base ^ s.length := by ring
        _ ≤ (acc * base + d) * base ^ s.length := Nat.mul_le_mul_right _ (Nat.le_add_right _ _)

/-- The first digits of a number are the number without the last ones. -/
theorem digitsValue_take {s : List UInt8} (hs : s.all (isDigitOf base) = true) (k : Nat) :
    digitsValue base (s.take k) 0 = digitsValue base s 0 / base ^ (s.length - k) := by
  have hdrop : (s.drop k).all (isDigitOf base) = true := by
    rw [List.all_eq_true] at hs ⊢
    exact fun c hc => hs c (List.mem_of_mem_drop hc)
  have hsplit : digitsValue base s 0 =
      digitsValue base (s.drop k) (digitsValue base (s.take k) 0) := by
    rw [digitsValue, digitsValue, digitsValue, ← List.foldl_append, List.take_append_drop]
  obtain ⟨hlt, hle⟩ := digitsValue_bounds hdrop (digitsValue base (s.take k) 0)
  rw [List.length_drop, ← hsplit] at hlt hle
  exact (Nat.div_eq_of_lt_le hle hlt).symm

/-- Eleven digits take a number to any value modulo 2^32. -/
theorem exists_continuation (hbase : 8 ≤ base) (acc target : Nat) :
    ∃ n < base ^ 11, (acc * base ^ 11 + n) % 4294967296 = target % 4294967296 := by
  have hpow : 8 ^ 11 ≤ base ^ 11 := Nat.pow_le_pow_left hbase 11
  refine ⟨(target + 4294967295 * (acc * base ^ 11)) % 4294967296, by omega, ?_⟩
  omega

/-- Digits that run to the end of the text go on to any value. -/
theorem exists_digits {u : List UInt8} (hu : u ≠ []) (hzero : u ≠ [48])
    (h : (digitsOf u).2.all (isDigitOf (digitsOf u).1) = true) (target : Nat) :
    ∃ e total, 0 ∉ e ∧ (u ++ e).head?.any isDigit = true ∧
      (simpleStrtoul (u ++ e) 0).1 = UInt64.ofNat total ∧
      total % 4294967296 = target % 4294967296 := by
  obtain ⟨hlo, hhi, hhead⟩ : 8 ≤ (digitsOf u).1 ∧ (digitsOf u).1 ≤ 16 ∧
      u.head?.any isDigit = true := by
    obtain ⟨c, v, rfl⟩ := List.exists_cons_of_ne_nil hu
    by_cases hc : c = 48
    · subst hc
      cases v with
      | nil => exact absurd rfl hzero
      | cons x v =>
        by_cases hx : toLower x = 120
        · rw [digitsOf_of_mark hx]
          exact ⟨(by decide : 8 ≤ 16), le_refl 16, rfl⟩
        · rw [digitsOf_of_zero hx]
          exact ⟨le_refl 8, (by decide : 8 ≤ 16), rfl⟩
    · rw [digitsOf_of_ne hc] at h ⊢
      exact ⟨(by decide : 8 ≤ 10), (by decide : 10 ≤ 16),
        isDigit_of_isDigitOf_ten c (Bool.and_eq_true_iff.mp (List.all_cons ▸ h)).1⟩
  obtain ⟨n, hn, htotal⟩ :=
    exists_continuation hlo (digitsValue (digitsOf u).1 (digitsOf u).2 0) target
  refine ⟨digitBytes (digitsOf u).1 11 n, _, zero_not_mem_digitBytes (by omega) hhi, ?_, ?_, htotal⟩
  · obtain ⟨c, v, rfl⟩ := List.exists_cons_of_ne_nil hu
    exact hhead
  · rw [simpleStrtoul_eq, digitsOf_append hu hzero]
    have hdigits := all_digitBytes (k := 11) (n := n) (by omega : 0 < (digitsOf u).1) hhi
    simp only [parseInteger_append h, parseInteger_all hdigits,
      digitsValue_digitBytes (by omega) hhi hn]

theorem exists_digits_of_all {u : List UInt8}
    (h : (digitsOf u).2.all (isDigitOf (digitsOf u).1) = true) (target : Nat) :
    ∃ e total, 0 ∉ e ∧ (u ++ e).head?.any isDigit = true ∧
      (simpleStrtoul (u ++ e) 0).1 = UInt64.ofNat total ∧
      total % 4294967296 = target % 4294967296 := by
  -- a single zero may turn out to be the start of a mark
  by_cases hu : u = []
  · subst hu
    obtain ⟨e, total, hzero, hdigits⟩ := exists_digits (u := [49]) (by decide) (by decide)
      (by decide) target
    exact ⟨49 :: e, total, List.not_mem_cons_of_ne_of_not_mem (by decide) hzero, hdigits⟩
  by_cases hzero : u = [48]
  · subst hzero
    obtain ⟨e, total, hzero, hdigits⟩ := exists_digits (u := [48, 48]) (by decide) (by decide)
      (by decide) target
    exact ⟨48 :: e, total, List.not_mem_cons_of_ne_of_not_mem (by decide) hzero, hdigits⟩
  · exact exists_digits hu hzero h target

theorem toUInt32_of_mod {total : Nat} {y : UInt32} (h : total % 4294967296 = y.toNat % 4294967296) :
    (UInt64.ofNat total).toUInt32 = y := by
  apply UInt32.toNat_inj.mp
  have hy := y.toNat_lt
  rw [UInt64.toUInt32_ofNat', UInt32.toNat_ofNat']
  omega

theorem not_isSpace_of_isDigit (c : UInt8) : isDigit c = true → isSpace c = false ∧ c ≠ 45 :=
  forall_byte (p := fun c => isDigit c = true → isSpace c = false ∧ c ≠ 45) (by decide +kernel) c

theorem exists_scanNumber {s : List UInt8} (h : runsOn (skipSpaces s) = true) (x : Int32) :
    ∃ e, 0 ∉ e ∧ scanNumber (s ++ e) = some x := by
  generalize ht : skipSpaces s = t at h
  obtain ⟨y, hy⟩ : ∃ y : UInt32, (if t.head? = some 45 then -y else y) = x.toUInt32 := by
    split
    · exact ⟨-x.toUInt32, UInt32.neg_neg⟩
    · exact ⟨x.toUInt32, rfl⟩
  obtain ⟨e, total, hzero, hhead, hvalue, htotal⟩ := exists_digits_of_all h y.toNat
  refine ⟨e, hzero, ?_⟩
  obtain ⟨hskip, hunsigned, hsign⟩ : skipSpaces (s ++ e) = t ++ e ∧
      unsigned (t ++ e) = unsigned t ++ e ∧ ((t ++ e).head? = some 45 ↔ t.head? = some 45) := by
    by_cases hnil : t = []
    · subst hnil
      cases e with
      | nil => cases hhead
      | cons c e =>
        obtain ⟨hspace, hminus⟩ := not_isSpace_of_isDigit c hhead
        refine ⟨?_, ?_, by simpa using hminus⟩
        · rw [skipSpaces] at ht ⊢
          rw [List.dropWhile_append, ht]
          simp [hspace]
        · exact unsigned_of_ne hminus e
    · refine ⟨by rw [skipSpaces_append (ht.symm ▸ hnil), ht], unsigned_append hnil e, ?_⟩
      obtain ⟨c, v, rfl⟩ := List.exists_cons_of_ne_nil hnil
      exact Iff.rfl
  rw [scanNumber, hskip, hunsigned, if_pos hhead, simpleStrtol_eq, hunsigned, hvalue]
  have hbits : (if (t ++ e).head? = some 45 then -UInt64.ofNat total
      else UInt64.ofNat total).toUInt32 = x.toUInt32 := by
    rw [← hy]
    simp only [hsign]
    split
    · rw [UInt64.toUInt32_neg, toUInt32_of_mod htotal]
    · exact toUInt32_of_mod htotal
  rw [hbits, Int32.toInt32_toUInt32]

end Continuation

section Command

variable {w s : List UInt8} {format : String}

theorem convert_int {t : List UInt8} (h : skipSpaces t = t) :
    convert .int t =
      if (unsigned t).head?.any isDigit then
        some (.int (simpleStrtol t 0).1.toUInt32.toInt32, (simpleStrtol t 0).2)
      else none := by
  cases t with
  | nil => rfl
  | cons c u =>
    by_cases hc : c = 45
    · subst hc
      rw [convert, h]
      rfl
    · rw [unsigned_of_ne hc, convert, h]
      simp [hc]
      rfl

theorem scan_space_int (s : List UInt8) :
    scan [.space, .int] s = (scanNumber s).toList.map .int := by
  have hskip : skipSpaces (skipSpaces s) = skipSpaces s := List.dropWhile_idempotent _ s
  rw [scanNumber, scan]
  generalize skipSpaces s = t at hskip ⊢
  by_cases hnil : t = []
  · rw [hnil]
    rfl
  rw [scan, if_neg hnil, convert_int hskip]
  · cases (unsigned t).head?.any isDigit <;> rfl
  · rintro ⟨⟩
  · rintro c ⟨⟩

/-- A text starts with at most one of two words that do not start alike. -/
theorem not_isPrefix_of_isPrefix {v w s : List UInt8} (hv : v <+: s) (h : ¬v <+: w)
    (h' : ¬w <+: v) : ¬w <+: s := by
  intro hw
  rcases List.prefix_or_prefix_of_prefix hv hw with hvw | hwv
  · exact h hvw
  · exact h' hwv

theorem scan_word (w : List UInt8) (f : List Directive) (s : List UInt8) :
    scan (w.map .lit ++ f) (w ++ s) = scan f s := by
  induction w with
  | nil => rfl
  | cons c w ih => rw [List.map_cons, List.cons_append, List.cons_append, scan, if_pos rfl, ih]

theorem scan_of_not_isPrefix (h : ¬w <+: s) (f : List Directive) :
    scan (w.map .lit ++ f) s = [] := by
  induction w generalizing s with
  | nil => exact absurd (List.nil_prefix) h
  | cons c w ih =>
    cases s with
    | nil => rfl
    | cons d s =>
      rw [List.map_cons, List.cons_append, scan]
      split
      · exact ih fun hprefix => h (List.cons_prefix_cons.mpr ⟨‹d = c›.symm, hprefix⟩)
      · rfl

theorem scanInt_of_word (hformat : directives (bytes format) = w.map .lit ++ [.space, .int])
    (s : List UInt8) : scanInt (w ++ s) format = scanNumber s := by
  rw [scanInt, sscanf, hformat, scan_word, scan_space_int]
  cases scanNumber s <;> rfl

theorem scanInt_of_not_isPrefix
    (hformat : directives (bytes format) = w.map .lit ++ [.space, .int]) (h : ¬w <+: s) :
    scanInt s format = none := by
  rw [scanInt, sscanf, hformat, scan_of_not_isPrefix h]

/-- What follows the text decides which number the command has, if any. -/
def Undecided (w s : List UInt8) : Prop :=
  s <+: w ∨ w <+: s ∧ runsOn (skipSpaces (s.drop w.length)) = true

instance : Decidable (Undecided w s) := inferInstanceAs (Decidable (_ ∨ _))

theorem scanInt_append (hformat : directives (bytes format) = w.map .lit ++ [.space, .int])
    (h : ¬Undecided w s) (r : List UInt8) : scanInt (s ++ r) format = scanInt s format := by
  obtain ⟨hshort, hdigits⟩ := not_or.mp h
  by_cases hw : w <+: s
  · obtain ⟨t, rfl⟩ := hw
    have hstops : runsOn (skipSpaces t) = false := by
      rw [List.drop_left] at hdigits
      simpa using fun hruns => hdigits ⟨List.prefix_append w t, hruns⟩
    rw [List.append_assoc, scanInt_of_word hformat, scanInt_of_word hformat,
      scanNumber_append hstops]
  · have hw' : ¬w <+: s ++ r := by
      intro hprefix
      rcases List.prefix_or_prefix_of_prefix hprefix (List.prefix_append s r) with hws | hsw
      · exact hw hws
      · exact hshort hsw
    rw [scanInt_of_not_isPrefix hformat hw, scanInt_of_not_isPrefix hformat hw']

theorem exists_scanInt (hformat : directives (bytes format) = w.map .lit ++ [.space, .int])
    (hw : 0 ∉ w) (h : Undecided w s) (x : Int32) :
    ∃ e, 0 ∉ e ∧ scanInt (s ++ e) format = some x := by
  rcases h with ⟨t, rfl⟩ | ⟨⟨t, rfl⟩, hruns⟩
  · obtain ⟨e, hzero, hnumber⟩ := exists_scanNumber (s := []) rfl x
    refine ⟨t ++ e, ?_, ?_⟩
    · intro hmem
      rcases List.mem_append.mp hmem with hmem | hmem
      · exact hw (List.mem_append_right s hmem)
      · exact hzero hmem
    · rw [← List.append_assoc, scanInt_of_word hformat]
      exact hnumber
  · rw [List.drop_left] at hruns
    obtain ⟨e, hzero, hnumber⟩ := exists_scanNumber hruns x
    refine ⟨e, hzero, ?_⟩
    rw [List.append_assoc, scanInt_of_word hformat]
    exact hnumber

/-- The token that a conversion `%s` behind a blank stores. -/
def scanToken (s : List UInt8) : Option (List UInt8) :=
  if skipSpaces s = [] then none else some ((skipSpaces s).takeWhile fun c => !isSpace c)

theorem scan_space_str (s : List UInt8) :
    scan [.space, .str] s = (scanToken s).toList.map .str := by
  have hskip : skipSpaces (skipSpaces s) = skipSpaces s := List.dropWhile_idempotent _ s
  rw [scanToken, scan]
  generalize skipSpaces s = t at hskip ⊢
  rw [scan, convert, hskip]
  · split <;> rfl
  · rintro ⟨⟩
  · rintro c ⟨⟩

theorem scanStr_of_word (hformat : directives (bytes format) = w.map .lit ++ [.space, .str])
    (s : List UInt8) : scanStr (w ++ s) format = scanToken s := by
  rw [scanStr, sscanf, hformat, scan_word, scan_space_str]
  cases scanToken s <;> rfl

theorem scanStr_of_not_isPrefix
    (hformat : directives (bytes format) = w.map .lit ++ [.space, .str]) (h : ¬w <+: s) :
    scanStr s format = none := by
  rw [scanStr, sscanf, hformat, scan_of_not_isPrefix h]

end Command

section Unsigned

variable {base : Nat} {s r : List UInt8}

theorem fixupRadix_ten (s : List UInt8) : fixupRadix 10 s = (10, s) := by
  have hbase : ¬(10 : Nat) = 0 := by decide
  simp only [fixupRadix, if_neg hbase]
  split
  · rw [if_neg fun h => absurd h.1 (by decide)]
  · rfl

theorem simpleStrtoul_ten (n : Nat) (hr : ∀ c ∈ r.head?, isDigitOf 10 c = false) :
    simpleStrtoul (decimal n ++ r) 10 = (UInt64.ofNat n, r) := by
  obtain ⟨hall, hvalue⟩ := digits_decimal n
  rw [simpleStrtoul, fixupRadix_ten]
  simp only
  rw [parseInteger_of_all hall hr, hvalue]

/-- The number that a conversion `%zu` behind a blank stores. -/
def scanSize (s : List UInt8) : Option UInt64 :=
  if (skipSpaces s).head?.any isDigit then some (simpleStrtoul (skipSpaces s) 10).1 else none

theorem scan_space_size (s : List UInt8) :
    scan [.space, .size] s = (scanSize s).toList.map .size := by
  have hskip : skipSpaces (skipSpaces s) = skipSpaces s := List.dropWhile_idempotent _ s
  rw [scanSize, scan]
  generalize skipSpaces s = t at hskip ⊢
  by_cases hnil : t = []
  · rw [hnil]
    rfl
  rw [scan, if_neg hnil, convert, hskip]
  · cases t.head?.any isDigit <;> rfl
  · rintro ⟨⟩
  · rintro c ⟨⟩

theorem scanSize_decimal (n : Nat) (hr : ∀ c ∈ r.head?, isDigitOf 10 c = false) :
    scanSize (32 :: (decimal n ++ r)) = some (UInt64.ofNat n) := by
  obtain ⟨hskip, hhead⟩ := decimal_append_head n r
  have hblank : skipSpaces (32 :: (decimal n ++ r)) = decimal n ++ r := hskip
  rw [scanSize, hblank, if_pos hhead, simpleStrtoul_ten n hr]

variable {w : List UInt8} {format : String}

theorem sscanf_size_of_word (hformat : directives (bytes format) = w.map .lit ++ [.space, .size])
    (s : List UInt8) : sscanf (w ++ s) format = (scanSize s).toList.map .size := by
  rw [sscanf, hformat, scan_word, scan_space_size]

theorem sscanf_of_not_isPrefix {f : List Directive}
    (hformat : directives (bytes format) = w.map .lit ++ f) (h : ¬w <+: s) :
    sscanf s format = [] := by
  rw [sscanf, hformat, scan_of_not_isPrefix h]

theorem convert_uint_decimal (n : Nat) (hr : ∀ c ∈ r.head?, isDigitOf 10 c = false) :
    convert .uint (decimal n ++ r) = some (.uint (UInt64.ofNat n).toUInt32, r) := by
  obtain ⟨hskip, hhead⟩ := decimal_append_head n r
  simp only [convert, hskip, hhead, if_true, simpleStrtoul_ten n hr]

theorem isDigitOf_of_isXDigit (c : UInt8) : isXDigit c = true → isDigitOf 16 c = true :=
  forall_byte (p := fun c => isXDigit c = true → isDigitOf 16 c = true) (by decide +kernel) c

/-- The prefix of a hexadecimal number is no part of its value. -/
theorem convert_hex_prefixed (hs : s.all isXDigit = true) :
    convert .hex (48 :: 120 :: s) =
      some (.uint (UInt64.ofNat (digitsValue 16 s 0)).toUInt32, []) := by
  have hskip : skipSpaces (48 :: 120 :: s) = 48 :: 120 :: s := rfl
  have hall : s.all (isDigitOf 16) = true :=
    List.all_eq_true.mpr fun c hc => isDigitOf_of_isXDigit c (List.all_eq_true.mp hs c hc)
  have hradix : fixupRadix 16 (48 :: 120 :: s) = (16, s) := rfl
  have hhead : (48 :: 120 :: s).head?.any isXDigit = true := rfl
  simp only [convert, hskip, hhead, if_true, simpleStrtoul, hradix,
    parseInteger_all hall]

end Unsigned

section Token

variable {s t : List UInt8}

theorem scanToken_eq_none_iff : scanToken s = none ↔ ∀ c ∈ s, isSpace c = true := by
  rw [scanToken, skipSpaces, ← List.dropWhile_eq_nil_iff]
  split
  · exact iff_of_true rfl ‹_›
  · exact iff_of_false (Option.some_ne_none _) ‹_›

theorem isSome_scanToken {c : UInt8} (hc : isSpace c = false) (hmem : c ∈ s) :
    (scanToken s).isSome = true := by
  rw [Option.isSome_iff_ne_none]
  intro hnone
  rw [scanToken_eq_none_iff.mp hnone c hmem] at hc
  cases hc

theorem scanToken_word (hne : t ≠ []) (hword : ∀ c ∈ t, isSpace c = false) (s : List UInt8) :
    scanToken (t ++ s) = some (t ++ s.takeWhile fun c => !isSpace c) := by
  have hskip : skipSpaces (t ++ s) = t ++ s := by
    obtain ⟨c, v, rfl⟩ := List.exists_cons_of_ne_nil hne
    rw [List.cons_append, skipSpaces, List.dropWhile_cons_of_neg]
    rw [hword c List.mem_cons_self]
    exact Bool.false_ne_true
  rw [scanToken, hskip, if_neg (List.append_ne_nil_of_left_ne_nil hne s),
    List.takeWhile_append_of_pos]
  intro c hc
  rw [hword c hc]
  rfl

theorem isSpace_of_skipSpaces {c : UInt8} {v : List UInt8} (h : skipSpaces s = c :: v) :
    isSpace c = false := by
  have hhead := List.head?_dropWhile_not isSpace s
  rw [show s.dropWhile isSpace = c :: v from h] at hhead
  exact hhead

theorem word_of_scanToken (h : scanToken s = some t) :
    t ≠ [] ∧ ∀ c ∈ t, isSpace c = false := by
  rw [scanToken] at h
  split at h
  · cases h
  · obtain ⟨c, v, hv⟩ := List.exists_cons_of_ne_nil ‹skipSpaces s ≠ []›
    have hc := isSpace_of_skipSpaces hv
    injection h with h
    constructor
    · rw [← h, hv, List.takeWhile_cons_of_pos (by rw [hc]; rfl)]
      exact List.cons_ne_nil _ _
    · intro d hd
      rw [← h] at hd
      simpa using List.mem_takeWhile_imp hd

theorem mem_of_mem_scanToken (h : scanToken s = some t) {c : UInt8} (hc : c ∈ t) : c ∈ s := by
  rw [scanToken] at h
  split at h
  · cases h
  · injection h with h
    rw [← h] at hc
    exact (List.dropWhile_sublist _).mem ((List.takeWhile_sublist _).mem hc)

/-- A string that `%s` stores consists of bytes of the text. -/
theorem mem_of_mem_scanStr {w : List UInt8} {format : String}
    (hformat : directives (bytes format) = w.map .lit ++ [.space, .str])
    (h : scanStr s format = some t) {c : UInt8} (hc : c ∈ t) : c ∈ s := by
  by_cases hprefix : w <+: s
  · obtain ⟨r, rfl⟩ := hprefix
    rw [scanStr_of_word hformat] at h
    exact List.mem_append_right w (mem_of_mem_scanToken h hc)
  · rw [scanStr_of_not_isPrefix hformat hprefix] at h
    cases h

/-- A text is its own token when it is a word. -/
theorem scanToken_eq_self_iff : scanToken s = some s ↔ s ≠ [] ∧ ∀ c ∈ s, isSpace c = false := by
  constructor
  · exact word_of_scanToken
  · rintro ⟨hne, hword⟩
    have htoken := scanToken_word hne hword []
    rwa [List.takeWhile_nil, List.append_nil] at htoken

end Token

end LinuxInternals.Text
