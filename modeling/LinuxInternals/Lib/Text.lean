import Mathlib.Data.Nat.Digits.Defs
import Mathlib.Data.Nat.Digits.Lemmas
import Mathlib.Data.List.TakeWhile

/-!
# C strings, `sscanf` and `sprintf` as the kernel has them

Text is a list of bytes. `sscanf` follows the kernel's `vsscanf` on formats made of
literal characters, blanks and the conversions `%i`, `%u`, `%x`, `%s` and `%zu`; its
result lists the arguments stored, so that the value the C function returns is the
length. A signed decimal line reads back as the number it was printed from, although
`%i` guesses the base from the first characters.
-/

namespace LinuxInternals.Text

/-- The bytes of a string literal. -/
def bytes (s : String) : List UInt8 := s.toList.map fun c => UInt8.ofNat c.toNat

/-- The string that starts a piece of memory. -/
def cstring (mem : List UInt8) : List UInt8 := mem.takeWhile (· != 0)

/-- `isspace`; the kernel's table counts the no-break space. -/
def isSpace (c : UInt8) : Bool := c == 32 || (9 ≤ c && c ≤ 13) || c == 160

def isDigit (c : UInt8) : Bool := 48 ≤ c && c ≤ 57

/-- `_tolower`. -/
def toLower (c : UInt8) : UInt8 := c ||| 32

def isXDigit (c : UInt8) : Bool := isDigit c || (97 ≤ toLower c && toLower c ≤ 102)

def skipSpaces (s : List UInt8) : List UInt8 := s.dropWhile isSpace

def digitVal (c : UInt8) : Option Nat :=
  if isDigit c then some (c.toNat - 48)
  else if 97 ≤ toLower c && toLower c ≤ 102 then some ((toLower c).toNat - 87)
  else none

/-- `_parse_integer`: the number read after `acc`, and where reading stops. -/
def parseInteger (base : Nat) : List UInt8 → Nat → Nat × List UInt8
  | [], acc => (acc, [])
  | c :: s, acc =>
    match digitVal c with
    | some d => if d < base then parseInteger base s (acc * base + d) else (acc, c :: s)
    | none => (acc, c :: s)

/-- `tolower(s[0]) == 'x'` and a hexadecimal digit behind it. -/
def hexMark : List UInt8 → Bool
  | x :: d :: _ => toLower x == 120 && isXDigit d
  | _ => false

/-- `_parse_integer_fixup_radix`; base 0 asks for the base of a C literal. -/
def fixupRadix (base : Nat) (s : List UInt8) : Nat × List UInt8 :=
  let base :=
    if base = 0 then
      match s with
      | 48 :: t => if hexMark t then 16 else 8
      | _ => 10
    else base
  match s with
  | 48 :: x :: t => if base = 16 ∧ toLower x = 120 then (16, t) else (base, s)
  | _ => (base, s)

def simpleStrtoul (s : List UInt8) (base : Nat) : UInt64 × List UInt8 :=
  let r := fixupRadix base s
  let v := parseInteger r.1 r.2 0
  (UInt64.ofNat v.1, v.2)

def simpleStrtol (s : List UInt8) (base : Nat) : UInt64 × List UInt8 :=
  match s with
  | 45 :: t =>
    let v := simpleStrtoul t base
    (-v.1, v.2)
  | _ => simpleStrtoul s base

inductive Arg where
  | int (x : Int32)
  | uint (x : UInt32)
  | size (x : UInt64)
  | str (s : List UInt8)
deriving DecidableEq, Repr

inductive Directive where
  | space
  | lit (c : UInt8)
  | int
  | uint
  | hex
  | size
  | str
deriving DecidableEq, Repr

def directives : List UInt8 → List Directive
  | [] => []
  | 37 :: 105 :: f => .int :: directives f
  | 37 :: 117 :: f => .uint :: directives f
  | 37 :: 120 :: f => .hex :: directives f
  | 37 :: 122 :: 117 :: f => .size :: directives f
  | 37 :: 115 :: f => .str :: directives f
  | c :: f => (if isSpace c then .space else .lit c) :: directives f

/-- One conversion, on a string that has not ended: the argument and what is left. -/
def convert : Directive → List UInt8 → Option (Arg × List UInt8)
  | .int, s =>
    let s := skipSpaces s
    let digits := match s with
      | 45 :: t => t
      | _ => s
    if digits.head?.any isDigit then
      let v := simpleStrtol s 0
      some (.int v.1.toUInt32.toInt32, v.2)
    else none
  | .uint, s =>
    let s := skipSpaces s
    if s.head?.any isDigit then
      let v := simpleStrtoul s 10
      some (.uint v.1.toUInt32, v.2)
    else none
  | .hex, s =>
    let s := skipSpaces s
    if s.head?.any isXDigit then
      let v := simpleStrtoul s 16
      some (.uint v.1.toUInt32, v.2)
    else none
  | .size, s =>
    let s := skipSpaces s
    if s.head?.any isDigit then
      let v := simpleStrtoul s 10
      some (.size v.1, v.2)
    else none
  | .str, s =>
    let s := skipSpaces s
    some (.str (s.takeWhile fun c => !isSpace c), s.dropWhile fun c => !isSpace c)
  | .space, _ | .lit _, _ => none

def scan : List Directive → List UInt8 → List Arg
  | [], _ => []
  | .space :: f, s => scan f (skipSpaces s)
  | .lit c :: f, s =>
    match s with
    | [] => []
    | x :: t => if x = c then scan f t else []
  | d :: f, s =>
    if s = [] then []
    else
      match convert d s with
      | none => []
      | some (a, t) => a :: scan f t

def sscanf (s : List UInt8) (format : String) : List Arg := scan (directives (bytes format)) s

/-- The number that `sscanf` stores for a format with one `%i`, if it returns 1. -/
def scanInt (s : List UInt8) (format : String) : Option Int32 :=
  match sscanf s format with
  | [.int x] => some x
  | _ => none

/-- The string that `sscanf` stores for a format with one `%s`, if it returns 1. -/
def scanStr (s : List UInt8) (format : String) : Option (List UInt8) :=
  match sscanf s format with
  | [.str t] => some t
  | _ => none

/-- The digits of a number, as `sprintf` writes them. -/
def decimal (n : Nat) : List UInt8 :=
  if n = 0 then [48] else (Nat.digits 10 n).reverse.map fun d => UInt8.ofNat (48 + d)

/-- What `%i` and `%d` write. -/
def decimalInt (x : Int) : List UInt8 :=
  if x < 0 then 45 :: decimal x.natAbs else decimal x.natAbs

/-- `sprintf(buf, "%i\n", x)`. -/
def line (x : Int32) : List UInt8 := decimalInt x.toInt ++ [10]

/-- The lines of a text, each with its newline. -/
def lines : List UInt8 → List (List UInt8)
  | [] => []
  | c :: s =>
    if c = 10 then [10] :: lines s
    else
      match lines s with
      | [] => [[c]]
      | l :: ls => (c :: l) :: ls

def isDigitOf (base : Nat) (c : UInt8) : Bool := (digitVal c).any (· < base)

def digitsValue (base : Nat) (s : List UInt8) (acc : Nat) : Nat :=
  s.foldl (fun a c => a * base + (digitVal c).getD 0) acc

section CString

theorem cstring_append_zero (buf rest : List UInt8) :
    cstring (buf ++ 0 :: rest) = cstring buf := by
  induction buf with
  | nil => rfl
  | cons c buf ih =>
    simp only [cstring, List.cons_append, List.takeWhile_cons] at ih ⊢
    rw [ih]

theorem bne_of_not_mem {s : List UInt8} {d : UInt8} (h : d ∉ s) : ∀ c ∈ s, (c != d) = true := by
  intro c hc
  rw [bne_iff_ne]
  rintro rfl
  exact h hc

theorem cstring_of_not_mem {s : List UInt8} (h : 0 ∉ s) : cstring s = s :=
  List.takeWhile_eq_self_iff.mpr (bne_of_not_mem h)

theorem cstring_append {s : List UInt8} (h : 0 ∉ s) (t : List UInt8) :
    cstring (s ++ t) = s ++ cstring t :=
  List.takeWhile_append_of_pos (bne_of_not_mem h)

/-- Nothing counts behind a terminator. -/
theorem cstring_append_of_mem {s : List UInt8} (h : 0 ∈ s) (t : List UInt8) :
    cstring (s ++ t) = cstring s := by
  induction s with
  | nil => cases h
  | cons c s ih =>
    rw [List.cons_append, cstring, cstring, List.takeWhile_cons, List.takeWhile_cons]
    split
    · have hc : c ≠ 0 := by simpa using ‹(c != 0) = true›
      rcases List.mem_cons.mp h with hzero | hs
      · exact absurd hzero.symm hc
      · exact congrArg (c :: ·) (ih hs)
    · rfl

theorem zero_not_mem_cstring (s : List UInt8) : 0 ∉ cstring s := by
  intro h
  simpa using List.mem_takeWhile_imp h

end CString

section Digits

variable {base : Nat} {s r : List UInt8}

theorem isDigitOf_iff {c : UInt8} : isDigitOf base c = true ↔ ∃ d < base, digitVal c = some d := by
  rw [isDigitOf]
  cases digitVal c with
  | none => simp
  | some d => simp

/-- Reading stops where no digit follows. -/
theorem parseInteger_of_head (h : ∀ c ∈ r.head?, isDigitOf base c = false) (acc : Nat) :
    parseInteger base r acc = (acc, r) := by
  cases r with
  | nil => rfl
  | cons c r =>
    have hc : isDigitOf base c = false := h c rfl
    rw [parseInteger]
    cases hval : digitVal c with
    | none => rfl
    | some d =>
      have hd : ¬d < base := fun hd => by
        rw [isDigitOf_iff.mpr ⟨d, hd, hval⟩] at hc
        cases hc
      simp only [if_neg hd]

theorem parseInteger_append (h : s.all (isDigitOf base) = true) (r : List UInt8) (acc : Nat) :
    parseInteger base (s ++ r) acc = parseInteger base r (digitsValue base s acc) := by
  induction s generalizing acc with
  | nil => rfl
  | cons c s ih =>
    obtain ⟨hc, hs⟩ := Bool.and_eq_true_iff.mp (List.all_cons ▸ h)
    obtain ⟨d, hd, hval⟩ := isDigitOf_iff.mp hc
    rw [List.cons_append, parseInteger, digitsValue, List.foldl_cons, hval]
    simp only [if_pos hd, Option.getD_some]
    exact ih hs _

theorem parseInteger_of_all (h : s.all (isDigitOf base) = true)
    (hr : ∀ c ∈ r.head?, isDigitOf base c = false) (acc : Nat) :
    parseInteger base (s ++ r) acc = (digitsValue base s acc, r) :=
  (parseInteger_append h r acc).trans (parseInteger_of_head hr _)

theorem parseInteger_all (h : s.all (isDigitOf base) = true) (acc : Nat) :
    parseInteger base s acc = (digitsValue base s acc, []) := by
  have hall := parseInteger_of_all h (r := []) nofun acc
  rwa [List.append_nil] at hall

end Digits

section RoundTrip

theorem digit_byte {d : Nat} (h : d < 10) :
    isSpace (UInt8.ofNat (48 + d)) = false ∧ isDigit (UInt8.ofNat (48 + d)) = true ∧
      digitVal (UInt8.ofNat (48 + d)) = some d := by
  have hall : ∀ d < 10, isSpace (UInt8.ofNat (48 + d)) = false ∧
      isDigit (UInt8.ofNat (48 + d)) = true ∧ digitVal (UInt8.ofNat (48 + d)) = some d := by
    decide
  exact hall d h

theorem foldl_reverse_digits (n : Nat) :
    (Nat.digits 10 n).reverse.foldl (fun a d => a * 10 + d) 0 = n := by
  rw [List.foldl_reverse]
  have hfold : (fun d a => a * 10 + d) = fun d a : Nat => d + 10 * a := by
    funext d a
    omega
  rw [hfold]
  exact (Nat.ofDigits_eq_foldr 10 (Nat.digits 10 n)).symm.trans (Nat.ofDigits_digits 10 n)

/-- The digits of a positive number, the first of them not zero. -/
theorem decimal_of_pos {n : Nat} (h : n ≠ 0) :
    ∃ d ds, d ≠ 0 ∧ (∀ e ∈ d :: ds, e < 10) ∧ (d :: ds).foldl (fun a e => a * 10 + e) 0 = n ∧
      decimal n = (d :: ds).map fun e => UInt8.ofNat (48 + e) := by
  have hne : Nat.digits 10 n ≠ [] := Nat.digits_ne_nil_iff_ne_zero.mpr h
  have hlt : ∀ e ∈ (Nat.digits 10 n).reverse, e < 10 := by
    intro e he
    exact Nat.digits_lt_base (by decide) (List.mem_reverse.mp he)
  have hfold := foldl_reverse_digits n
  cases hrev : (Nat.digits 10 n).reverse with
  | nil => exact absurd (List.reverse_eq_nil_iff.mp hrev) hne
  | cons d ds =>
    rw [hrev] at hlt hfold
    refine ⟨d, ds, ?_, hlt, hfold, ?_⟩
    · have hlast := Nat.getLast_digit_ne_zero 10 h
      rw [← List.head_reverse (by simpa using hne)] at hlast
      simpa [hrev] using hlast
    · rw [decimal, if_neg h, hrev]

theorem digits_decimal (n : Nat) :
    (decimal n).all (isDigitOf 10) = true ∧ digitsValue 10 (decimal n) 0 = n := by
  by_cases h : n = 0
  · subst h
    decide
  · obtain ⟨d, ds, -, hlt, hfold, hdecimal⟩ := decimal_of_pos h
    have hval : ∀ e ∈ d :: ds, digitVal (UInt8.ofNat (48 + e)) = some e :=
      fun e he => (digit_byte (hlt e he)).2.2
    rw [hdecimal]
    constructor
    · rw [List.all_map, List.all_eq_true]
      exact fun e he => isDigitOf_iff.mpr ⟨e, hlt e he, hval e he⟩
    · rw [digitsValue, List.foldl_map, ← hfold]
      apply List.foldl_ext _ _ _
      intro a e he
      rw [hval e he, Option.getD_some]

theorem fixupRadix_of_ne {c : UInt8} (h : c ≠ 48) (s : List UInt8) :
    fixupRadix 0 (c :: s) = (10, c :: s) := by
  have hone (t : List UInt8) : c :: s ≠ 48 :: t := fun heq => h (List.head_eq_of_cons_eq heq)
  rw [fixupRadix]
  · simp only [if_true]
  · exact fun x t => hone (x :: t)
  · exact hone

theorem simpleStrtoul_decimal (n : Nat) (s : List UInt8) :
    simpleStrtoul (decimal n ++ 10 :: s) 0 = (UInt64.ofNat n, 10 :: s) := by
  by_cases h : n = 0
  · subst h
    have hmark : hexMark (10 :: s) = false := by cases s <;> rfl
    have hbase : fixupRadix 0 (48 :: 10 :: s) = (8, 48 :: 10 :: s) := by
      simp [fixupRadix, hmark]
    change simpleStrtoul (48 :: 10 :: s) 0 = _
    rw [simpleStrtoul, hbase]
    rfl
  · obtain ⟨d, ds, hd, hlt, -, hdecimal⟩ := decimal_of_pos h
    obtain ⟨hd10, -⟩ := List.forall_mem_cons.mp hlt
    have hne : UInt8.ofNat (48 + d) ≠ 48 := by
      have hall : ∀ d < 10, d ≠ 0 → UInt8.ofNat (48 + d) ≠ 48 := by decide
      exact hall d hd10 hd
    have hbase : fixupRadix 0 (decimal n ++ 10 :: s) = (10, decimal n ++ 10 :: s) := by
      rw [hdecimal, List.map_cons, List.cons_append, fixupRadix_of_ne hne]
    have hstop : ∀ c ∈ (10 :: s).head?, isDigitOf 10 c = false := by
      rintro c ⟨⟩
      rfl
    obtain ⟨hall, hvalue⟩ := digits_decimal n
    rw [simpleStrtoul, hbase]
    simp only
    rw [parseInteger_of_all hall hstop, hvalue]

theorem decimal_head (n : Nat) (r : List UInt8) :
    ∃ c t, decimal n ++ r = c :: t ∧ isDigit c = true ∧ isSpace c = false := by
  by_cases h : n = 0
  · subst h
    exact ⟨48, r, rfl, by decide, by decide⟩
  · obtain ⟨d, ds, -, hlt, -, hdecimal⟩ := decimal_of_pos h
    obtain ⟨hspace, hdigit, -⟩ := digit_byte (List.forall_mem_cons.mp hlt).1
    exact ⟨_, _, by rw [hdecimal, List.map_cons, List.cons_append], hdigit, hspace⟩

theorem decimal_append_head (n : Nat) (r : List UInt8) :
    skipSpaces (decimal n ++ r) = decimal n ++ r ∧
      (decimal n ++ r).head?.any isDigit = true := by
  obtain ⟨c, t, hcons, hdigit, hspace⟩ := decimal_head n r
  rw [hcons]
  refine ⟨?_, hdigit⟩
  rw [skipSpaces, List.dropWhile_cons_of_neg]
  rw [hspace]
  exact Bool.false_ne_true

theorem toInt32_ofNat_natAbs {x : Int32} (h : 0 ≤ x.toInt) :
    (UInt64.ofNat x.toInt.natAbs).toUInt32.toInt32 = x := by
  rw [UInt64.toUInt32_ofNat', UInt32.toInt32_ofNat', ← Int32.ofInt_eq_ofNat,
    Int.natAbs_of_nonneg h, Int32.ofInt_toInt]

theorem toInt32_neg_ofNat_natAbs {x : Int32} (h : x.toInt < 0) :
    (-UInt64.ofNat x.toInt.natAbs).toUInt32.toInt32 = x := by
  rw [UInt64.toUInt32_neg, UInt32.toInt32_neg, UInt64.toUInt32_ofNat', UInt32.toInt32_ofNat',
    Int32.neg_ofNat, Int.ofNat_natAbs_of_nonpos h.le, Int.neg_neg, Int32.ofInt_toInt]

/-- `%i` reads back what `%i` wrote. -/
theorem convert_decimalInt (x : Int32) (s : List UInt8) :
    convert .int (decimalInt x.toInt ++ 10 :: s) = some (.int x, 10 :: s) := by
  obtain ⟨c, t, hcons, hdigit, hspace⟩ := decimal_head x.toInt.natAbs (10 :: s)
  have hstrtoul := simpleStrtoul_decimal x.toInt.natAbs s
  rw [hcons] at hstrtoul
  rw [decimalInt]
  split
  · have hneg : x.toInt < 0 := ‹_›
    have hskip : skipSpaces (45 :: c :: t) = 45 :: c :: t := rfl
    rw [List.cons_append, hcons, convert, hskip]
    simp only [List.head?_cons, Option.any_some, hdigit, if_true, simpleStrtol, hstrtoul,
      toInt32_neg_ofNat_natAbs hneg]
  · have hskip : skipSpaces (c :: t) = c :: t := by simp [skipSpaces, hspace]
    have hminus : c ≠ 45 := by
      rintro rfl
      cases hdigit
    rw [hcons, convert, hskip]
    simp only
    split
    · exact absurd (List.head_eq_of_cons_eq ‹_›) hminus
    · rw [simpleStrtol]
      · simp only [List.head?_cons, Option.any_some, hdigit, if_true, hstrtoul,
          toInt32_ofNat_natAbs (not_lt.mp ‹_›)]
      · intro u hu
        exact hminus (List.head_eq_of_cons_eq hu)

theorem lines_append {t : List UInt8} (h : 10 ∉ t) (s : List UInt8) :
    lines (t ++ 10 :: s) = (t ++ [10]) :: lines s := by
  induction t with
  | nil => rfl
  | cons c t ih =>
    obtain ⟨hc, ht⟩ := not_or.mp (mt List.mem_cons.mpr h)
    rw [List.cons_append, lines, if_neg (Ne.symm hc), ih ht]
    rfl

theorem not_mem_decimal {c : UInt8} (hc : isDigit c = false) (n : Nat) : c ∉ decimal n := by
  intro h
  rw [decimal] at h
  split at h
  · rw [List.mem_singleton.mp h] at hc
    cases hc
  · obtain ⟨d, hd, heq⟩ := List.mem_map.mp h
    have hlt : d < 10 := Nat.digits_lt_base (by decide) (List.mem_reverse.mp hd)
    have hdigit := (digit_byte hlt).2.1
    rw [heq, hc] at hdigit
    cases hdigit

theorem not_mem_decimalInt {c : UInt8} (hc : isDigit c = false) (hminus : c ≠ 45) (x : Int) :
    c ∉ decimalInt x := by
  have hdecimal := not_mem_decimal hc x.natAbs
  rw [decimalInt]
  split
  · exact List.not_mem_cons_of_ne_of_not_mem hminus hdecimal
  · exact hdecimal

theorem lines_flatMap_line (l : List Int32) : lines (l.flatMap line) = l.map line := by
  induction l with
  | nil => rfl
  | cons x l ih =>
    rw [List.flatMap_cons, line, List.append_assoc, List.singleton_append,
      lines_append (not_mem_decimalInt rfl (by decide) _), ih, List.map_cons, line]

theorem length_decimal_le_iff {n k : Nat} (hk : 0 < k) :
    (decimal n).length ≤ k ↔ n < 10 ^ k := by
  rw [decimal]
  split
  · have hpow : 0 < 10 ^ k := Nat.pow_pos (by decide)
    exact iff_of_true hk (by omega)
  · rw [List.length_map, List.length_reverse]
    exact Nat.digits_length_le_iff (by decide) n

theorem zero_not_mem_line (x : Int32) : 0 ∉ line x := by
  intro h
  rcases List.mem_append.mp h with h | h
  · exact not_mem_decimalInt rfl (by decide) _ h
  · exact absurd h (by decide)

theorem skipSpaces_line (x : Int32) : skipSpaces (line x) = line x := by
  rw [line, decimalInt]
  split
  · rfl
  · obtain ⟨c, t, hcons, -, hspace⟩ := decimal_head x.toInt.natAbs [10]
    rw [hcons, skipSpaces, List.dropWhile_cons_of_neg (by simp [hspace])]

/-- A line has at most ten digits, a sign and a newline. -/
theorem length_line_le (x : Int32) : (line x).length ≤ 12 := by
  have hlo := x.le_toInt
  have hhi := x.toInt_lt
  have hdigits : (decimal x.toInt.natAbs).length ≤ 10 :=
    (length_decimal_le_iff (by decide)).mpr (by omega)
  rw [line, decimalInt, List.length_append, List.length_singleton]
  split
  · rw [List.length_cons]
    omega
  · omega

end RoundTrip

end LinuxInternals.Text
