import LinuxInternals.Blinkdrv.Message
import LinuxInternals.Lib.Scanning

/-!
# The colours that `blink_write` sends

A list of entries sets the colours of the LEDs that it names, the last entry for each. The other
LEDs are meant to be black, but `NR_LEDS` bytes are only two numbers: the rest of `ledcolors` keeps
what the stack held.
-/

namespace LinuxInternals.Blinkdrv.Message

open Text

/-- An entry `k:0xRRGGBB`. -/
structure LedEntry where
  key : Fin nrLeds
  digits : List UInt8
  length_digits : digits.length = 6
  hex : digits.all isXDigit = true

namespace LedEntry

def text (e : LedEntry) : List UInt8 := decimal e.key ++ bytes ":0x" ++ e.digits

/-- The bytes that pairs of hexadecimal digits stand for. -/
def pairs : List UInt8 → List UInt8
  | c :: d :: s => UInt8.ofNat (16 * (digitVal c).getD 0 + (digitVal d).getD 0) :: pairs s
  | _ => []

def color (e : LedEntry) : List UInt8 := pairs e.digits

def value (e : LedEntry) : UInt32 := (UInt64.ofNat (digitsValue 16 e.digits 0)).toUInt32

/-- The turn of the loop for an entry. -/
def turn (e : LedEntry) : Turn := ⟨e.text, (UInt64.ofNat e.key).toUInt32, e.value⟩

end LedEntry

/-- The entries, joined by commas. -/
def joined (entries : List LedEntry) : List UInt8 :=
  [44].intercalate (entries.map LedEntry.text)

/-- The text asks for the colours of these entries. -/
def Requests (buf : List UInt8) (entries : List LedEntry) : Prop :=
  (entries ≠ [] ∧ entries.length ≤ nrLeds ∧ buf.length ≤ 79 ∧ cstring buf = joined entries) ∨
    entries = [] ∧ buf.length = 1

/-- The colour of the last entry for the LED, or black. -/
def requested (entries : List LedEntry) (i : Nat) : List UInt8 :=
  match entries.reverse.find? fun e => e.key = i with
  | some e => e.color
  | none => [0, 0, 0]

/-- Whatever the stack held, the messages are those that the entries ask for. -/
def Obeys (spared : Nat → UInt32) (buf : List UInt8) (entries : List LedEntry) : Prop :=
  ∀ stack usb, (∀ i, 0 ≤ usb i) →
    (blinkWrite spared stack buf true usb).2 =
      (List.range nrLeds).map fun i => [5, 0, UInt8.ofNat i] ++ requested entries i

section Bytes

theorem digit_lt {c : UInt8} (h : isXDigit c = true) : (digitVal c).getD 0 < 16 := by
  obtain ⟨x, hx, hval⟩ := isDigitOf_iff.mp (isDigitOf_of_isXDigit c h)
  rwa [hval]

theorem low_byte (x : UInt32) : (x &&& 0xff).toUInt8 = UInt8.ofNat x.toNat := by
  have hmod := Nat.and_two_pow_sub_one_eq_mod x.toNat 8
  apply UInt8.toNat_inj.mp
  rw [UInt32.toNat_toUInt8, UInt32.toNat_and, UInt8.toNat_ofNat']
  simp at hmod ⊢
  omega

theorem rgb_eq (color : UInt32) :
    rgb color = [UInt8.ofNat (color.toNat / 65536), UInt8.ofNat (color.toNat / 256),
      UInt8.ofNat color.toNat] := by
  have h16 : (color >>> 16).toNat = color.toNat / 65536 := by
    rw [UInt32.toNat_shiftRight, Nat.shiftRight_eq_div_pow]
    rfl
  have h8 : (color >>> 8).toNat = color.toNat / 256 := by
    rw [UInt32.toNat_shiftRight, Nat.shiftRight_eq_div_pow]
    rfl
  rw [rgb, low_byte, low_byte, low_byte, h16, h8]

theorem rgb_eq_black_iff (color : UInt32) : rgb color = [0, 0, 0] ↔ color &&& 0xffffff = 0 := by
  have hbyte : ∀ n, UInt8.ofNat n = 0 ↔ n % 256 = 0 := by
    intro n
    rw [← UInt8.toNat_inj, UInt8.toNat_ofNat']
    rfl
  have hmask : color &&& 0xffffff = 0 ↔ color.toNat % 16777216 = 0 := by
    have hmod := Nat.and_two_pow_sub_one_eq_mod color.toNat 24
    rw [← UInt32.toNat_inj, UInt32.toNat_and]
    simp at hmod ⊢
    omega
  rw [rgb_eq, hmask]
  simp only [List.cons.injEq, and_true, hbyte]
  omega

end Bytes

namespace LedEntry

variable (e : LedEntry)

theorem exists_digits : ∃ a b c d f g, e.digits = [a, b, c, d, f, g] := by
  obtain ⟨a, b, c, hred⟩ := List.length_eq_three.mp
    (show (e.digits.take 3).length = 3 by rw [List.length_take, e.length_digits]; rfl)
  obtain ⟨d, f, g, hblue⟩ := List.length_eq_three.mp
    (show (e.digits.drop 3).length = 3 by rw [List.length_drop, e.length_digits])
  refine ⟨a, b, c, d, f, g, ?_⟩
  rw [← List.take_append_drop 3 e.digits, hred, hblue]
  rfl

/-- The number that `%x` reads has the bytes of the pairs. -/
theorem rgb_value : rgb e.value = e.color := by
  obtain ⟨a, b, c, d, f, g, hdigits⟩ := e.exists_digits
  have hlt : ∀ x ∈ e.digits, (digitVal x).getD 0 < 16 :=
    fun x hx => digit_lt (List.all_eq_true.mp e.hex x hx)
  simp only [hdigits, List.forall_mem_cons] at hlt
  have hvalue : e.value.toNat = digitsValue 16 e.digits 0 % 18446744073709551616 % 4294967296 := by
    simp [value]
  rw [rgb_eq, hvalue, hdigits, color, hdigits]
  simp only [pairs, digitsValue, List.foldl_cons, List.foldl_nil, List.cons.injEq, and_true,
    ← UInt8.toNat_inj, UInt8.toNat_ofNat']
  omega

theorem key_toNat : (UInt64.ofNat e.key).toUInt32.toNat = e.key := by
  have hlt : (e.key : Nat) < 8 := e.key.isLt
  simp
  omega

theorem text_eq : e.text = decimal e.key ++ 58 :: 48 :: 120 :: e.digits := by
  rw [text, List.append_assoc]
  rfl

theorem length_text : e.text.length = 10 := by
  have hlt : (e.key : Nat) < 8 := e.key.isLt
  have hle : (decimal e.key).length ≤ 1 := (length_decimal_le_iff Nat.one_pos).mpr (by omega)
  have hpos : (decimal e.key).length ≠ 0 := by
    have hhead := (decimal_append_head e.key []).2
    rw [List.append_nil] at hhead
    rw [Ne, List.length_eq_zero_iff]
    intro hnil
    rw [hnil] at hhead
    cases hhead
  rw [text_eq, List.length_append]
  simp only [List.length_cons, e.length_digits]
  omega

theorem comma_not_mem : 44 ∉ e.text := by
  have hdigits : 44 ∉ e.digits := fun h => absurd (List.all_eq_true.mp e.hex 44 h) (by decide)
  have hdecimal : 44 ∉ decimal e.key := not_mem_decimal (by decide) _
  simp [text_eq, hdecimal, hdigits]

theorem sscanf_text :
    sscanf e.text "%u:%x" = [.uint (UInt64.ofNat e.key).toUInt32, .uint e.value] := by
  have hformat : directives (bytes "%u:%x") = [.uint, .lit 58, .hex] := by decide
  have hne : decimal e.key ++ 58 :: 48 :: 120 :: e.digits ≠ [] := by simp
  have hstop : ∀ c ∈ (58 :: 48 :: 120 :: e.digits).head?, isDigitOf 10 c = false := by
    rintro c ⟨⟩
    decide
  rw [sscanf, hformat, text_eq]
  simp only [scan, hne, if_false, convert_uint_decimal _ hstop, convert_hex_prefixed e.hex, if_true,
    reduceCtorEq]
  rfl

end LedEntry

section Loop

variable {entries : List LedEntry}

theorem strsep_of_not_mem {token : List UInt8} (h : 44 ∉ token) :
    strsep token = (token, none) := by
  have hall := bne_of_not_mem h
  rw [strsep, List.takeWhile_eq_self_iff.mpr hall, List.dropWhile_eq_nil_iff.mpr hall]
  rfl

theorem strsep_append {token : List UInt8} (h : 44 ∉ token) (rest : List UInt8) :
    strsep (token ++ 44 :: rest) = (token, some rest) := by
  have hall := bne_of_not_mem h
  rw [strsep, List.takeWhile_append_of_pos hall, List.dropWhile_append_of_pos hall]
  simp

theorem joined_cons_cons (e e' : LedEntry) (entries : List LedEntry) :
    joined (e :: e' :: entries) = e.text ++ 44 :: joined (e' :: entries) := by
  rw [joined, List.map_cons, List.map_cons, List.intercalate_cons_cons, List.append_assoc]
  rfl

theorem length_joined (hne : entries ≠ []) :
    (joined entries).length + 1 = 11 * entries.length := by
  induction entries with
  | nil => exact absurd rfl hne
  | cons e entries ih =>
    cases entries with
    | nil =>
      have htext : joined [e] = e.text := List.intercalate_singleton
      rw [htext, e.length_text]
      rfl
    | cons e' entries =>
      have hrest := ih (List.cons_ne_nil _ _)
      rw [joined_cons_cons, List.length_append, e.length_text]
      simp only [List.length_cons] at hrest ⊢
      omega

/-- The loop makes one turn for each entry. -/
theorem parseLoop_joined (hne : entries ≠ []) {n : Nat} (hlen : entries.length ≤ n)
    (key value : UInt32) :
    parseLoop n (some (joined entries)) key value = entries.map LedEntry.turn := by
  induction entries generalizing n key value with
  | nil => exact absurd rfl hne
  | cons e entries ih =>
    obtain ⟨n, rfl⟩ := Nat.exists_eq_add_one_of_ne_zero (Nat.ne_zero_of_lt hlen)
    cases entries with
    | nil =>
      have htext : joined [e] = e.text := List.intercalate_singleton
      rw [parseLoop, htext, strsep_of_not_mem e.comma_not_mem, e.sscanf_text]
      cases n <;> rfl
    | cons e' entries =>
      rw [parseLoop, joined_cons_cons, strsep_append e.comma_not_mem, e.sscanf_text]
      have hrest := ih (List.cons_ne_nil _ _) (Nat.le_of_succ_le_succ hlen)
      exact congrArg (e.turn :: ·) (hrest _ _)

theorem parse_of_requests {buf : List UInt8} (h : Requests buf entries) (stack : Stack) :
    parse stack buf = entries.map LedEntry.turn := by
  rcases h with ⟨hne, hlen, -, htext⟩ | ⟨rfl, hone⟩
  · have hlong : buf.length ≠ 1 := by
      have hlength := length_joined hne
      have hpos := List.length_pos_of_ne_nil hne
      have hle : (cstring buf).length ≤ buf.length := (List.takeWhile_sublist _).length_le
      rw [← htext] at hlength
      omega
    have hkbuf : cstring (buf ++ [0]) = joined entries := (cstring_append_zero buf []).trans htext
    rw [parse, if_neg hlong, hkbuf, parseLoop_joined hne hlen]
  · rw [parse, if_pos hone, List.map_nil]

/-- The last assignment to an LED counts. -/
theorem foldl_assign (ledcolors : Nat → UInt32) (entries : List LedEntry) (i : Nat) :
    (entries.map LedEntry.turn).foldl assign ledcolors i =
      match entries.reverse.find? fun e => e.key = i with
      | some e => e.value
      | none => ledcolors i := by
  induction entries using List.reverseRecOn with
  | nil => rfl
  | append_singleton entries e ih =>
    rw [List.map_append, List.foldl_append, List.reverse_append, List.reverse_singleton,
      List.singleton_append, List.find?_cons]
    simp only [List.map_cons, List.map_nil, List.foldl_cons, List.foldl_nil, assign, LedEntry.turn,
      e.key_toNat]
    by_cases hkey : (e.key : Nat) = i
    · simp [hkey]
    · rw [Function.update_of_ne (Ne.symm hkey), ih]
      simp [hkey]

end Loop

section Main

variable {entries : List LedEntry} {buf : List UInt8} {spared : Nat → UInt32}

def Named (entries : List LedEntry) (i : Nat) : Prop := ∃ e ∈ entries, (e.key : Nat) = i

theorem messages_eq (h : Requests buf entries) (stack : Stack) {usb : Nat → Int}
    (husb : ∀ i, 0 ≤ usb i) :
    (blinkWrite spared stack buf true usb).2 = (List.range nrLeds).map
      (message ((entries.map LedEntry.turn).foldl assign (zeroFill spared stack.ledcolors))) := by
  simp only [blinkWrite, Bool.not_true, Bool.false_eq_true, if_false, parse_of_requests h,
    sendLoop_ok husb]

theorem rgb_of_named {i : Nat} (h : Named entries i) (ledcolors : Nat → UInt32) :
    rgb ((entries.map LedEntry.turn).foldl assign ledcolors i) = requested entries i := by
  rw [foldl_assign, requested]
  cases hfind : entries.reverse.find? fun e => e.key = i with
  | some e => exact e.rgb_value
  | none =>
    obtain ⟨e, he, hkey⟩ := h
    rw [List.find?_eq_none] at hfind
    exact absurd (decide_eq_true hkey) (hfind e (List.mem_reverse.mpr he))

theorem rgb_of_not_named {i : Nat} (h : ¬Named entries i) (ledcolors : Nat → UInt32) :
    requested entries i = [0, 0, 0] ∧
      (entries.map LedEntry.turn).foldl assign ledcolors i = ledcolors i := by
  have hfind : (entries.reverse.find? fun e => e.key = i) = none := by
    rw [List.find?_eq_none]
    intro e he hkey
    exact h ⟨e, List.mem_reverse.mp he, of_decide_eq_true hkey⟩
  rw [foldl_assign, requested, hfind]
  exact ⟨rfl, rfl⟩

/-- The messages are those that were asked for exactly where each LED gets its colour. -/
theorem obeys_iff_rgb (h : Requests buf entries) :
    Obeys spared buf entries ↔ ∀ ledcolors : Nat → UInt32, ∀ i < nrLeds,
      rgb ((entries.map LedEntry.turn).foldl assign (zeroFill spared ledcolors) i) =
        requested entries i := by
  constructor
  · intro hobeys ledcolors i hi
    have hall := hobeys ⟨ledcolors, 0, 0⟩ (fun _ => 0) fun _ => le_rfl
    rw [messages_eq h _ fun _ => le_rfl, List.map_inj_left] at hall
    exact List.append_cancel_left (hall i (List.mem_range.mpr hi))
  · intro hrgb stack usb husb
    rw [messages_eq h stack husb, List.map_inj_left]
    intro i hi
    rw [message, hrgb _ i (List.mem_range.mp hi)]

/-- The colours of an LED that nobody names are cleared if they are among the first two, or
where the `memset` of `message` comes to them. -/
theorem black_iff (i : Nat) :
    (∀ ledcolors : Nat → UInt32, rgb (zeroFill spared ledcolors i) = [0, 0, 0]) ↔
      (2 ≤ i → spared i &&& 0xffffff = 0) := by
  simp only [rgb_eq_black_iff, zeroFill]
  have hlow : 4 * i < nrLeds ↔ ¬2 ≤ i := by
    change 4 * i < 8 ↔ _
    omega
  by_cases hi : 2 ≤ i
  · have hhigh : ¬4 * i < nrLeds := fun hlt => hlow.mp hlt hi
    simp only [hhigh, if_false, hi, forall_const]
    constructor
    · intro hall
      have hones := hall fun _ => 0xffffffff
      rwa [show (0xffffffff : UInt32) &&& spared i = spared i from UInt32.neg_one_and] at hones
    · intro hmask ledcolors
      rw [UInt32.and_assoc, hmask, UInt32.and_zero]
  · simp only [hlow.mpr hi, if_true, hi, false_imp_iff, iff_true]
    intro ledcolors
    rfl

/-- The colours are those that were asked for, whatever the stack held, exactly where every LED
from the third on is named or has been cleared by the `memset` of `message`. -/
theorem colors_sent_iff (h : Requests buf entries) :
    Obeys spared buf entries ↔
      ∀ i, 2 ≤ i → i < nrLeds → Named entries i ∨ spared i &&& 0xffffff = 0 := by
  rw [obeys_iff_rgb h]
  constructor
  · intro hrgb i hi hlt
    by_cases hnamed : Named entries i
    · exact .inl hnamed
    · refine .inr ((black_iff i).mp (fun ledcolors => ?_) hi)
      obtain ⟨hblack, hkeeps⟩ := rgb_of_not_named hnamed (zeroFill spared ledcolors)
      rw [← hkeeps, hrgb ledcolors i hlt, hblack]
  · intro hall ledcolors i hlt
    by_cases hnamed : Named entries i
    · exact rgb_of_named hnamed _
    · obtain ⟨hblack, hkeeps⟩ := rgb_of_not_named hnamed (zeroFill spared ledcolors)
      rw [hblack, hkeeps]
      exact (black_iff i).mpr (fun hi => (hall i hi hlt).resolve_left hnamed) ledcolors

/-- The entry for LED 5 that `blink_user` writes. -/
def five : LedEntry := ⟨⟨5, by decide⟩, bytes "100000", rfl, by decide⟩

theorem requests_five : Requests (bytes "5:0x100000" ++ [0]) [five] :=
  .inl ⟨List.cons_ne_nil _ _, by decide, by decide, by decide⟩

/-- Where the `memset` of `message` comes to all of `ledcolors`, one entry is enough; where it
comes to none of it, not even the text without entries is. -/
theorem colors_sent_iff_five :
    Obeys (fun _ => 0) (bytes "5:0x100000" ++ [0]) [five] ∧
      ¬Obeys (fun _ => 0xffffffff) [0] [] := by
  have hnone : Requests [0] [] := .inr ⟨rfl, rfl⟩
  refine ⟨(colors_sent_iff requests_five).mpr fun i _ _ => .inr rfl, fun h => ?_⟩
  rcases (colors_sent_iff hnone).mp h 2 le_rfl (by decide) with ⟨e, he, -⟩ | hmask
  · cases he
  · exact absurd hmask (by decide)

/-- LED 2 gets what the stack held. -/
theorem stale_color_sent :
    Requests (bytes "5:0x100000" ++ [0]) [five] ∧
      (blinkWrite (fun _ => 0xffffffff) ⟨fun _ => 0xaa, 0, 0⟩ (bytes "5:0x100000" ++ [0]) true
        fun _ => 0).2[2]? = some [5, 0, 2, 0, 0, 0xaa] ∧
      ¬Obeys (fun _ => 0xffffffff) (bytes "5:0x100000" ++ [0]) [five] := by
  have hsent : (blinkWrite (fun _ => 0xffffffff) ⟨fun _ => 0xaa, 0, 0⟩
      (bytes "5:0x100000" ++ [0]) true fun _ => 0).2[2]? = some [5, 0, 2, 0, 0, 0xaa] := by
    decide +kernel
  refine ⟨requests_five, hsent, fun h => ?_⟩
  rw [h _ _ fun _ => le_rfl] at hsent
  exact absurd hsent (by decide)

end Main

end LinuxInternals.Blinkdrv.Message
