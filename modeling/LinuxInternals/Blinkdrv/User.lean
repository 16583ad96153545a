import LinuxInternals.Blinkdrv.Colours

/-!
# The activity of the disk on the LEDs

`blink_user` reads the numbers of reads and writes of the disk over and over. It has the driver turn
LED 5 red for new reads and LED 7 blue for new writes, and then turn all LEDs off. `fgets` has room
for 18 digits of both numbers.
-/

namespace LinuxInternals.Blinkdrv.User

open Text Message

def statusSize : Nat := 20

/-- The text in `status`, and the numbers of the last turn and of this one. -/
structure State where
  status : List UInt8
  prevRead : UInt32
  prevWrite : UInt32
  readIo : UInt32
  writeIo : UInt32

/-- What `fgets` takes, with room for `n` bytes. -/
def fgets : Nat → List UInt8 → List UInt8
  | 0, _ => []
  | _ + 1, [] => []
  | n + 1, c :: s => if c = 10 then [10] else c :: fgets n s

def isspace (c : UInt8) : Bool := c == 32 || (9 ≤ c && c ≤ 13)

/-- `%u` of the `sscanf` of the C library, which reads the number as `strtoul` does. -/
def scanUnsigned (s : List UInt8) : Option (UInt32 × List UInt8) :=
  let s := s.dropWhile isspace
  let negative := s.head? = some 45
  let s := if negative ∨ s.head? = some 43 then s.tail else s
  let digits := s.takeWhile isDigit
  let n := digitsValue 10 digits 0
  let value :=
    if 18446744073709551616 ≤ n then 18446744073709551615
    else if negative then 18446744073709551616 - n
    else n
  if digits = [] then none else some (UInt32.ofNat value, s.dropWhile isDigit)

/-- `sscanf(status, "%u %u", &readIO, &writeIO)`. -/
def scan (status : List UInt8) (readIo writeIo : UInt32) : UInt32 × UInt32 :=
  match scanUnsigned status with
  | none => (readIo, writeIo)
  | some (r, rest) =>
    match scanUnsigned rest with
    | none => (r, writeIo)
    | some (w, _) => (r, w)

/-- One turn of the loop, for what the pipe gives, and the texts that it writes to the device. At
the end of the pipe `fgets` leaves `status` as it is. -/
def turn (s : State) (pipe : List UInt8) : State × List (List UInt8) :=
  let status := if pipe = [] then s.status else cstring (fgets (statusSize - 1) pipe)
  let io := scan status s.readIo s.writeIo
  let s := { s with status, readIo := io.1, writeIo := io.2 }
  if s.readIo ≠ s.prevRead ∧ s.writeIo ≠ s.prevWrite then
    ({ s with prevRead := s.readIo, prevWrite := s.writeIo },
      [bytes "5:0x100000,7:0x000010" ++ [0], [0]])
  else if s.readIo ≠ s.prevRead then
    ({ s with prevRead := s.readIo }, [bytes "5:0x100000" ++ [0], [0]])
  else if s.writeIo ≠ s.prevWrite then
    ({ s with prevWrite := s.writeIo }, [bytes "7:0x000010" ++ [0], [0]])
  else (s, [[0]])

/-- The program, until `popen` fails; `status`, `readIo` and `writeIo` hold anything at first. -/
def machine (status : List UInt8) (readIo writeIo : UInt32) :
    Machine State (List UInt8) (List UInt8) where
  init := { status, prevRead := 0, prevWrite := 0, readIo, writeIo }
  step s pipe := some (turn s pipe)

/-- The line that `cut` makes of the statistics. -/
def statLine (stat : Nat × Nat) : List UInt8 := decimal stat.1 ++ 32 :: decimal stat.2 ++ [10]

/-- The number of reads, and what is left of the number of writes behind it. -/
def seen (stat : Nat × Nat) : UInt32 × UInt32 :=
  (UInt32.ofNat stat.1,
    UInt32.ofNat (stat.2 / 10 ^ ((decimal stat.1).length + (decimal stat.2).length - 18)))

section Numbers

theorem isDigit_byte (c : UInt8) :
    isDigit c = true → isspace c = false ∧ c ≠ 45 ∧ c ≠ 43 ∧ c ≠ 0 ∧ c ≠ 10 := by
  apply forall_byte (p := fun c =>
    isDigit c = true → isspace c = false ∧ c ≠ 45 ∧ c ≠ 43 ∧ c ≠ 0 ∧ c ≠ 10)
  decide +kernel

theorem all_isDigit {s : List UInt8} (hs : s.all (isDigitOf 10) = true) :
    ∀ c ∈ s, isDigit c = true :=
  fun c hc => isDigit_of_isDigitOf_ten c (List.all_eq_true.mp hs c hc)

theorem scanUnsigned_digits {spaces d : List UInt8} (rest : List UInt8)
    (hspaces : ∀ c ∈ spaces, isspace c = true) (hne : d ≠ []) (hd : d.all (isDigitOf 10) = true)
    (hlt : digitsValue 10 d 0 < 18446744073709551616)
    (hrest : ∀ c ∈ rest.head?, isDigit c = false) :
    scanUnsigned (spaces ++ (d ++ rest)) = some (UInt32.ofNat (digitsValue 10 d 0), rest) := by
  have hdigit := all_isDigit hd
  have hspace : (spaces ++ (d ++ rest)).dropWhile isspace = d ++ rest := by
    rw [List.dropWhile_append_of_pos hspaces]
    obtain ⟨c, d, rfl⟩ := List.exists_cons_of_ne_nil hne
    rw [List.cons_append, List.dropWhile_cons_of_neg]
    rw [(isDigit_byte c (hdigit c List.mem_cons_self)).1]
    exact Bool.false_ne_true
  have htake : (d ++ rest).takeWhile isDigit = d ∧ (d ++ rest).dropWhile isDigit = rest := by
    rw [List.takeWhile_append_of_pos hdigit, List.dropWhile_append_of_pos hdigit]
    cases rest with
    | nil => simp
    | cons c rest => simp [hrest c rfl]
  have hsign : (d ++ rest).head? ≠ some 45 ∧ (d ++ rest).head? ≠ some 43 := by
    obtain ⟨c, d, rfl⟩ := List.exists_cons_of_ne_nil hne
    obtain ⟨-, hminus, hplus, -⟩ := isDigit_byte c (hdigit c List.mem_cons_self)
    simp [hminus, hplus]
  simp only [scanUnsigned, hspace, hsign.1, hsign.2, or_self, if_false, htake.1, htake.2,
    if_neg hne, if_neg (not_le.mpr hlt)]

theorem fgets_line {t : List UInt8} (h : 10 ∉ t) (n : Nat) :
    fgets n (t ++ [10]) = t.take n ++ if t.length < n then [10] else [] := by
  induction t generalizing n with
  | nil =>
    cases n with
    | zero => rfl
    | succ n => simp [fgets]
  | cons c t ih =>
    cases n with
    | zero => rfl
    | succ n =>
      rw [List.mem_cons, not_or] at h
      rw [List.cons_append, fgets, if_neg (Ne.symm h.1), ih h.2, List.take_succ_cons,
        List.length_cons, List.cons_append]
      simp only [Nat.add_lt_add_iff_right]

/-- The line, as far as `status` has room for it. -/
theorem fgets_statLine (r w : Nat) (hlen : (decimal r).length ≤ 17) :
    ∃ tail : List UInt8, (tail = [10] ∨ tail = []) ∧ fgets (statusSize - 1) (statLine (r, w)) =
      decimal r ++ (32 :: ((decimal w).take (18 - (decimal r).length) ++ tail)) := by
  have hnl : 10 ∉ decimal r ++ 32 :: decimal w := by
    have hout := fun n => not_mem_decimal (c := 10) (by decide) n
    simp [hout]
  refine ⟨if (decimal r ++ 32 :: decimal w).length < 19 then [10] else [], ?_,
    (fgets_line hnl 19).trans ?_⟩
  · split
    · exact .inl rfl
    · exact .inr rfl
  · rw [List.take_append, List.take_of_length_le (hlen.trans (by decide)), List.append_assoc,
      show 19 - (decimal r).length = 18 - (decimal r).length + 1 by omega, List.take_succ_cons,
      List.cons_append]

/-- What the program makes of a line with two numbers, as long as the first leaves room for the
second. -/
theorem scan_statLine {stat : Nat × Nat} (hstat : stat.1 < 10 ^ 17) (readIo writeIo : UInt32) :
    scan (cstring (fgets (statusSize - 1) (statLine stat))) readIo writeIo = seen stat := by
  obtain ⟨r, w⟩ := stat
  have hlen : (decimal r).length ≤ 17 := (length_decimal_le_iff (by decide)).mpr hstat
  obtain ⟨hr, hvr⟩ := digits_decimal r
  obtain ⟨hw, hvw⟩ := digits_decimal w
  obtain ⟨tail, htail, hstatus⟩ := fgets_statLine r w hlen
  generalize hd : (decimal w).take (18 - (decimal r).length) = d at hstatus
  have hall : d.all (isDigitOf 10) = true := by
    rw [List.all_eq_true] at hw ⊢
    exact fun c hc => hw c (List.mem_of_mem_take (hd ▸ hc))
  have hlength : d.length ≤ 18 := by
    rw [← hd, List.length_take]
    omega
  have hcons : ∀ n, ∃ c s, decimal n = c :: s := by
    intro n
    obtain ⟨c, s, hn, -⟩ := decimal_head n []
    exact ⟨c, s, (List.append_nil _).symm.trans hn⟩
  have hne : d ≠ [] := by
    obtain ⟨c, s, hcs⟩ := hcons w
    rw [← hd, hcs, show 18 - (decimal r).length = 17 - (decimal r).length + 1 by omega,
      List.take_succ_cons]
    exact List.cons_ne_nil _ _
  have hvd : digitsValue 10 d 0 = w / 10 ^ ((decimal r).length + (decimal w).length - 18) := by
    rw [← hd, digitsValue_take hw, hvw]
    congr 2
    omega
  have hzero : 0 ∉ decimal r ++ (32 :: (d ++ tail)) := by
    intro h
    have hout : ∀ s : List UInt8, s.all (isDigitOf 10) = true → 0 ∉ s := fun s hs hmem =>
      absurd (all_isDigit hs 0 hmem) (by decide)
    rcases htail with rfl | rfl <;> simp [hout _ hr, hout _ hall] at h
  have hner : decimal r ≠ [] := by
    obtain ⟨c, s, hcs⟩ := hcons r
    rw [hcs]
    exact List.cons_ne_nil c s
  have hltr : digitsValue 10 (decimal r) 0 < 18446744073709551616 := by
    rw [hvr]
    exact hstat.trans (by decide)
  have hlt : digitsValue 10 d 0 < 18446744073709551616 := by
    have hpow := Nat.pow_le_pow_right (by decide : 0 < 10) hlength
    have hvalue := (digitsValue_bounds hall 0).1
    omega
  have hstop : ∀ c ∈ tail.head?, isDigit c = false := by
    rcases htail with rfl | rfl
    · rintro c ⟨⟩
      decide
    · rintro c ⟨⟩
  have hscanr := scanUnsigned_digits (32 :: (d ++ tail)) (List.forall_mem_nil _) hner hr hltr
    (by rintro c ⟨⟩; decide)
  have hscanw := scanUnsigned_digits tail
    (List.forall_mem_singleton.mpr (by decide : isspace 32 = true)) hne hall hlt hstop
  rw [List.nil_append] at hscanr
  rw [List.singleton_append] at hscanw
  rw [hstatus, cstring_of_not_mem hzero, scan]
  simp only [hscanr, hscanw, hvr, hvd, seen]

end Numbers

section Shown

/-- The colour of LED `i` for new reads and new writes. -/
def colour (lit : Bool × Bool) (i : Nat) : List UInt8 :=
  if lit.1 ∧ i = 5 then [16, 0, 0]
  else if lit.2 ∧ i = 7 then [0, 0, 16]
  else [0, 0, 0]

/-- Wherever the driver does not send what the stack held, the text turns the LEDs to these colours:
always for the LEDs that it names, and for the others if the driver clears them. -/
def Shows (spared : Nat → UInt32) (buf : List UInt8) (lit : Bool × Bool) : Prop :=
  ∀ stack (usb : Nat → Int), (∀ i, 0 ≤ usb i) → ∀ i < nrLeds,
    i < 2 ∨ spared i &&& 0xffffff = 0 ∨ colour lit i ≠ [0, 0, 0] →
      (Message.blinkWrite spared stack buf true usb).2[i]? =
        some ([5, 0, UInt8.ofNat i] ++ colour lit i)

/-- Which of the two numbers has changed. -/
def fresh (prev cur : UInt32 × UInt32) : Bool × Bool :=
  (decide (cur.1 ≠ prev.1), decide (cur.2 ≠ prev.2))

/-- What the LEDs show in a turn, at whose end they are off. -/
def flash (lit : Bool × Bool) : List (Bool × Bool) :=
  if lit = (false, false) then [lit] else [lit, (false, false)]

/-- What the LEDs show from turn to turn. -/
def shown : UInt32 × UInt32 → List (UInt32 × UInt32) → List (Bool × Bool)
  | _, [] => []
  | prev, cur :: rest => flash (fresh prev cur) ++ shown cur rest

/-- The entry for LED 7 that `blink_user` writes. -/
def seven : LedEntry := ⟨⟨7, by decide⟩, bytes "000010", rfl, by decide⟩

variable {spared : Nat → UInt32} {buf : List UInt8} {entries : List LedEntry} {lit : Bool × Bool}

theorem shows_of_requests (h : Requests buf entries)
    (hcolour : ∀ i, requested entries i = colour lit i) : Shows spared buf lit := by
  intro stack usb husb i hi hcleared
  rw [messages_eq h stack husb, List.getElem?_map, List.getElem?_range hi, Option.map_some]
  congr 1
  rw [message, ← hcolour]
  congr 1
  by_cases hnamed : Named entries i
  · exact rgb_of_named hnamed _
  · obtain ⟨hblack, hkeeps⟩ := rgb_of_not_named hnamed (zeroFill spared stack.ledcolors)
    rw [hkeeps, hblack]
    apply (black_iff i).mpr
    intro htwo
    rcases hcleared with hlow | hspared | hcolour'
    · exact absurd hlow (not_lt.mpr htwo)
    · exact hspared
    · exact absurd ((hcolour i).symm.trans hblack) hcolour'

theorem shows_off : Shows spared [0] (false, false) := by
  have hrequests : Requests [0] [] := .inr ⟨rfl, rfl⟩
  apply shows_of_requests hrequests
  intro i
  simp [requested, colour]

theorem shows_red : Shows spared (bytes "5:0x100000" ++ [0]) (true, false) := by
  apply shows_of_requests requests_five
  intro i
  by_cases hi : i = 5
  · subst hi
    decide
  · simp [requested, colour, five, hi, Ne.symm hi]

theorem shows_blue : Shows spared (bytes "7:0x000010" ++ [0]) (false, true) := by
  have hrequests : Requests (bytes "7:0x000010" ++ [0]) [seven] :=
    .inl ⟨List.cons_ne_nil _ _, by decide, by decide, by decide⟩
  apply shows_of_requests hrequests
  intro i
  by_cases hi : i = 7
  · subst hi
    decide
  · simp [requested, colour, seven, hi, Ne.symm hi]

theorem shows_both : Shows spared (bytes "5:0x100000,7:0x000010" ++ [0]) (true, true) := by
  have hrequests : Requests (bytes "5:0x100000,7:0x000010" ++ [0]) [five, seven] :=
    .inl ⟨List.cons_ne_nil _ _, by decide, by decide, by decide⟩
  apply shows_of_requests hrequests
  intro i
  by_cases hfive : i = 5
  · subst hfive
    decide
  · by_cases hseven : i = 7
    · subst hseven
      decide
    · simp [requested, colour, five, seven, hfive, Ne.symm hfive, hseven, Ne.symm hseven]

/-- What a turn writes. -/
def texts : Bool × Bool → List (List UInt8)
  | (true, true) => [bytes "5:0x100000,7:0x000010" ++ [0], [0]]
  | (true, false) => [bytes "5:0x100000" ++ [0], [0]]
  | (false, true) => [bytes "7:0x000010" ++ [0], [0]]
  | (false, false) => [[0]]

theorem shows_texts (lit : Bool × Bool) :
    List.Forall₂ (Shows spared) (texts lit) (flash lit) := by
  have hoff : List.Forall₂ (Shows spared) [[0]] [(false, false)] := .cons shows_off .nil
  obtain ⟨reads, writes⟩ := lit
  cases reads with
  | true =>
    cases writes with
    | true => exact .cons shows_both hoff
    | false => exact .cons shows_red hoff
  | false =>
    cases writes with
    | true => exact .cons shows_blue hoff
    | false => exact hoff

/-- A turn writes what has changed, and remembers the numbers for the next one. -/
theorem turn_statLine {stat : Nat × Nat} (hstat : stat.1 < 10 ^ 17) (s : State) :
    ∃ u : State, turn s (statLine stat) =
      (u, texts (fresh (s.prevRead, s.prevWrite) (seen stat))) ∧
        (u.prevRead, u.prevWrite) = seen stat := by
  have hline : statLine stat ≠ [] := List.append_ne_nil_of_right_ne_nil _ (List.cons_ne_nil _ _)
  simp only [turn, if_neg hline, scan_statLine hstat, fresh]
  by_cases hr : (seen stat).1 = s.prevRead
  · by_cases hw : (seen stat).2 = s.prevWrite
    · simp only [hr, hw, ne_eq, not_true_eq_false, and_self, if_false, decide_false]
      exact ⟨_, rfl, by rw [← hr, ← hw]⟩
    · simp only [hr, hw, ne_eq, not_true_eq_false, not_false_eq_true, false_and, if_false, if_true,
        decide_false, decide_true]
      exact ⟨_, rfl, by rw [← hr]⟩
  · by_cases hw : (seen stat).2 = s.prevWrite
    · simp only [hr, hw, ne_eq, not_true_eq_false, not_false_eq_true, and_false, if_false, if_true,
        decide_false, decide_true]
      exact ⟨_, rfl, by rw [← hw]⟩
    · simp only [hr, hw, ne_eq, not_false_eq_true, and_self, if_true, decide_true]
      exact ⟨_, rfl, rfl⟩

/-- From turn to turn, LED 5 is red for new reads and LED 7 blue for new writes, as far as `status`
has room for the digits, and in between the LEDs are off. -/
theorem activity_shown (spared : Nat → UInt32) (status : List UInt8) (readIo writeIo : UInt32)
    (stats : List (Nat × Nat)) (hstats : ∀ stat ∈ stats, stat.1 < 10 ^ 17) :
    ∃ s writes, (machine status readIo writeIo).Run (stats.map statLine) s writes ∧
      List.Forall₂ (Shows spared) writes (shown (0, 0) (stats.map seen)) := by
  have hrun : ∀ s : State, ∃ u writes,
      (machine status readIo writeIo).exec s (stats.map statLine) = some (u, writes) ∧
        List.Forall₂ (Shows spared) writes
          (shown (s.prevRead, s.prevWrite) (stats.map seen)) := by
    induction stats with
    | nil => exact fun s => ⟨s, [], rfl, .nil⟩
    | cons stat stats ih =>
      intro s
      rw [List.forall_mem_cons] at hstats
      obtain ⟨t, hturn, hprev⟩ := turn_statLine hstats.1 s
      obtain ⟨u, writes, hexec, hwrites⟩ := ih hstats.2 t
      have hstep : (machine status readIo writeIo).step s (statLine stat) =
          some (t, texts (fresh (s.prevRead, s.prevWrite) (seen stat))) := congrArg some hturn
      refine ⟨u, texts (fresh (s.prevRead, s.prevWrite) (seen stat)) ++ writes, ?_, ?_⟩
      · rw [List.map_cons, Machine.exec_cons hstep, hexec]
        rfl
      · rw [hprev] at hwrites
        exact List.rel_append (shows_texts _) hwrites
  exact hrun _

/-- One read and one write, then a read, then nothing. -/
theorem activity_shown_read :
    ∃ s writes, (machine [] 0 0).Run ([(1, 1), (2, 1), (2, 1)].map statLine) s writes ∧
      List.Forall₂ (Shows fun _ => 0) writes
        [(true, true), (false, false), (true, false), (false, false), (false, false)] :=
  activity_shown (fun _ => 0) [] 0 0 [(1, 1), (2, 1), (2, 1)] (by decide)

end Shown

end LinuxInternals.Blinkdrv.User
