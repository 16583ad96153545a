import LinuxInternals.Blinkdrv.Colours

/-!
# Where `blink_write` stores

The stores of a write into `kbuf`, `message` and `ledcolors`. The first `memset` clears eight
times the bytes of `message`, so no write is safe. Apart from that, a write is safe exactly when
its text fits and the loop parses both numbers of every token that it comes to, with the key of
an LED.
-/

namespace LinuxInternals.Blinkdrv.Message

open Text

/-- A store into one of the arrays, at an index. -/
inductive Store where
  | kbuf (k : Nat)
  | message (k : Nat)
  | ledcolors (k : Nat)
deriving DecidableEq, Repr

def Store.inside : Store → Prop
  | .kbuf k => k < 80
  | .message k => k < nrBytesBlinkMsg
  | .ledcolors k => k < nrLeds

/-- `memset(message,0,NR_BYTES_BLINK_MSG * NR_LEDS)`. -/
def memsetMessage : List Store := (List.range (nrBytesBlinkMsg * nrLeds)).map .message

/-- The stores for the messages that are sent. -/
def sendStores (usb : Nat → Int) : List Store :=
  [.message 0, .message 1] ++
    (sendLoop (fun _ => 0) usb (List.range nrLeds)).1.flatMap fun _ =>
      [.message 2, .message 3, .message 4, .message 5]

/-- The stores behind the first `memset`. A copy that fails may have come to its end. -/
def storesAfter (stack : Stack) (buf : List UInt8) (copied : Bool) (usb : Nat → Int) :
    List Store :=
  (List.range nrLeds).map (fun k => .ledcolors (k / 4)) ++ (List.range buf.length).map .kbuf ++
    if !copied then []
    else
      .kbuf buf.length :: (parse stack buf).map (fun turn => .ledcolors turn.key.toNat) ++
        sendStores usb

def stores (stack : Stack) (buf : List UInt8) (copied : Bool) (usb : Nat → Int) : List Store :=
  memsetMessage ++ storesAfter stack buf copied usb

/-- The key and the value have been read from the token of the turn, and the key is an LED. -/
def Turn.Own (turn : Turn) : Prop :=
  sscanf turn.token "%u:%x" = [.uint turn.key, .uint turn.value] ∧ turn.key.toNat < nrLeds

/-- These stores are inside their arrays, and the turns that the loop makes assign what they have
read themselves. -/
def SafeWith (all : List Store) (stack : Stack) (buf : List UInt8) (copied : Bool) : Prop :=
  (∀ st ∈ all, st.inside) ∧ (copied = true → ∀ turn ∈ parse stack buf, turn.Own)

def Safe (stack : Stack) (buf : List UInt8) (copied : Bool) (usb : Nat → Int) : Prop :=
  SafeWith (stores stack buf copied usb) stack buf copied

/-- The tokens that the loop comes to, unless the text has one byte. -/
def tokens (buf : List UInt8) : List (List UInt8) := ((cstring buf).splitOn 44).take nrLeds

/-- The text fits, and every token that the loop comes to is an LED and a colour. -/
def WellFormed (buf : List UInt8) : Prop :=
  buf.length ≤ 79 ∧ (buf.length = 1 ∨ ∀ token ∈ tokens buf, ∃ key value,
    sscanf token "%u:%x" = [.uint key, .uint value] ∧ key.toNat < nrLeds)

section Tokens

theorem strsep_splitOn (s : List UInt8) :
    s.splitOn 44 = (strsep s).1 :: ((strsep s).2.map fun rest => rest.splitOn 44).getD [] := by
  by_cases h : 44 ∈ s
  · obtain ⟨token, rest, rfl, htoken⟩ := List.eq_append_cons_of_mem h
    rw [strsep_append htoken, List.splitOn_append_cons_self_of_not_mem htoken]
    rfl
  · rw [strsep_of_not_mem h, List.splitOn_eq_singleton h]
    rfl

theorem tokens_parseLoop (n : Nat) (s : List UInt8) (key value : UInt32) :
    (parseLoop n (some s) key value).map Turn.token = (s.splitOn 44).take n := by
  induction n generalizing s key value with
  | zero => rfl
  | succ n ih =>
    rw [parseLoop, strsep_splitOn, List.map_cons, List.take_succ_cons]
    cases (strsep s).2 with
    | none => cases n <;> rfl
    | some rest => rw [ih]; rfl

/-- A turn assigns what is left in `key` and `value` after its token. -/
theorem stored_of_mem {n : Nat} {kbufp : Option (List UInt8)} {key value : UInt32} {turn : Turn}
    (h : turn ∈ parseLoop n kbufp key value) :
    ∃ key₀ value₀, (turn.key, turn.value) = stored (sscanf turn.token "%u:%x") key₀ value₀ := by
  induction n generalizing kbufp key value with
  | zero => cases h
  | succ n ih =>
    cases kbufp with
    | none => cases h
    | some s =>
      rcases List.mem_cons.mp h with rfl | h
      · exact ⟨key, value, rfl⟩
      · exact ih h

end Tokens

section Main

variable {stack : Stack} {buf : List UInt8} {copied : Bool} {usb : Nat → Int}

/-- Every turn has its own key and value where every token is an LED and a colour. -/
theorem own_iff (stack : Stack) (buf : List UInt8) :
    (∀ turn ∈ parse stack buf, turn.Own) ↔ buf.length = 1 ∨ ∀ token ∈ tokens buf, ∃ key value,
      sscanf token "%u:%x" = [.uint key, .uint value] ∧ key.toNat < nrLeds := by
  by_cases hone : buf.length = 1
  · rw [parse, if_pos hone]
    exact iff_of_true (fun _ h => absurd h List.not_mem_nil) (.inl hone)
  have htokens : (parse stack buf).map Turn.token = tokens buf := by
    rw [parse, if_neg hone, tokens_parseLoop, cstring_append_zero, tokens]
  rw [← htokens]
  simp only [hone, false_or, List.forall_mem_map]
  apply forall₂_congr
  intro turn hturn
  constructor
  · rintro ⟨hscan, hkey⟩
    exact ⟨_, _, hscan, hkey⟩
  · rintro ⟨key, value, hscan, hkey⟩
    rw [parse, if_neg hone] at hturn
    obtain ⟨key₀, value₀, hstored⟩ := stored_of_mem hturn
    rw [hscan, stored, Prod.mk.injEq] at hstored
    obtain ⟨hkey', hvalue'⟩ := hstored
    rw [Turn.Own, hkey', hvalue']
    exact ⟨hscan, hkey⟩

theorem inside_memsetLedcolors :
    ∀ st ∈ (List.range nrLeds).map fun k => Store.ledcolors (k / 4), st.inside := by
  rw [List.forall_mem_map]
  intro k hk
  exact (Nat.div_le_self k 4).trans_lt (List.mem_range.mp hk)

theorem inside_copy_iff (n : Nat) :
    (∀ st ∈ (List.range n).map Store.kbuf, st.inside) ↔ n ≤ 80 := by
  simp only [List.forall_mem_map, List.mem_range, Store.inside]
  constructor
  · intro h
    by_contra hlt
    exact absurd (h 80 (not_le.mp hlt)) (lt_irrefl 80)
  · exact fun hle k hk => hk.trans_le hle

theorem inside_sendStores (usb : Nat → Int) : ∀ st ∈ sendStores usb, st.inside := by
  have hhead : ∀ st ∈ [Store.message 0, .message 1], st.inside := by
    simp [Store.inside, nrBytesBlinkMsg]
  have hrest : ∀ st ∈ [Store.message 2, .message 3, .message 4, .message 5], st.inside := by
    simp [Store.inside, nrBytesBlinkMsg]
  intro st hst
  rcases List.mem_append.mp hst with hst | hst
  · exact hhead st hst
  · obtain ⟨-, -, hst⟩ := List.mem_flatMap.mp hst
    exact hrest st hst

/-- Behind the first `memset`, a write is safe exactly when its text is well formed. -/
theorem safe_after_iff (stack : Stack) (buf : List UInt8) (copied : Bool) (usb : Nat → Int) :
    SafeWith (storesAfter stack buf copied usb) stack buf copied ↔
      if copied then WellFormed buf else buf.length ≤ 80 := by
  simp only [SafeWith, storesAfter, List.forall_mem_append, inside_copy_iff]
  cases copied with
  | false => simpa using fun _ => inside_memsetLedcolors
  | true =>
    simp only [Bool.not_true, Bool.false_eq_true, if_false, if_true, forall_const,
      List.forall_mem_append, List.forall_mem_cons, List.forall_mem_map, own_iff, WellFormed]
    constructor
    · rintro ⟨⟨-, ⟨hterminator, -⟩, -⟩, hown⟩
      exact ⟨Nat.le_of_lt_succ hterminator, hown⟩
    · rintro ⟨hlen, hown⟩
      have hkeys := (own_iff stack buf).mpr hown
      exact ⟨⟨⟨List.forall_mem_map.mp inside_memsetLedcolors, by omega⟩, ⟨Nat.lt_succ_of_le hlen,
        fun turn hturn => (hkeys turn hturn).2⟩, inside_sendStores usb⟩, hown⟩

theorem overruns_message (stack : Stack) (buf : List UInt8) (copied : Bool) (usb : Nat → Int) :
    Store.message 47 ∈ stores stack buf copied usb :=
  List.mem_append_left _ (List.mem_map_of_mem (List.mem_range.mpr (by decide)))

/-- No write is safe, for its first `memset`. Behind that, a write is safe exactly when its text
is well formed, and an entry for each LED is too long a text. -/
theorem write_never_safe (stack : Stack) (buf : List UInt8) (copied : Bool) (usb : Nat → Int) :
    ¬Safe stack buf copied usb ∧
      (SafeWith (storesAfter stack buf copied usb) stack buf copied ↔
        if copied then WellFormed buf else buf.length ≤ 80) ∧
      ∀ entries : List LedEntry, entries.length = nrLeds →
        79 < (joined entries).length := by
  refine ⟨fun h => ?_, safe_after_iff stack buf copied usb, fun entries hlen => ?_⟩
  · exact absurd (h.1 _ (overruns_message stack buf copied usb)) (show ¬47 < 6 by decide)
  · have hne : entries ≠ [] := by
      rintro rfl
      cases hlen
    have hlength := length_joined hne
    rw [hlen] at hlength
    have height : nrLeds = 8 := rfl
    omega

/-- A single entry for LED 8: both `message` and `ledcolors` are overrun. -/
theorem ledEight_not_safe :
    Store.message 47 ∈ stores ⟨fun _ => 0, 0, 0⟩ (bytes "8:0x100000") true (fun _ => 0) ∧
      Store.ledcolors 8 ∈ stores ⟨fun _ => 0, 0, 0⟩ (bytes "8:0x100000") true (fun _ => 0) ∧
      ¬Safe ⟨fun _ => 0, 0, 0⟩ (bytes "8:0x100000") true (fun _ => 0) := by
  have hmessage := overruns_message ⟨fun _ => 0, 0, 0⟩ (bytes "8:0x100000") true (fun _ => 0)
  refine ⟨hmessage, by decide +kernel, fun h => ?_⟩
  exact absurd (h.1 _ hmessage) (show ¬47 < 6 by decide)

end Main

end LinuxInternals.Blinkdrv.Message
