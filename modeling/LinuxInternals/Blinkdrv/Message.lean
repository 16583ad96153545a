import LinuxInternals.Blinkdrv.Basic
import LinuxInternals.Lib.Text

/-!
# What `blink_write` sends

The text of a write to the device and the messages that it makes of it. `kbuf` has 80 bytes,
`message` six, and `ledcolors` eight numbers of four bytes each. The first `memset` runs 42 bytes
past `message`; what it does there to `ledcolors` depends on the layout of the stack.
-/

namespace LinuxInternals.Blinkdrv.Message

open Text

def nrBytesBlinkMsg : Nat := 6

/-- What the variables of `blink_write` hold before they are assigned. -/
structure Stack where
  ledcolors : Nat → UInt32
  key : UInt32
  value : UInt32

/-- The two calls of `memset`. The first leaves the bits `spared` of `ledcolors`, the second
clears `NR_LEDS` bytes. -/
def zeroFill (spared ledcolors : Nat → UInt32) : Nat → UInt32 := fun i =>
  if 4 * i < nrLeds then 0 else ledcolors i &&& spared i

/-- `strsep(&kbufp, ",")`. -/
def strsep (kbufp : List UInt8) : List UInt8 × Option (List UInt8) :=
  (kbufp.takeWhile (· != 44), (kbufp.dropWhile (· != 44)).tail?)

/-- What `sscanf(token, "%u:%x", &key, &value)` leaves in `key` and `value`. -/
def stored : List Arg → UInt32 → UInt32 → UInt32 × UInt32
  | [.uint key, .uint value], _, _ => (key, value)
  | [.uint key], _, value => (key, value)
  | _, key, value => (key, value)

/-- One turn of the loop, which ends with `ledcolors[key] = value`. -/
structure Turn where
  token : List UInt8
  key : UInt32
  value : UInt32

def parseLoop : Nat → Option (List UInt8) → UInt32 → UInt32 → List Turn
  | 0, _, _, _ => []
  | _ + 1, none, _, _ => []
  | n + 1, some kbufp, key, value =>
    let token := (strsep kbufp).1
    let r := stored (sscanf token "%u:%x") key value
    ⟨token, r.1, r.2⟩ :: parseLoop n (strsep kbufp).2 r.1 r.2

/-- The turns of the loop for the text in `kbuf`. -/
def parse (stack : Stack) (buf : List UInt8) : List Turn :=
  if buf.length = 1 then []
  else parseLoop nrLeds (some (cstring (buf ++ [0]))) stack.key stack.value

def assign (ledcolors : Nat → UInt32) (turn : Turn) : Nat → UInt32 :=
  Function.update ledcolors turn.key.toNat turn.value

def rgb (color : UInt32) : List UInt8 :=
  [(color >>> 16 &&& 0xff).toUInt8, (color >>> 8 &&& 0xff).toUInt8, (color &&& 0xff).toUInt8]

def message (ledcolors : Nat → UInt32) (i : Nat) : List UInt8 :=
  [5, 0, UInt8.ofNat i] ++ rgb (ledcolors i)

/-- The messages, and the error if a transfer fails; `usb` is what `usb_control_msg` returns. -/
def sendLoop (ledcolors : Nat → UInt32) (usb : Nat → Int) :
    List Nat → List (List UInt8) × Option Int
  | [] => ([], none)
  | i :: is =>
    if usb i < 0 then ([message ledcolors i], some (usb i))
    else
      let r := sendLoop ledcolors usb is
      (message ledcolors i :: r.1, r.2)

/-- The value of `blink_write` and the messages that it has sent. -/
def blinkWrite (spared : Nat → UInt32) (stack : Stack) (buf : List UInt8) (copied : Bool)
    (usb : Nat → Int) : Int × List (List UInt8) :=
  if !copied then (-14, [])
  else
    let ledcolors := (parse stack buf).foldl assign (zeroFill spared stack.ledcolors)
    let r := sendLoop ledcolors usb (List.range nrLeds)
    (r.2.getD buf.length, r.1)

theorem sendLoop_ok {ledcolors : Nat → UInt32} {usb : Nat → Int} (h : ∀ i, 0 ≤ usb i)
    (is : List Nat) : sendLoop ledcolors usb is = (is.map (message ledcolors), none) := by
  induction is with
  | nil => rfl
  | cons i is ih => rw [sendLoop, if_neg (not_lt.mpr (h i)), ih, List.map_cons]

end LinuxInternals.Blinkdrv.Message
