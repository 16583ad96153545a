import LinuxInternals.Lib.Machine
import LinuxInternals.Lib.Scanning
import LinuxInternals.Modlist.Basic

/-!
# The LEDs of the keyboard

There are two ways to the LEDs. The system call `ledctl` of `Pr2/ParteB/modleds.c` is made by
`ledctl_invoke.c`, which has `strtoul` read its argument, and by `Pr2/Opcional1/leds_user.c`; and
`Pr2/ParteB/modleds.modulo.c` has the kernel's `sscanf` read what is written to its entry.
`argv` is without the name of the program, and no locale is set.
-/

namespace LinuxInternals.Modleds

open Text
open Modlist (Ret)

structure Lights where
  num : Bool
  caps : Bool
  scroll : Bool
deriving DecidableEq, Repr

/-- What `KDSETLED` lights: `LED_SCR` is 1, `LED_NUM` is 2 and `LED_CAP` is 4. -/
def kdsetled (state : UInt32) : Lights where
  num := state &&& 2 != 0
  caps := state &&& 4 != 0
  scroll := state &&& 1 != 0

def allLedsOn : UInt32 := 7

def allLedsOff : UInt32 := 0

/-- One round of the loop in `set_leds`, which stands in `modleds_write` as well. -/
def addLed (mask state : UInt32) (i : Nat) : UInt32 :=
  let currentLed := mask &&& (1 <<< UInt32.ofNat i)
  if currentLed ≠ 0 then
    if currentLed = 2 then state ||| 4
    else if currentLed = 4 then state ||| 2
    else state ||| currentLed
  else state

def setLeds (mask : UInt32) : UInt32 := (List.range 3).foldl (addLed mask) 0

def ledctl (leds : UInt32) : Lights := kdsetled (setLeds leds)

/-- `isspace` of the C library. -/
def isBlank (c : UInt8) : Bool := c == 32 || (9 ≤ c && c ≤ 13)

/-- The mark of the base counts if a digit follows. -/
def hexDigits : List UInt8 → List UInt8
  | 48 :: x :: s => if hexMark (x :: s) then s else 48 :: x :: s
  | s => s

/-- `strtoul(s, NULL, 16)` of the C library, with `ULONG_MAX` for what is out of range, whatever
its sign. -/
def strtoul (s : List UInt8) : UInt64 :=
  let s := s.dropWhile isBlank
  let digits := match s with
    | 45 :: t => t
    | 43 :: t => t
    | t => t
  let n := (parseInteger 16 (hexDigits digits) 0).1
  if 2 ^ 64 ≤ n then -1
  else if s.head? = some 45 then -UInt64.ofNat n
  else UInt64.ofNat n

/-- `main` of `ledctl_invoke.c`. -/
def ledctlInvoke (argv : List (List UInt8)) (lights : Lights) : Lights :=
  match argv with
  | [text] => ledctl (strtoul text).toUInt32
  | _ => lights

/-- The mask that `leds_user` sets in a turn of its loop. -/
def ledsUser (turn : Nat) : UInt32 :=
  match turn % 6 with
  | 0 => 0
  | 1 => 1
  | 2 => 3
  | 3 => 7
  | 4 => 6
  | _ => 4

/-- `unsigned int num = 0; sscanf(s, "%x", &num)`. -/
def scanHex (s : List UInt8) : UInt32 :=
  match sscanf s "%x" with
  | [.uint num] => num
  | _ => 0

/-- `mem` is what the memory from `modledsbuffer` on held before; it is not terminated. The file
pointer stays where it is. -/
def modledsWrite (mem : List UInt8) (off : Nat) (buf : List UInt8) (copied : Bool)
    (lights : Lights) : Lights × Ret :=
  if 0 < off then (lights, .done 0)
  else if 1023 < buf.length then (lights, .error .enospc)
  else if !copied then (lights, .error .efault)
  else
    let num := scanHex (cstring (buf ++ mem.drop buf.length))
    (kdsetled (setLeds num), .done buf.length)

structure State where
  loaded : Bool
  lights : Lights
deriving DecidableEq, Repr

inductive Act where
  | load
  | unload
  | write (mem : List UInt8) (off : Nat) (buf : List UInt8) (copied : Bool)
  | invoke (argv : List (List UInt8))
  | turn (n : Nat)
deriving DecidableEq, Repr

/-- `exit_modleds_module` leaves the entry behind, and nothing can be said of who uses it then. -/
def step (s : State) : Act → Option (State × List Lights)
  | .load =>
    if s.loaded then none else
      let lights := kdsetled allLedsOn
      some ({ loaded := true, lights }, [lights])
  | .unload =>
    if s.loaded then
      let lights := kdsetled allLedsOff
      some ({ loaded := false, lights }, [lights])
    else none
  | .write mem off buf copied =>
    if s.loaded then
      let lights := (modledsWrite mem off buf copied s.lights).1
      some ({ s with lights }, [lights])
    else none
  | .invoke argv =>
    let lights := ledctlInvoke argv s.lights
    some ({ s with lights }, [lights])
  | .turn n =>
    let lights := ledctl (ledsUser n)
    some ({ s with lights }, [lights])

/-- `before` is what the LEDs show in the beginning; an event is what they show after a step. -/
def machine (before : Lights) : Machine State Act Lights where
  init := { loaded := false, lights := before }
  step := step

end LinuxInternals.Modleds
