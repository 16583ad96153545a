import LinuxInternals.Lib.Refcount

/-!
# The driver `blinkdrv`

`blink_probe` makes a `struct usb_blink` for an interface of a device, `blink_disconnect` gives
it up, and files that are open on the device keep it. The USB core makes one of the two calls
for an interface at a time. It calls `blink_open` with `minor_rwsem` taken for reading, and
takes it for writing to enter a minor into `usb_minors` or take one out. `kref` counts without
bound here, and the references to the `usb_device` are left out.
-/

namespace LinuxInternals.Blinkdrv

open Lifetime

/-- `κ` are the interfaces, `δ` the devices that they belong to. -/
structure UsbBlink (κ δ : Type) where
  udev : δ
  interface : Option κ
  kref : Int

/-- What the call for an interface does next with the structure that it has in `dev`. -/
inductive Pc where
  | unbound
  | setIntfdata (dev : Nat)
  | registerDev (dev : Nat)
  | deviceCreate (dev : Nat)
  | registerFailed (dev : Nat)
  | bound
  | clearIntfdata (dev : Nat)
  | deregisterDev (dev : Nat)
  | clearMinor (dev : Nat)
  | clearInterface (dev : Nat)
  | krefPut (dev : Nat)
deriving DecidableEq

/-- `minor` is `-1` outside `usb_register_dev` and `usb_deregister_dev`. -/
structure UsbInterface where
  pc : Pc
  intfdata : Option Nat
  minor : Option Nat
deriving DecidableEq

/-- A call of `blink_write`: before `copy_from_user`, or at one of the LEDs. -/
inductive Write where
  | copy
  | send (i : Nat)
deriving DecidableEq

/-- What `blink_open` or `blink_release` does next, or the calls of `blink_write` of an open
file, with its `private_data`. -/
inductive File (κ : Type) where
  | closed
  | findInterface (subminor : Nat)
  | getIntfdata (interface : κ)
  | krefGet (dev : Nat)
  | setPrivateData (dev : Nat)
  | opened (dev : Nat) (writes : List Write)
  | krefPut (dev : Nat)
deriving DecidableEq

/-- Structures are numbered in the order of their allocation. -/
structure State (κ ι δ : Type) where
  blink : Nat → UsbBlink κ δ
  allocated : Nat → Bool
  made : Nat
  usbMinors : Nat → Bool
  interface : κ → UsbInterface
  file : ι → File κ

inductive Act (κ ι : Type) where
  /-- `memory` says whether `vmalloc` has some. -/
  | probe (c : κ) (memory : Bool)
  /-- The minor that `usb_register_dev` finds, if any. -/
  | register (c : κ) (minor : Option Nat)
  | create (c : κ) (ok : Bool)
  | disconnect (c : κ)
  | interface (c : κ)
  | open (i : ι) (subminor : Nat)
  /-- What `usb_find_interface` finds. -/
  | find (i : ι) (interface : Option κ)
  | file (i : ι)
  | write (i : ι)
  /-- The `k`th of the calls of `blink_write`. -/
  | writing (i : ι) (k : Nat) (ok : Bool)
  | release (i : ι)

def nrLeds : Nat := 8

section Step

variable {κ ι δ : Type}

/-- The file has `minor_rwsem` for reading. -/
def File.reading : File κ → Bool
  | .findInterface _ | .getIntfdata _ | .krefGet _ | .setPrivateData _ => true
  | .closed | .opened _ _ | .krefPut _ => false

namespace State

def reading [Fintype ι] (s : State κ ι δ) : Bool := decide (∃ i, (s.file i).reading = true)

def setInterface [DecidableEq κ] (s : State κ ι δ) (c : κ) (x : UsbInterface) : State κ ι δ :=
  { s with interface := Function.update s.interface c x }

@[simp] theorem setInterface_interface [DecidableEq κ] (s : State κ ι δ) (c : κ)
    (x : UsbInterface) : (s.setInterface c x).interface = Function.update s.interface c x := rfl

@[simp] theorem setInterface_file [DecidableEq κ] (s : State κ ι δ) (c : κ) (x : UsbInterface) :
    (s.setInterface c x).file = s.file := rfl

def setFile [DecidableEq ι] (s : State κ ι δ) (i : ι) (f : File κ) : State κ ι δ :=
  { s with file := Function.update s.file i f }

@[simp] theorem setFile_interface [DecidableEq ι] (s : State κ ι δ) (i : ι) (f : File κ) :
    (s.setFile i f).interface = s.interface := rfl

@[simp] theorem setFile_file [DecidableEq ι] (s : State κ ι δ) (i : ι) (f : File κ) :
    (s.setFile i f).file = Function.update s.file i f := rfl

def setBlink (s : State κ ι δ) (dev : Nat) (b : UsbBlink κ δ) : State κ ι δ :=
  { s with blink := Function.update s.blink dev b }

def clearMinor (s : State κ ι δ) (minor : Nat) : State κ ι δ :=
  { s with usbMinors := Function.update s.usbMinors minor false }

def vmalloc (s : State κ ι δ) (b : UsbBlink κ δ) : State κ ι δ :=
  { s.setBlink s.made b with
    allocated := Function.update s.allocated s.made true
    made := s.made + 1 }

def blinkDelete (s : State κ ι δ) (dev : Nat) : State κ ι δ :=
  { s with allocated := Function.update s.allocated dev false }

def krefGet (s : State κ ι δ) (dev : Nat) : State κ ι δ :=
  s.setBlink dev { s.blink dev with kref := (s.blink dev).kref + 1 }

/-- `kref_put` with `blink_delete`, which follows at once when the count gets to zero. -/
def krefPut (s : State κ ι δ) (dev : Nat) : State κ ι δ × List (Nat × Use) :=
  let s' := s.setBlink dev { s.blink dev with kref := (s.blink dev).kref - 1 }
  if (s.blink dev).kref - 1 = 0 then (s'.blinkDelete dev, [(dev, .touch), (dev, .free)])
  else (s', [(dev, .touch)])

@[simp] theorem krefPut_interface (s : State κ ι δ) (dev : Nat) :
    (s.krefPut dev).1.interface = s.interface := by
  unfold krefPut
  split <;> rfl

@[simp] theorem krefPut_file (s : State κ ι δ) (dev : Nat) :
    (s.krefPut dev).1.file = s.file := by
  unfold krefPut
  split <;> rfl

@[simp] theorem krefPut_made (s : State κ ι δ) (dev : Nat) :
    (s.krefPut dev).1.made = s.made := by
  unfold krefPut
  split <;> rfl

end State

variable [DecidableEq κ] [DecidableEq ι]

/-- The allocation and the initialisation, up to `usb_set_intfdata`. -/
def blinkProbe (interfaceToUsbdev : κ → δ) (s : State κ ι δ) (c : κ) (memory : Bool) :
    Option (State κ ι δ × List (Nat × Use)) :=
  match (s.interface c).pc with
  | .unbound =>
    if memory then
      some ((s.vmalloc ⟨interfaceToUsbdev c, some c, 1⟩).setInterface c
        { s.interface c with pc := .setIntfdata s.made }, [(s.made, .alloc)])
    else some (s, [])
  | _ => none

variable [Fintype ι]

def usbRegisterDev (s : State κ ι δ) (c : κ) (minor : Option Nat) :
    Option (State κ ι δ × List (Nat × Use)) :=
  match (s.interface c).pc with
  | .registerDev dev =>
    if s.reading then none
    else
      match minor with
      | none => some (s.setInterface c { s.interface c with pc := .registerFailed dev }, [])
      | some m =>
        if s.usbMinors m then none
        else
          some ({ s.setInterface c { s.interface c with pc := .deviceCreate dev, minor := some m }
            with usbMinors := Function.update s.usbMinors m true }, [])
  | _ => none

/-- The second half of `usb_register_dev`, where the minor is already in use. -/
def deviceCreate (s : State κ ι δ) (c : κ) (ok : Bool) :
    Option (State κ ι δ × List (Nat × Use)) :=
  match (s.interface c).pc, (s.interface c).minor with
  | .deviceCreate dev, some m =>
    if ok then some (s.setInterface c { s.interface c with pc := .bound }, [])
    else if s.reading then none
    else
      some ((s.clearMinor m).setInterface c
        { s.interface c with pc := .registerFailed dev, minor := none }, [])
  | _, _ => none

/-- `usb_get_intfdata`; without data `blink_disconnect` would go on with a null pointer. -/
def blinkDisconnect (s : State κ ι δ) (c : κ) : Option (State κ ι δ × List (Nat × Use)) :=
  match (s.interface c).pc, (s.interface c).intfdata with
  | .bound, some dev =>
    some (s.setInterface c { s.interface c with pc := .clearIntfdata dev }, [])
  | _, _ => none

/-- The next step of `blink_probe` or `blink_disconnect`. -/
def interfaceStep (s : State κ ι δ) (c : κ) : Option (State κ ι δ × List (Nat × Use)) :=
  let x := s.interface c
  match x.pc with
  | .setIntfdata dev =>
    some (s.setInterface c { x with pc := .registerDev dev, intfdata := some dev }, [])
  | .registerFailed dev =>
    some (s.setInterface c { x with pc := .krefPut dev, intfdata := none }, [])
  | .clearIntfdata dev =>
    some (s.setInterface c { x with pc := .deregisterDev dev, intfdata := none }, [])
  | .deregisterDev dev =>
    match x.minor with
    | none => some (s.setInterface c { x with pc := .clearInterface dev }, [])
    | some m =>
      if s.reading then none
      else some ((s.clearMinor m).setInterface c { x with pc := .clearMinor dev }, [])
  | .clearMinor dev =>
    some (s.setInterface c { x with pc := .clearInterface dev, minor := none }, [])
  | .clearInterface dev =>
    some ((s.setBlink dev { s.blink dev with interface := none }).setInterface c
      { x with pc := .krefPut dev }, [(dev, .touch)])
  | .krefPut dev =>
    let r := s.krefPut dev
    some (r.1.setInterface c { x with pc := .unbound }, r.2)
  | .unbound | .registerDev _ | .deviceCreate _ | .bound => none

/-- The minor numbers are looked up by the core before it calls `blink_open`. -/
def usbOpen (s : State κ ι δ) (i : ι) (subminor : Nat) : Option (State κ ι δ × List (Nat × Use)) :=
  match s.file i with
  | .closed =>
    if s.usbMinors subminor then some (s.setFile i (.findInterface subminor), [])
    else some (s, [])
  | _ => none

def usbFindInterface [Fintype κ] (s : State κ ι δ) (i : ι) (interface : Option κ) :
    Option (State κ ι δ × List (Nat × Use)) :=
  match s.file i, interface with
  | .findInterface subminor, some c =>
    if (s.interface c).minor = some subminor then some (s.setFile i (.getIntfdata c), [])
    else none
  | .findInterface subminor, none =>
    if ∀ c, (s.interface c).minor ≠ some subminor then some (s.setFile i .closed, []) else none
  | _, _ => none

/-- The next step of `blink_open` or `blink_release`. -/
def fileStep (s : State κ ι δ) (i : ι) : Option (State κ ι δ × List (Nat × Use)) :=
  match s.file i with
  | .getIntfdata c =>
    match (s.interface c).intfdata with
    | none => some (s.setFile i .closed, [])
    | some dev => some (s.setFile i (.krefGet dev), [])
  | .krefGet dev => some ((s.krefGet dev).setFile i (.setPrivateData dev), [(dev, .touch)])
  | .setPrivateData dev => some (s.setFile i (.opened dev []), [])
  | .krefPut dev =>
    let r := s.krefPut dev
    some (r.1.setFile i .closed, r.2)
  | .closed | .findInterface _ | .opened _ _ => none

/-- A step of the `k`th call of `blink_write`; each message takes `udev` from the structure. -/
def blinkWrite (s : State κ ι δ) (i : ι) (k : Nat) (ok : Bool) :
    Option (State κ ι δ × List (Nat × Use)) :=
  match s.file i with
  | .opened dev writes =>
    match writes[k]? with
    | none => none
    | some .copy =>
      let writes := if ok then writes.set k (.send 0) else writes.eraseIdx k
      some (s.setFile i (.opened dev writes), [])
    | some (.send l) =>
      let writes := if ok ∧ l + 1 < nrLeds then writes.set k (.send (l + 1)) else writes.eraseIdx k
      some (s.setFile i (.opened dev writes), [(dev, .touch)])
  | _ => none

/-- The core closes a file when no call is using it. -/
def blinkRelease (s : State κ ι δ) (i : ι) : Option (State κ ι δ × List (Nat × Use)) :=
  match s.file i with
  | .opened dev [] => some (s.setFile i (.krefPut dev), [])
  | _ => none

variable [Fintype κ]

def step (interfaceToUsbdev : κ → δ) (s : State κ ι δ) :
    Act κ ι → Option (State κ ι δ × List (Nat × Use))
  | .probe c memory => blinkProbe interfaceToUsbdev s c memory
  | .register c minor => usbRegisterDev s c minor
  | .create c ok => deviceCreate s c ok
  | .disconnect c => blinkDisconnect s c
  | .interface c => interfaceStep s c
  | .open i subminor => usbOpen s i subminor
  | .find i interface => usbFindInterface s i interface
  | .file i => fileStep s i
  | .write i =>
    match s.file i with
    | .opened dev writes => some (s.setFile i (.opened dev (writes ++ [.copy])), [])
    | _ => none
  | .writing i k ok => blinkWrite s i k ok
  | .release i => blinkRelease s i

/-- `blink` is what the memory held at first. -/
def machine (interfaceToUsbdev : κ → δ) (blink : Nat → UsbBlink κ δ) (ι : Type) [DecidableEq ι]
    [Fintype ι] : Machine (State κ ι δ) (Act κ ι) (Nat × Use) where
  init := ⟨blink, fun _ => false, 0, fun _ => false, fun _ => ⟨.unbound, none, none⟩,
    fun _ => .closed⟩
  step := step interfaceToUsbdev

end Step

end LinuxInternals.Blinkdrv
