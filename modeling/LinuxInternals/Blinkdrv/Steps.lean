import LinuxInternals.Blinkdrv.Basic

/-!
# The steps of `blinkdrv`

What a step can do, one constructor for each way on.
-/

namespace LinuxInternals.Blinkdrv

open Lifetime

variable {κ ι δ : Type} [DecidableEq κ] [DecidableEq ι]

inductive Moves [Fintype ι] (interfaceToUsbdev : κ → δ) (s : State κ ι δ) :
    Act κ ι → State κ ι δ → List (Nat × Use) → Prop where
  | fail {a} : Moves interfaceToUsbdev s a s []
  | vmalloc {c} : (s.interface c).pc = .unbound →
      Moves interfaceToUsbdev s (.probe c true)
        ((s.vmalloc ⟨interfaceToUsbdev c, some c, 1⟩).setInterface c
          { s.interface c with pc := .setIntfdata s.made }) [(s.made, .alloc)]
  | noMinor {c dev} : (s.interface c).pc = .registerDev dev → s.reading = false →
      Moves interfaceToUsbdev s (.register c none)
        (s.setInterface c { s.interface c with pc := .registerFailed dev }) []
  | takeMinor {c dev m} : (s.interface c).pc = .registerDev dev → s.reading = false →
      Moves interfaceToUsbdev s (.register c (some m))
        { s.setInterface c { s.interface c with pc := .deviceCreate dev, minor := some m }
          with usbMinors := Function.update s.usbMinors m true } []
  | create {c dev m} : (s.interface c).pc = .deviceCreate dev → (s.interface c).minor = some m →
      Moves interfaceToUsbdev s (.create c true)
        (s.setInterface c { s.interface c with pc := .bound }) []
  | createFailed {c dev m} : (s.interface c).pc = .deviceCreate dev → s.reading = false →
      Moves interfaceToUsbdev s (.create c false)
        ((s.clearMinor m).setInterface c
          { s.interface c with pc := .registerFailed dev, minor := none }) []
  | disconnect {c dev} : (s.interface c).pc = .bound → (s.interface c).intfdata = some dev →
      Moves interfaceToUsbdev s (.disconnect c)
        (s.setInterface c { s.interface c with pc := .clearIntfdata dev }) []
  | setIntfdata {c dev} : (s.interface c).pc = .setIntfdata dev →
      Moves interfaceToUsbdev s (.interface c)
        (s.setInterface c { s.interface c with pc := .registerDev dev, intfdata := some dev }) []
  | registerFailed {c dev} : (s.interface c).pc = .registerFailed dev →
      Moves interfaceToUsbdev s (.interface c)
        (s.setInterface c { s.interface c with pc := .krefPut dev, intfdata := none }) []
  | clearIntfdata {c dev} : (s.interface c).pc = .clearIntfdata dev →
      Moves interfaceToUsbdev s (.interface c)
        (s.setInterface c { s.interface c with pc := .deregisterDev dev, intfdata := none }) []
  | notRegistered {c dev} : (s.interface c).pc = .deregisterDev dev →
      (s.interface c).minor = none →
      Moves interfaceToUsbdev s (.interface c)
        (s.setInterface c { s.interface c with pc := .clearInterface dev }) []
  | deregisterDev {c dev m} : (s.interface c).pc = .deregisterDev dev → s.reading = false →
      Moves interfaceToUsbdev s (.interface c)
        ((s.clearMinor m).setInterface c { s.interface c with pc := .clearMinor dev }) []
  | clearMinor {c dev} : (s.interface c).pc = .clearMinor dev →
      Moves interfaceToUsbdev s (.interface c)
        (s.setInterface c { s.interface c with pc := .clearInterface dev, minor := none }) []
  | clearInterface {c dev} : (s.interface c).pc = .clearInterface dev →
      Moves interfaceToUsbdev s (.interface c)
        ((s.setBlink dev { s.blink dev with interface := none }).setInterface c
          { s.interface c with pc := .krefPut dev }) [(dev, .touch)]
  | putInterface {c dev} : (s.interface c).pc = .krefPut dev →
      Moves interfaceToUsbdev s (.interface c)
        ((s.krefPut dev).1.setInterface c { s.interface c with pc := .unbound }) (s.krefPut dev).2
  | open {i m} : s.file i = .closed →
      Moves interfaceToUsbdev s (.open i m) (s.setFile i (.findInterface m)) []
  | notFound {a i m} : s.file i = .findInterface m →
      Moves interfaceToUsbdev s a (s.setFile i .closed) []
  | findInterface {i m c} : s.file i = .findInterface m → (s.interface c).minor = some m →
      Moves interfaceToUsbdev s (.find i (some c)) (s.setFile i (.getIntfdata c)) []
  | noIntfdata {i c} : s.file i = .getIntfdata c →
      Moves interfaceToUsbdev s (.file i) (s.setFile i .closed) []
  | getIntfdata {i c dev} : s.file i = .getIntfdata c → (s.interface c).intfdata = some dev →
      Moves interfaceToUsbdev s (.file i) (s.setFile i (.krefGet dev)) []
  | krefGet {i dev} : s.file i = .krefGet dev →
      Moves interfaceToUsbdev s (.file i)
        ((s.krefGet dev).setFile i (.setPrivateData dev)) [(dev, .touch)]
  | setPrivateData {i dev} : s.file i = .setPrivateData dev →
      Moves interfaceToUsbdev s (.file i) (s.setFile i (.opened dev [])) []
  | write {a i dev writes writes'} : s.file i = .opened dev writes →
      Moves interfaceToUsbdev s a (s.setFile i (.opened dev writes')) []
  | message {a i dev writes writes'} : s.file i = .opened dev writes →
      Moves interfaceToUsbdev s a (s.setFile i (.opened dev writes')) [(dev, .touch)]
  | release {i dev} : s.file i = .opened dev [] →
      Moves interfaceToUsbdev s (.release i) (s.setFile i (.krefPut dev)) []
  | putFile {i dev} : s.file i = .krefPut dev →
      Moves interfaceToUsbdev s (.file i) ((s.krefPut dev).1.setFile i .closed) (s.krefPut dev).2

variable [Fintype ι] {interfaceToUsbdev : κ → δ} {s s' : State κ ι δ} {es : List (Nat × Use)}

theorem moves_of_interfaceStep {c : κ} (h : interfaceStep s c = some (s', es)) :
    Moves interfaceToUsbdev s (.interface c) s' es := by
  rw [interfaceStep] at h
  dsimp only at h
  cases hpc : (s.interface c).pc with
  | unbound | registerDev | deviceCreate | bound => simp [hpc] at h
  | setIntfdata dev =>
    simp only [hpc] at h
    cases h
    exact .setIntfdata hpc
  | registerFailed dev =>
    simp only [hpc] at h
    cases h
    exact .registerFailed hpc
  | clearIntfdata dev =>
    simp only [hpc] at h
    cases h
    exact .clearIntfdata hpc
  | deregisterDev dev =>
    simp only [hpc] at h
    split at h
    · cases h
      exact .notRegistered hpc ‹_›
    · obtain ⟨hreading, h⟩ := Option.ite_none_left_eq_some.mp h
      cases h
      exact .deregisterDev hpc (Bool.eq_false_iff.mpr hreading)
  | clearMinor dev =>
    simp only [hpc] at h
    cases h
    exact .clearMinor hpc
  | clearInterface dev =>
    simp only [hpc] at h
    cases h
    exact .clearInterface hpc
  | krefPut dev =>
    simp only [hpc] at h
    cases h
    exact .putInterface hpc

theorem moves_of_usbRegisterDev {c : κ} {minor : Option Nat}
    (h : usbRegisterDev s c minor = some (s', es)) :
    Moves interfaceToUsbdev s (.register c minor) s' es := by
  rw [usbRegisterDev] at h
  split at h
  · obtain ⟨hreading, h⟩ := Option.ite_none_left_eq_some.mp h
    cases minor with
    | none =>
      cases h
      exact .noMinor ‹_› (Bool.eq_false_iff.mpr hreading)
    | some m =>
      obtain ⟨-, h⟩ := Option.ite_none_left_eq_some.mp h
      cases h
      exact .takeMinor ‹_› (Bool.eq_false_iff.mpr hreading)
  · cases h

theorem moves_of_deviceCreate {c : κ} {ok : Bool} (h : deviceCreate s c ok = some (s', es)) :
    Moves interfaceToUsbdev s (.create c ok) s' es := by
  rw [deviceCreate] at h
  split at h
  · cases ok with
    | true =>
      cases h
      exact .create ‹_› ‹_›
    | false =>
      obtain ⟨hreading, h⟩ := Option.ite_none_left_eq_some.mp h
      cases h
      exact .createFailed ‹_› (Bool.eq_false_iff.mpr hreading)
  · cases h

theorem moves_of_fileStep {i : ι} (h : fileStep s i = some (s', es)) :
    Moves interfaceToUsbdev s (.file i) s' es := by
  rw [fileStep] at h
  cases hfile : s.file i with
  | closed | findInterface | opened => simp [hfile] at h
  | getIntfdata c =>
    simp only [hfile] at h
    cases hdev : (s.interface c).intfdata with
    | none =>
      simp only [hdev] at h
      cases h
      exact .noIntfdata hfile
    | some dev =>
      simp only [hdev] at h
      cases h
      exact .getIntfdata hfile hdev
  | krefGet dev =>
    simp only [hfile] at h
    cases h
    exact .krefGet hfile
  | setPrivateData dev =>
    simp only [hfile] at h
    cases h
    exact .setPrivateData hfile
  | krefPut dev =>
    simp only [hfile] at h
    cases h
    exact .putFile hfile

theorem moves_of_blinkWrite {i : ι} {k : Nat} {ok : Bool}
    (h : blinkWrite s i k ok = some (s', es)) :
    Moves interfaceToUsbdev s (.writing i k ok) s' es := by
  rw [blinkWrite] at h
  split at h
  · split at h
    · cases h
    · cases h
      exact .write ‹_›
    · cases h
      exact .message ‹_›
  · cases h

theorem moves_of_step [Fintype κ] {a : Act κ ι} (h : step interfaceToUsbdev s a = some (s', es)) :
    Moves interfaceToUsbdev s a s' es := by
  cases a with
  | probe c memory =>
    rw [step, blinkProbe] at h
    split at h
    · cases memory with
      | false =>
        cases h
        exact .fail
      | true =>
        cases h
        exact .vmalloc ‹_›
    · cases h
  | register c minor => exact moves_of_usbRegisterDev h
  | create c ok => exact moves_of_deviceCreate h
  | disconnect c =>
    rw [step, blinkDisconnect] at h
    split at h
    · cases h
      exact .disconnect ‹_› ‹_›
    · cases h
  | interface c => exact moves_of_interfaceStep h
  | «open» i m =>
    rw [step, usbOpen] at h
    split at h
    · split at h
      · cases h
        exact .open ‹_›
      · cases h
        exact .fail
    · cases h
  | find i interface =>
    rw [step] at h
    unfold usbFindInterface at h
    split at h
    · obtain ⟨hminor, h⟩ := Option.ite_none_right_eq_some.mp h
      cases h
      exact .findInterface ‹_› hminor
    · obtain ⟨-, h⟩ := Option.ite_none_right_eq_some.mp h
      cases h
      exact .notFound ‹_›
    · cases h
  | file i => exact moves_of_fileStep h
  | write i =>
    rw [step] at h
    split at h
    · cases h
      exact .write ‹_›
    · cases h
  | writing i k ok => exact moves_of_blinkWrite h
  | release i =>
    rw [step, blinkRelease] at h
    split at h
    · cases h
      exact .release ‹_›
    · cases h

end LinuxInternals.Blinkdrv
