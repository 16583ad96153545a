import LinuxInternals.Blinkdrv.Steps
import Mathlib.Data.Fintype.Sum

/-!
# The life of a `struct usb_blink`

`kref` counts who has a reference: the interface up to the `kref_put` of `blink_disconnect` or
of the failed probe, and every file from the `kref_get` of `blink_open` to the `kref_put` of
`blink_release`. `blink_open` finds the structure in `intfdata` and has no reference yet. That
the interface still has one by then is due to `minor_rwsem`.
-/

namespace LinuxInternals.Blinkdrv

open Lifetime Refcount

variable {κ ι δ : Type}

/-- The structure that the interface has a reference to. -/
def UsbInterface.dev (x : UsbInterface) : Option Nat :=
  match x.pc with
  | .unbound => none
  | .bound => x.intfdata
  | .setIntfdata dev | .registerDev dev | .deviceCreate dev | .registerFailed dev
  | .clearIntfdata dev | .deregisterDev dev | .clearMinor dev | .clearInterface dev
  | .krefPut dev => some dev

def File.dev : File κ → Option Nat
  | .setPrivateData dev | .opened dev _ | .krefPut dev => some dev
  | .closed | .findInterface _ | .getIntfdata _ | .krefGet _ => none

/-- The way from here to the `kref_put` takes `minor_rwsem`. -/
def Pc.guarded : Pc → Bool
  | .registerDev _ | .deviceCreate _ | .bound | .clearIntfdata _ | .deregisterDev _ => true
  | .unbound | .setIntfdata _ | .registerFailed _ | .clearMinor _ | .clearInterface _
  | .krefPut _ => false

def UsbInterface.Coherent (x : UsbInterface) : Prop :=
  match x.pc with
  | .unbound | .setIntfdata _ | .clearInterface _ | .krefPut _ =>
    x.intfdata = none ∧ x.minor = none
  | .registerDev dev | .registerFailed dev => x.intfdata = some dev ∧ x.minor = none
  | .deviceCreate dev | .clearIntfdata dev => x.intfdata = some dev ∧ x.minor ≠ none
  | .bound => x.intfdata ≠ none ∧ x.minor ≠ none
  | .deregisterDev _ | .clearMinor _ => x.intfdata = none ∧ x.minor ≠ none

def State.ref (s : State κ ι δ) : κ ⊕ ι → Option Nat :=
  Sum.elim (fun c => (s.interface c).dev) fun i => (s.file i).dev

structure State.Coherent (s : State κ ι δ) : Prop where
  interface : ∀ c, (s.interface c).Coherent
  found : ∀ i c, s.file i = .getIntfdata c → ∀ dev, (s.interface c).pc ≠ .registerFailed dev
  got : ∀ i dev, s.file i = .krefGet dev →
    ∃ c, (s.interface c).dev = some dev ∧ (s.interface c).pc.guarded = true

section Coherent

variable {s : State κ ι δ} {c : κ} {i : ι} {x : UsbInterface} {f : File κ}

theorem reading_eq_false [Fintype ι] (h : s.reading = false) (i : ι) :
    (s.file i).reading = false := by
  rw [State.reading, decide_eq_false_iff_not, not_exists] at h
  exact Bool.eq_false_iff.mpr (h i)

/-- An interface gets a step further; where it leaves the guarded ones it has the lock. -/
theorem State.Coherent.setInterface [DecidableEq κ] [Fintype ι] (h : s.Coherent) (hx : x.Coherent)
    (hlock : s.reading = false ∨ (∀ dev, x.pc ≠ .registerFailed dev) ∧
      ((s.interface c).pc.guarded = true →
        x.dev = (s.interface c).dev ∧ x.pc.guarded = true)) :
    (s.setInterface c x).Coherent where
  interface := (Function.forall_update_iff s.interface fun _ y => y.Coherent).mpr
    ⟨hx, fun b _ => h.interface b⟩
  found i := by
    refine (Function.forall_update_iff s.interface fun b y =>
      s.file i = .getIntfdata b → ∀ dev, y.pc ≠ .registerFailed dev).mpr
      ⟨fun hi => ?_, fun b _ => h.found i b⟩
    cases hlock with
    | inl hreading =>
      have hfile := reading_eq_false hreading i
      rw [hi] at hfile
      cases hfile
    | inr hlock => exact hlock.1
  got i dev hi := by
    obtain ⟨b, hdev, hguarded⟩ := h.got i dev hi
    refine ⟨b, ?_⟩
    rw [State.setInterface_interface]
    by_cases hb : b = c
    · subst hb
      rw [Function.update_self]
      cases hlock with
      | inl hreading =>
        have hfile := reading_eq_false hreading i
        rw [show s.file i = .krefGet dev from hi] at hfile
        cases hfile
      | inr hlock => exact ⟨(hlock.2 hguarded).1.trans hdev, (hlock.2 hguarded).2⟩
    · rw [Function.update_of_ne hb]
      exact ⟨hdev, hguarded⟩

theorem State.Coherent.setFile [DecidableEq ι] (h : s.Coherent)
    (hfound : ∀ c, f = .getIntfdata c → ∀ dev, (s.interface c).pc ≠ .registerFailed dev)
    (hgot : ∀ dev, f = .krefGet dev →
      ∃ c, (s.interface c).dev = some dev ∧ (s.interface c).pc.guarded = true) :
    (s.setFile i f).Coherent where
  interface := h.interface
  found := (Function.forall_update_iff s.file fun _ g => ∀ c, g = .getIntfdata c →
    ∀ dev, (s.interface c).pc ≠ .registerFailed dev).mpr ⟨hfound, fun j _ => h.found j⟩
  got := (Function.forall_update_iff s.file fun _ g => ∀ dev, g = .krefGet dev →
    ∃ c, (s.interface c).dev = some dev ∧ (s.interface c).pc.guarded = true).mpr
      ⟨hgot, fun j _ => h.got j⟩

theorem UsbInterface.Coherent.not_registerFailed (h : x.Coherent) {m : Nat}
    (hminor : x.minor = some m) (dev : Nat) : x.pc ≠ .registerFailed dev := by
  intro hpc
  rw [UsbInterface.Coherent, hpc] at h
  rw [h.2] at hminor
  cases hminor

/-- Who finds a structure in `intfdata` can rely on the lock that it has. -/
theorem UsbInterface.Coherent.guarded (h : x.Coherent) {dev : Nat}
    (hdev : x.intfdata = some dev) (hpc : ∀ dev, x.pc ≠ .registerFailed dev) :
    x.dev = some dev ∧ x.pc.guarded = true := by
  rw [UsbInterface.Coherent, hdev] at h
  rw [UsbInterface.dev]
  cases hx : x.pc with
  | unbound | setIntfdata | clearInterface | krefPut | deregisterDev | clearMinor =>
    rw [hx] at h
    cases h.1
  | registerFailed dev' => exact absurd hx (hpc dev')
  | registerDev dev' | deviceCreate dev' | clearIntfdata dev' =>
    rw [hx] at h
    exact ⟨h.1.symm, rfl⟩
  | bound => exact ⟨hdev, rfl⟩

end Coherent

section Counted

variable [Fintype κ] [Fintype ι]

/-- Where somebody has a reference the structure is there, and its count is right. -/
def Counted (s : State κ ι δ) (ref : κ ⊕ ι → Option Nat) : Prop :=
  ∀ dev, (s.allocated dev = true ↔ 0 < holders ref dev) ∧
    (s.allocated dev = true → (s.blink dev).kref = holders ref dev)

variable [DecidableEq κ] [DecidableEq ι] {s : State κ ι δ} {ref : κ ⊕ ι → Option Nat}
  {p : κ ⊕ ι} {dev : Nat}

theorem Counted.vmalloc (h : Counted s ref) (hp : ref p = none) (hnew : ∀ q, ref q ≠ some s.made)
    {b : UsbBlink κ δ} (hb : b.kref = 1) :
    Counted (s.vmalloc b) (Function.update ref p (some s.made)) := by
  intro d
  rcases eq_or_ne d s.made with rfl | hd
  · have hone : holders (Function.update ref p (some s.made)) s.made = 1 := by
      rw [holders_get hp, holders_eq_zero hnew]
    simp [State.vmalloc, State.setBlink, hone, hb]
  · have hsame : holders (Function.update ref p (some s.made)) d = holders ref d :=
      holders_update_of_ne (by simp [hp]) (by simpa using hd.symm)
    simpa [State.vmalloc, State.setBlink, hd, hsame] using h d

theorem Counted.krefGet (h : Counted s ref) (hp : ref p = none) (hpos : 0 < holders ref dev) :
    Counted (s.krefGet dev) (Function.update ref p (some dev)) := by
  intro d
  rcases eq_or_ne d dev with rfl | hd
  · obtain ⟨hallocated, hkref⟩ := h d
    have hkref := hkref (hallocated.mpr hpos)
    simp [State.krefGet, State.setBlink, holders_get hp, hallocated.mpr hpos, hkref]
  · have hsame : holders (Function.update ref p (some dev)) d = holders ref d :=
      holders_update_of_ne (by simp [hp]) (by simpa using hd.symm)
    simpa [State.krefGet, State.setBlink, hd, hsame] using h d

theorem Counted.krefPut (h : Counted s ref) (hp : ref p = some dev) :
    Counted (s.krefPut dev).1 (Function.update ref p none) ∧
      (s.krefPut dev).2 = (dev, .touch) ::
        if holders (Function.update ref p none) dev = 0 then [(dev, .free)] else [] := by
  obtain ⟨hallocated, hkref⟩ := h dev
  have hput := holders_put hp
  have hkref := hkref (hallocated.mpr (holders_pos hp))
  have hlast : (s.blink dev).kref - 1 = 0 ↔ holders (Function.update ref p none) dev = 0 := by
    omega
  have hother {d : Nat} (hd : d ≠ dev) : holders (Function.update ref p none) d = holders ref d :=
    holders_update_of_ne (by rw [hp]; simpa using hd.symm) (by simp)
  rw [State.krefPut]
  by_cases hzero : (s.blink dev).kref - 1 = 0
  · rw [if_pos hzero, if_pos (hlast.mp hzero)]
    refine ⟨fun d => ?_, rfl⟩
    rcases eq_or_ne d dev with rfl | hd
    · simp [State.blinkDelete, hlast.mp hzero]
    · simpa [State.blinkDelete, State.setBlink, hd, hother hd] using h d
  · rw [if_neg hzero, if_neg fun hnone => hzero (hlast.mpr hnone)]
    refine ⟨fun d => ?_, rfl⟩
    rcases eq_or_ne d dev with rfl | hd
    · have hpos := Nat.pos_of_ne_zero fun hnone => hzero (hlast.mpr hnone)
      have hstays := hallocated.mpr (holders_pos hp)
      simp only [State.setBlink, Function.update_self, hstays, hpos, iff_self, true_and]
      omega
    · simpa [State.setBlink, hd, hother hd] using h d

end Counted

section Refinement

variable [DecidableEq κ] [DecidableEq ι]

theorem ref_setInterface (s : State κ ι δ) (c : κ) (x : UsbInterface) :
    (s.setInterface c x).ref = Function.update s.ref (.inl c) x.dev := by
  rw [State.ref, State.ref, Sum.update_elim_inl]
  exact congrArg (Sum.elim · _) (Function.comp_update UsbInterface.dev s.interface c x)

theorem ref_setFile (s : State κ ι δ) (i : ι) (f : File κ) :
    (s.setFile i f).ref = Function.update s.ref (.inr i) f.dev := by
  rw [State.ref, State.ref, Sum.update_elim_inr]
  exact congrArg (Sum.elim _) (Function.comp_update File.dev s.file i f)

variable [Fintype κ] [Fintype ι]

/-- The driver does to its structures what holders of counted references do. -/
structure Refines (s : State κ ι δ) (u : Refcount.State (κ ⊕ ι)) : Prop where
  coherent : s.Coherent
  valid : u.Valid
  made : u.made = s.made
  ref : u.ref = s.ref
  counted : Counted s s.ref
  /-- The reference that comes with the structure belongs to one interface. -/
  owner : ∀ b c dev, (s.interface b).dev = some dev → (s.interface c).dev = some dev → b = c

variable {s : State κ ι δ} {u : Refcount.State (κ ⊕ ι)} {c : κ} {i : ι} {x : UsbInterface}
  {f : File κ} {dev : Nat}

theorem Refines.setInterface {s' : State κ ι δ} {u' : Refcount.State (κ ⊕ ι)} (h : Refines s u)
    (hinterface : s'.interface = s.interface) (hfile : s'.file = s.file) (hx : x.Coherent)
    (hlock : s.reading = false ∨ (∀ dev, x.pc ≠ .registerFailed dev) ∧
      ((s.interface c).pc.guarded = true →
        x.dev = (s.interface c).dev ∧ x.pc.guarded = true))
    (hdev : ∀ dev, x.dev = some dev →
      (s.interface c).dev = some dev ∨ ∀ b, (s.interface b).dev ≠ some dev)
    (hvalid : u'.Valid) (hmade : u'.made = s'.made)
    (href : u'.ref = Function.update s.ref (.inl c) x.dev) (hcounted : Counted s' u'.ref) :
    Refines (s'.setInterface c x) u' := by
  have hsame : s'.ref = s.ref := by
    rw [State.ref, State.ref, hinterface, hfile]
  have href' : u'.ref = (s'.setInterface c x).ref := by
    rw [href, ref_setInterface, hsame]
  refine ⟨?_, hvalid, hmade, href', ?_, ?_⟩
  · have hcoherent := h.coherent.setInterface hx hlock
    refine ⟨?_, ?_, ?_⟩
    · rw [State.setInterface_interface, hinterface]
      exact hcoherent.interface
    · rw [State.setInterface_interface, State.setInterface_file, hinterface, hfile]
      exact hcoherent.found
    · rw [State.setInterface_interface, State.setInterface_file, hinterface, hfile]
      exact hcoherent.got
  · rw [← href']
    exact hcounted
  · have hc (d : κ) (dev : Nat) (hx : x.dev = some dev) (hd : (s.interface d).dev = some dev) :
        c = d := by
      cases hdev dev hx with
      | inl hold => exact h.owner c d dev hold hd
      | inr hnew => exact absurd hd (hnew d)
    rw [State.setInterface_interface, hinterface]
    refine (Function.forall_update_iff s.interface fun a y => ∀ b dev, y.dev = some dev →
      (Function.update s.interface c x b).dev = some dev → a = b).mpr ⟨?_, fun a _ => ?_⟩
    · exact (Function.forall_update_iff s.interface fun b y => ∀ dev, x.dev = some dev →
        y.dev = some dev → c = b).mpr ⟨fun _ _ _ => rfl, fun b _ => hc b⟩
    · exact (Function.forall_update_iff s.interface fun b y => ∀ dev,
        (s.interface a).dev = some dev → y.dev = some dev → a = b).mpr
        ⟨fun dev ha hx => (hc a dev hx ha).symm, fun b _ => h.owner a b⟩

/-- An interface goes on from `pc` with the reference that it has. -/
theorem Refines.stay {pc : Pc} (h : Refines s u) (hpc : (s.interface c).pc = pc)
    (hx : UsbInterface.Coherent ⟨pc, (s.interface c).intfdata, (s.interface c).minor⟩ →
      x.Coherent ∧ x.dev = UsbInterface.dev ⟨pc, (s.interface c).intfdata, (s.interface c).minor⟩)
    (hlock : s.reading = false ∨ (∀ dev, x.pc ≠ .registerFailed dev) ∧
      (pc.guarded = true → x.pc.guarded = true)) :
    Refines (s.setInterface c x) u := by
  subst hpc
  obtain ⟨hcoherent, hdev⟩ := hx (h.coherent.interface c)
  refine h.setInterface rfl rfl hcoherent ?_ ?_ h.valid h.made ?_ (h.ref ▸ h.counted)
  · exact hlock.imp_right fun hlock => ⟨hlock.1, fun hguarded => ⟨hdev, hlock.2 hguarded⟩⟩
  · exact fun dev hsome => .inl (hdev.symm.trans hsome)
  · rw [hdev, h.ref]
    exact (Function.update_eq_self (.inl c) s.ref).symm

theorem Refines.setFile {s' : State κ ι δ} {u' : Refcount.State (κ ⊕ ι)} (h : Refines s u)
    (hinterface : s'.interface = s.interface) (hfile : s'.file = s.file)
    (hfound : ∀ c, f = .getIntfdata c → ∀ dev, (s.interface c).pc ≠ .registerFailed dev)
    (hgot : ∀ dev, f = .krefGet dev →
      ∃ c, (s.interface c).dev = some dev ∧ (s.interface c).pc.guarded = true)
    (hvalid : u'.Valid) (hmade : u'.made = s'.made)
    (href : u'.ref = Function.update s.ref (.inr i) f.dev) (hcounted : Counted s' u'.ref) :
    Refines (s'.setFile i f) u' := by
  have hsame : s'.ref = s.ref := by
    rw [State.ref, State.ref, hinterface, hfile]
  have href' : u'.ref = (s'.setFile i f).ref := by
    rw [href, ref_setFile, hsame]
  refine ⟨?_, hvalid, hmade, href', ?_, ?_⟩
  · have hcoherent := h.coherent.setFile (i := i) hfound hgot
    refine ⟨?_, ?_, ?_⟩
    · rw [State.setFile_interface, hinterface]
      exact hcoherent.interface
    · rw [State.setFile_interface, State.setFile_file, hinterface, hfile]
      exact hcoherent.found
    · rw [State.setFile_interface, State.setFile_file, hinterface, hfile]
      exact hcoherent.got
  · rw [← href']
    exact hcounted
  · rw [State.setFile_interface, hinterface]
    exact h.owner

theorem Refines.stay_file {f' : File κ} (h : Refines s u) (hfile : s.file i = f')
    (hdev : f.dev = f'.dev)
    (hfound : ∀ c, f = .getIntfdata c → ∀ dev, (s.interface c).pc ≠ .registerFailed dev)
    (hgot : ∀ dev, f = .krefGet dev →
      ∃ c, (s.interface c).dev = some dev ∧ (s.interface c).pc.guarded = true) :
    Refines (s.setFile i f) u := by
  subst hfile
  refine h.setFile rfl rfl hfound hgot h.valid h.made ?_ (h.ref ▸ h.counted)
  rw [hdev, h.ref]
  exact (Function.update_eq_self (.inr i) s.ref).symm

section

omit [DecidableEq κ] [DecidableEq ι]

theorem Refines.setMinors (h : Refines s u) (usbMinors : Nat → Bool) :
    Refines { s with usbMinors := usbMinors } u :=
  ⟨⟨h.coherent.interface, h.coherent.found, h.coherent.got⟩, h.valid, h.made, h.ref, h.counted,
    h.owner⟩

theorem Refines.setBlink (h : Refines s u) {b : UsbBlink κ δ}
    (hb : b.kref = (s.blink dev).kref) : Refines (s.setBlink dev b) u := by
  refine ⟨⟨h.coherent.interface, h.coherent.found, h.coherent.got⟩, h.valid, h.made, h.ref, ?_,
    h.owner⟩
  change Counted (s.setBlink dev b) s.ref
  intro d
  rcases eq_or_ne d dev with rfl | hd
  · simpa [State.setBlink, hb] using h.counted d
  · simpa [State.setBlink, hd] using h.counted d

theorem Refines.eq (h : Refines s u) : u = ⟨s.made, s.ref⟩ := by
  obtain ⟨made, ref⟩ := u
  rw [← h.made, ← h.ref]

end

theorem Refines.put_interface (h : Refines s u) (hpc : (s.interface c).pc = .krefPut dev) :
    ∃ bs u', (Refcount.machine (κ ⊕ ι)).exec u bs = some (u', (s.krefPut dev).2) ∧
      Refines ((s.krefPut dev).1.setInterface c { s.interface c with pc := .unbound }) u' := by
  obtain rfl := h.eq
  have hdev : s.ref (.inl c) = some dev := by
    rw [State.ref, Sum.elim_inl, UsbInterface.dev, hpc]
  have hcoherent := h.coherent.interface c
  rw [UsbInterface.Coherent, hpc] at hcoherent
  obtain ⟨hcounted, hevents⟩ := h.counted.krefPut hdev
  have hput : Refcount.step ⟨s.made, s.ref⟩ (.put (.inl c)) =
      some (⟨s.made, Function.update s.ref (.inl c) none⟩, (s.krefPut dev).2) := by
    rw [step_put hdev, hevents]
  refine ⟨_, _, exec_of_step hput, ?_⟩
  refine h.setInterface (s.krefPut_interface dev) (s.krefPut_file dev) hcoherent (.inr ⟨?_, ?_⟩)
    ?_ (valid_step h.valid hput) (s.krefPut_made dev).symm rfl hcounted
  · exact fun d heq => by cases heq
  · rw [hpc]
    exact fun hguarded => by cases hguarded
  · exact fun d heq => by cases heq

theorem Refines.put_file (h : Refines s u) (hfile : s.file i = .krefPut dev) :
    ∃ bs u', (Refcount.machine (κ ⊕ ι)).exec u bs = some (u', (s.krefPut dev).2) ∧
      Refines ((s.krefPut dev).1.setFile i .closed) u' := by
  obtain rfl := h.eq
  have hdev : s.ref (.inr i) = some dev := by
    rw [State.ref, Sum.elim_inr, hfile, File.dev]
  obtain ⟨hcounted, hevents⟩ := h.counted.krefPut hdev
  have hput : Refcount.step ⟨s.made, s.ref⟩ (.put (.inr i)) =
      some (⟨s.made, Function.update s.ref (.inr i) none⟩, (s.krefPut dev).2) := by
    rw [step_put hdev, hevents]
  refine ⟨_, _, exec_of_step hput, ?_⟩
  refine h.setFile (s.krefPut_interface dev) (s.krefPut_file dev) ?_ ?_
    (valid_step h.valid hput) (s.krefPut_made dev).symm rfl hcounted
  · exact fun c heq => by cases heq
  · exact fun d heq => by cases heq

/-- `kref_get` finds the reference of the interface that the structure was found at. -/
theorem Refines.get_file (h : Refines s u) (hfile : s.file i = .krefGet dev) :
    ∃ bs u', (Refcount.machine (κ ⊕ ι)).exec u bs = some (u', [(dev, .touch)]) ∧
      Refines ((s.krefGet dev).setFile i (.setPrivateData dev)) u' := by
  obtain rfl := h.eq
  have hnone : s.ref (.inr i) = none := by
    rw [State.ref, Sum.elim_inr, hfile, File.dev]
  obtain ⟨c, hc, -⟩ := h.coherent.got i dev hfile
  have href : s.ref (.inl c) = some dev := hc
  have hpos : 0 < holders s.ref dev := holders_pos href
  have hget : Refcount.step ⟨s.made, s.ref⟩ (.get (.inr i) dev) =
      some (⟨s.made, Function.update s.ref (.inr i) (some dev)⟩, [(dev, .touch)]) := by
    rw [Refcount.step, if_pos ⟨hnone, hpos⟩]
  refine ⟨_, _, exec_of_step hget, ?_⟩
  refine h.setFile rfl rfl ?_ ?_ (valid_step h.valid hget) rfl rfl
    (h.counted.krefGet hnone hpos)
  · exact fun c heq => by cases heq
  · exact fun d heq => by cases heq

theorem Refines.make (h : Refines s u) (hpc : (s.interface c).pc = .unbound)
    {b : UsbBlink κ δ} (hb : b.kref = 1) :
    ∃ bs u', (Refcount.machine (κ ⊕ ι)).exec u bs = some (u', [(s.made, .alloc)]) ∧
      Refines ((s.vmalloc b).setInterface c { s.interface c with pc := .setIntfdata s.made })
        u' := by
  obtain rfl := h.eq
  have hnone : s.ref (.inl c) = none := by
    rw [State.ref, Sum.elim_inl, UsbInterface.dev, hpc]
  have hcoherent := h.coherent.interface c
  rw [UsbInterface.Coherent, hpc] at hcoherent
  have hnew (q : κ ⊕ ι) : s.ref q ≠ some s.made :=
    fun hq => absurd (h.valid q s.made hq) (lt_irrefl _)
  have hmake : Refcount.step ⟨s.made, s.ref⟩ (.make (.inl c)) =
      some (⟨s.made + 1, Function.update s.ref (.inl c) (some s.made)⟩, [(s.made, .alloc)]) := by
    rw [Refcount.step, if_pos hnone]
  refine ⟨_, _, exec_of_step hmake, ?_⟩
  refine h.setInterface rfl rfl hcoherent (.inr ⟨?_, ?_⟩) ?_ (valid_step h.valid hmake) rfl rfl
    (h.counted.vmalloc hnone hnew hb)
  · exact fun d heq => by cases heq
  · rw [hpc]
    exact fun hguarded => by cases hguarded
  · rintro d ⟨⟩
    exact .inr fun b => hnew (.inl b)

theorem Refines.touch (h : Refines s u) {p : κ ⊕ ι} (hp : s.ref p = some dev) :
    (Refcount.machine (κ ⊕ ι)).exec u [.touch p] = some (u, [(dev, .touch)]) :=
  exec_of_step (step_touch (by rw [h.ref, hp]))

/-- Every step of the driver is a step of the holders, or none. -/
theorem Refines.step {interfaceToUsbdev : κ → δ} {s' : State κ ι δ} {a : Act κ ι}
    {es : List (Nat × Use)} (h : Refines s u) (hmoves : Moves interfaceToUsbdev s a s' es) :
    ∃ bs u', (Refcount.machine (κ ⊕ ι)).exec u bs = some (u', es) ∧ Refines s' u' := by
  cases hmoves with
  | fail => exact ⟨[], u, rfl, h⟩
  | vmalloc hpc => exact h.make hpc rfl
  | noMinor hpc hreading =>
    exact ⟨[], u, rfl, h.stay hpc (fun hc => ⟨hc, rfl⟩) (.inl hreading)⟩
  | takeMinor hpc hreading =>
    refine ⟨[], u, rfl, Refines.setMinors (h.stay hpc ?_ (.inl hreading)) _⟩
    exact fun hc => ⟨⟨hc.1, Option.some_ne_none _⟩, rfl⟩
  | create hpc hminor =>
    refine ⟨[], u, rfl, h.stay hpc ?_ (.inr ⟨by simp, fun _ => rfl⟩)⟩
    exact fun hc => ⟨⟨by rw [hc.1]; exact Option.some_ne_none _, hc.2⟩, hc.1⟩
  | createFailed hpc hreading =>
    refine ⟨[], u, rfl, (h.setMinors _).stay hpc ?_ (.inl hreading)⟩
    exact fun hc => ⟨⟨hc.1, rfl⟩, rfl⟩
  | disconnect hpc hdata =>
    refine ⟨[], u, rfl, h.stay hpc ?_ (.inr ⟨by simp, fun _ => rfl⟩)⟩
    exact fun hc => ⟨⟨hdata, hc.2⟩, hdata.symm⟩
  | setIntfdata hpc =>
    refine ⟨[], u, rfl, h.stay hpc ?_ (.inr ⟨by simp, fun _ => rfl⟩)⟩
    exact fun hc => ⟨⟨rfl, hc.2⟩, rfl⟩
  | registerFailed hpc =>
    refine ⟨[], u, rfl, h.stay hpc ?_ (.inr ⟨by simp, fun hguarded => by cases hguarded⟩)⟩
    exact fun hc => ⟨⟨rfl, hc.2⟩, rfl⟩
  | clearIntfdata hpc =>
    refine ⟨[], u, rfl, h.stay hpc ?_ (.inr ⟨by simp, fun _ => rfl⟩)⟩
    exact fun hc => ⟨⟨rfl, hc.2⟩, rfl⟩
  | @notRegistered c dev hpc hminor =>
    have hc := h.coherent.interface c
    rw [UsbInterface.Coherent, hpc] at hc
    exact absurd hminor hc.2
  | deregisterDev hpc hreading =>
    refine ⟨[], u, rfl, (h.setMinors _).stay hpc ?_ (.inl hreading)⟩
    exact fun hc => ⟨hc, rfl⟩
  | clearMinor hpc =>
    refine ⟨[], u, rfl, h.stay hpc ?_ (.inr ⟨by simp, fun hguarded => by cases hguarded⟩)⟩
    exact fun hc => ⟨⟨hc.1, rfl⟩, rfl⟩
  | @clearInterface c dev hpc =>
    have hdev : s.ref (.inl c) = some dev := by
      rw [State.ref, Sum.elim_inl, UsbInterface.dev, hpc]
    have hset : Refines (s.setBlink dev { s.blink dev with interface := none }) u :=
      h.setBlink rfl
    refine ⟨_, u, h.touch hdev, hset.stay hpc (fun hc => ⟨hc, rfl⟩) ?_⟩
    exact .inr ⟨by simp, fun hguarded => by cases hguarded⟩
  | putInterface hpc => exact h.put_interface hpc
  | «open» hfile => exact ⟨[], u, rfl, h.stay_file hfile rfl (by simp) (by simp)⟩
  | notFound hfile => exact ⟨[], u, rfl, h.stay_file hfile rfl (by simp) (by simp)⟩
  | @findInterface i m c hfile hminor =>
    refine ⟨[], u, rfl, h.stay_file hfile rfl ?_ (by simp)⟩
    rintro b ⟨⟩
    exact (h.coherent.interface c).not_registerFailed hminor
  | noIntfdata hfile => exact ⟨[], u, rfl, h.stay_file hfile rfl (by simp) (by simp)⟩
  | @getIntfdata i c dev hfile hdata =>
    refine ⟨[], u, rfl, h.stay_file hfile rfl (by simp) ?_⟩
    rintro dev ⟨⟩
    exact ⟨c, (h.coherent.interface c).guarded hdata (h.coherent.found i c hfile)⟩
  | krefGet hfile => exact h.get_file hfile
  | setPrivateData hfile => exact ⟨[], u, rfl, h.stay_file hfile rfl (by simp) (by simp)⟩
  | write hfile => exact ⟨[], u, rfl, h.stay_file hfile rfl (by simp) (by simp)⟩
  | @message _ i dev _ _ hfile =>
    have hdev : s.ref (.inr i) = some dev := by
      rw [State.ref, Sum.elim_inr, hfile, File.dev]
    exact ⟨_, u, h.touch hdev, h.stay_file hfile rfl (by simp) (by simp)⟩
  | release hfile => exact ⟨[], u, rfl, h.stay_file hfile rfl (by simp) (by simp)⟩
  | putFile hfile => exact h.put_file hfile

theorem refines_init (interfaceToUsbdev : κ → δ) (blink : Nat → UsbBlink κ δ) :
    Refines (machine interfaceToUsbdev blink ι).init (Refcount.machine (κ ⊕ ι)).init where
  coherent := ⟨fun _ => ⟨rfl, rfl⟩, fun _ _ hi => absurd hi (by simp [machine]),
    fun _ _ hi => absurd hi (by simp [machine])⟩
  valid := fun _ _ hp => by cases hp
  made := rfl
  ref := by
    funext p
    cases p <;> rfl
  counted := by
    intro dev
    refine ⟨iff_of_false Bool.false_ne_true ?_, fun h => absurd h Bool.false_ne_true⟩
    rw [holders_eq_zero]
    · exact lt_irrefl 0
    · intro p
      cases p <;> exact (Option.some_ne_none dev).symm
  owner := fun _ _ _ hb => by cases hb

end Refinement

variable [Fintype κ] [Fintype ι]

/-- Neither `blink_disconnect` nor a failed probe has put the reference that comes with the
structure. -/
def State.Connected (s : State κ ι δ) (dev : Nat) : Prop := ∃ c, (s.interface c).dev = some dev

instance (s : State κ ι δ) (dev : Nat) : Decidable (s.Connected dev) :=
  inferInstanceAs (Decidable (∃ _, _))

def State.filesOpen (s : State κ ι δ) (dev : Nat) : Nat :=
  headcount (fun f => f.dev == some dev) s.file

/-- What the life of a structure should be, at a state and the trace up to it. -/
structure State.LifetimeOk (s : State κ ι δ) (tr : List (Nat × Use)) : Prop where
  kref : ∀ dev, (dev, .alloc) ∈ tr → (dev, .free) ∉ tr →
    (s.blink dev).kref = ((if s.Connected dev then 1 else 0) + s.filesOpen dev : Nat)
  deleted : ∀ dev, tr.count (dev, .free) =
    if (dev, .alloc) ∈ tr ∧ ¬s.Connected dev ∧ s.filesOpen dev = 0 then 1 else 0
  untouched : ∀ dev pre post, tr = pre ++ (dev, .free) :: post → ∀ e ∈ post, e.1 ≠ dev
  intfdata : ∀ c, (s.interface c).pc = .bound → (s.interface c).intfdata ≠ none

variable {s : State κ ι δ}

theorem holders_ref {u : Refcount.State (κ ⊕ ι)} (h : Refines s u) (dev : Nat) :
    holders s.ref dev = (if s.Connected dev then 1 else 0) + s.filesOpen dev := by
  have howners : headcount (· == some dev) (fun c => (s.interface c).dev) =
      if s.Connected dev then 1 else 0 := by
    split
    · obtain ⟨c, hc⟩ := ‹s.Connected dev›
      refine le_antisymm (headcount_le_one fun b c hb hc => ?_) (headcount_pos c (by simp [hc]))
      exact h.owner b c dev (by simpa using hb) (by simpa using hc)
    · apply headcount_eq_zero_iff.mpr
      intro c
      exact beq_false_of_ne fun hc => ‹¬s.Connected dev› ⟨c, hc⟩
  rw [holders, State.ref, headcount_sum, howners]
  rfl

/-- The structure is deleted once, when the interface and every file have put their references,
and nobody uses it afterwards. -/
theorem lifetime_ok [DecidableEq κ] [DecidableEq ι] {interfaceToUsbdev : κ → δ}
    {blink : Nat → UsbBlink κ δ} {as : List (Act κ ι)} {tr : List (Nat × Use)}
    (hrun : (machine interfaceToUsbdev blink ι).Run as s tr) : s.LifetimeOk tr := by
  obtain ⟨bs, u, hu, h⟩ : ∃ bs u, (Refcount.machine (κ ⊕ ι)).Run bs u (tr.map id) ∧
      Refines s u := by
    refine hrun.simulated (C := fun _ _ => True) (refines_init interfaceToUsbdev blink) ?_
      (Machine.along_true _ _)
    intro s u a s' es _ h _ hstep
    rw [List.map_id]
    exact h.step (moves_of_step hstep)
  rw [List.map_id] at hu
  have halloc (dev : Nat) : (dev, .alloc) ∈ tr ↔ dev < u.made := alloc_mem_iff hu dev
  have hfree (dev : Nat) := count_free_of_run hu dev
  refine ⟨?_, ?_, fun _ _ _ heq => ne_of_freed (pairwise_of_run hu) heq, ?_⟩
  · intro dev hmade halive
    have hpos : 0 < holders s.ref dev := by
      have hzero := hfree dev
      rw [List.count_eq_zero_of_not_mem halive, h.ref] at hzero
      by_contra hnone
      rw [if_pos ⟨(halloc dev).mp hmade, by omega⟩] at hzero
      cases hzero
    obtain ⟨hallocated, hkref⟩ := h.counted dev
    rw [hkref (hallocated.mpr hpos), holders_ref h]
  · intro dev
    rw [hfree, h.ref, holders_ref h]
    refine if_congr (and_congr (halloc dev).symm ?_) rfl rfl
    split
    · exact iff_of_false (by omega) fun hnot => hnot.1 ‹_›
    · rw [Nat.zero_add]
      exact (and_iff_right ‹_›).symm
  · intro c hpc
    have hc := h.coherent.interface c
    rw [UsbInterface.Coherent, hpc] at hc
    exact hc.1

/-- A stick is unplugged while a file is writing to it. -/
def unplugged : List (Act Unit Bool) :=
  [.probe () true, .interface (), .register () (some 0), .create () true, .open false 0,
    .find false (some ()), .file false, .file false, .file false, .write false,
    .writing false 0 true, .disconnect (), .interface (), .interface (), .interface (),
    .interface (), .interface (), .writing false 0 false, .release false, .file false]

theorem lifetime_ok_unplugged :
    ∃ s tr, (machine id (fun _ => ⟨(), none, 0⟩) Bool).Run unplugged s tr ∧
      (0, .free) ∈ tr ∧ s.LifetimeOk tr := by
  have heval : ((machine id (fun _ => ⟨(), none, 0⟩) Bool).exec
      (machine id (fun _ => ⟨(), none, 0⟩) Bool).init unplugged).map
        (fun r => decide ((0, .free) ∈ r.2)) = some true := by
    decide +kernel
  obtain ⟨s, tr, hrun, hs⟩ := Machine.exists_run_of_eval heval
  exact ⟨s, tr, hrun, of_decide_eq_true hs, lifetime_ok hrun⟩

end LinuxInternals.Blinkdrv
