import LinuxInternals.Fifoproc.Basic
import LinuxInternals.Lib.SemMonitor.Invariant

/-!
# What the pieces of code do

One lemma for each function of the module: the ways in which it can end, with all that
later proofs need to know about them.
-/

namespace LinuxInternals.Fifoproc

open CData SemMonitor

variable {β ι : Type} {D : Device β}

theorem enter_cases {x : File} {c : Call} {copied : Bool} {f : Frame}
    (h : syscall D x c copied = some (.enter f)) :
    (∃ m, x = .closed ∧ c = .open m ∧ f = .open m) ∨
    (∃ m, x = .opened m ∧ c = .release ∧ f = .release m) ∨
    (∃ m len, x = .opened m ∧ c = .read len ∧ m.read = true ∧ len ≤ D.maxItems ∧
      len ≤ D.maxKbuf ∧ f = .read m len fun _ => 0) ∨
    (∃ m buff, x = .opened m ∧ c = .write buff ∧ copied = true ∧ m.write = true ∧
      buff.length ≤ D.maxItems ∧ buff.length ≤ D.maxKbuf ∧
      f = .write m buff.length (copyFromUser buff)) := by
  cases x with
  | closed =>
    cases c with
    | «open» m =>
      cases h
      exact .inl ⟨m, rfl, rfl, rfl⟩
    | release | read | write => cases h
  | opened m =>
    cases c with
    | «open» => cases h
    | release =>
      cases h
      exact .inr (.inl ⟨m, rfl, rfl, rfl⟩)
    | read len =>
      simp only [syscall, Option.ite_none_right_eq_some] at h
      obtain ⟨hread, h⟩ := h
      split at h
      · cases h
      · cases h
        exact .inr (.inr (.inl ⟨m, len, rfl, rfl, hread, by omega, by omega, rfl⟩))
    | write buff =>
      simp only [syscall, Option.ite_none_right_eq_some] at h
      obtain ⟨hwrite, h⟩ := h
      split at h
      · cases h
      · split at h
        · cases h
          exact .inr (.inr (.inr ⟨m, buff, rfl, rfl, ‹_›, hwrite, by omega, by omega, rfl⟩))
        · cases h

/-- A call that fails before it asks for `mtx` is a read or a write, and only reports. -/
theorem done_cases {x y : File} {c : Call} {copied : Bool} {es : List Event}
    (h : syscall D x c copied = some (.done y es)) :
    y = x ∧ ((∃ len, c = .read len ∧ (D.maxItems < len ∨ D.maxKbuf < len) ∧
        es = [.ret .read (.error .enospc) []]) ∨
      ∃ buff e, c = .write buff ∧ (D.maxItems < buff.length ∨ D.maxKbuf < buff.length ∨
        copied = false) ∧ es = [.ret .write (.error e) []]) := by
  cases x with
  | closed => cases c <;> cases h
  | opened m =>
    cases c with
    | «open» | release => cases h
    | read len =>
      simp only [syscall, Option.ite_none_right_eq_some] at h
      obtain ⟨-, h⟩ := h
      split at h
      · cases h
        exact ⟨rfl, .inl ⟨len, rfl, ‹_›, rfl⟩⟩
      · cases h
    | write buff =>
      simp only [syscall, Option.ite_none_right_eq_some] at h
      obtain ⟨-, h⟩ := h
      split at h
      · cases h
        exact ⟨rfl, .inr ⟨buff, .enospc, rfl, by tauto, rfl⟩⟩
      · split at h
        · cases h
        · cases h
          exact ⟨rfl, .inr ⟨buff, .efault, rfl, .inr (.inr (by simpa using ‹¬copied = true›)), rfl⟩⟩

theorem fifoprocRead_cases (m : FMode) (len : Nat) (kbuffer : Nat → UInt8) {pt : Point}
    (hpt : pt ≠ .signalled) (d : Data β) (nr : Role → Int) :
    (D.size d.cbuffer < len ∧ 0 < d.count .prod ∧ fifoprocRead D m len kbuffer pt d nr =
      { data := d, frame := .read m len kbuffer, next := .block .cons, effects := [] }) ∨
    (¬(D.size d.cbuffer < len ∧ 0 < d.count .prod) ∧
      d.count .prod = 0 ∧ D.isEmpty d.cbuffer = true ∧ fifoprocRead D m len kbuffer pt d nr =
      { data := d, frame := .read m len kbuffer, next := .unlock .eof, effects := [] }) ∨
    (¬(D.size d.cbuffer < len ∧ 0 < d.count .prod) ∧
      ¬(d.count .prod = 0 ∧ D.isEmpty d.cbuffer = true) ∧
      fifoprocRead D m len kbuffer pt d nr =
      { data := { d with cbuffer := (D.remove d.cbuffer kbuffer len).1 }
        frame := .read m len (D.remove d.cbuffer kbuffer len).2
        next := if 0 < nr .prod then .signal .prod else .unlock .ok
        effects := [.remove len] }) := by
  cases pt with
  | signalled => exact absurd rfl hpt
  | entered | relocked =>
    simp only [fifoprocRead]
    split
    · exact .inl ⟨‹_ ∧ _›.1, ‹_ ∧ _›.2, rfl⟩
    · split
      · exact .inr (.inl ⟨‹_›, ‹_ ∧ _›.1, ‹_ ∧ _›.2, rfl⟩)
      · exact .inr (.inr ⟨‹_›, ‹_›, rfl⟩)

theorem fifoprocWrite_cases (m : FMode) (len : Nat) (kbuffer : Nat → UInt8) {pt : Point}
    (hpt : pt ≠ .signalled) (d : Data β) (nr : Role → Int) :
    (D.gaps d.cbuffer < len ∧ 0 < d.count .cons ∧ fifoprocWrite D m len kbuffer pt d nr =
      { data := d, frame := .write m len kbuffer, next := .block .prod, effects := [] }) ∨
    (d.count .cons = 0 ∧ fifoprocWrite D m len kbuffer pt d nr =
      { data := d, frame := .write m len kbuffer, next := .unlock .epipe, effects := [] }) ∨
    (¬(D.gaps d.cbuffer < len ∧ 0 < d.count .cons) ∧ d.count .cons ≠ 0 ∧
      fifoprocWrite D m len kbuffer pt d nr =
      { data := { d with cbuffer := D.insert d.cbuffer kbuffer len }
        frame := .write m len kbuffer
        next := if 0 < nr .cons then .signal .cons else .unlock .ok
        effects := [.insert (CData.read kbuffer len)] }) := by
  cases pt with
  | signalled => exact absurd rfl hpt
  | entered | relocked =>
    simp only [fifoprocWrite]
    split
    · exact .inl ⟨‹_ ∧ _›.1, ‹_ ∧ _›.2, rfl⟩
    · split
      · exact .inr (.inl ⟨‹_›, rfl⟩)
      · exact .inr (.inr ⟨‹_›, ‹_›, rfl⟩)

theorem write_stage_ne_eof (m : FMode) (len : Nat) (kbuffer : Nat → UInt8) (pt : Point)
    (d : Data β) (nr : Role → Int) :
    (fifoprocWrite D m len kbuffer pt d nr).next.stage ≠ .unlock .eof := by
  rcases eq_or_ne pt .signalled with rfl | hpt
  · simp [fifoprocWrite, Next.stage]
  · rcases fifoprocWrite_cases (D := D) m len kbuffer hpt d nr with
      ⟨-, -, heq⟩ | ⟨-, heq⟩ | ⟨-, -, heq⟩
    · simp [heq, Next.stage]
    · simp [heq, Next.stage]
    · rw [heq]
      dsimp only
      split <;> simp [Next.stage]

theorem releaseTail_cases (m : FMode) (d : Data β) (es : List Event) :
    (d.count .cons = 0 ∧ d.count .prod = 0 ∧ releaseTail D m d es =
      { data := { d with cbuffer := D.clear d.cbuffer }
        frame := .release m
        next := .unlock .ok
        effects := es ++ [.clear] }) ∨
    (¬(d.count .cons = 0 ∧ d.count .prod = 0) ∧ releaseTail D m d es =
      { data := d, frame := .release m, next := .unlock .ok, effects := es }) := by
  unfold releaseTail
  split
  · exact .inl ⟨‹_ ∧ _›.1, ‹_ ∧ _›.2, rfl⟩
  · exact .inr ⟨‹_›, rfl⟩

structure Frame.Same (f g : Frame) : Prop where
  op : g.op = f.op
  mode : g.mode = f.mode
  len : g.len = f.len

theorem openLoop_unlock {m : FMode} {d : Data β} {es : List Event} {x : Exit}
    (h : (openLoop m d es).next.stage = .unlock x) : d.count m.role.other ≠ 0 := by
  intro hzero
  simp [openLoop, hzero, Next.stage] at h

theorem open_unlock {m : FMode} {pt : Point} {d : Data β} {nr : Role → Int} {x : Exit}
    (h : (fifoprocOpen m pt d nr).next.stage = .unlock x) :
    (fifoprocOpen m pt d nr).data.count m.role.other ≠ 0 := by
  cases pt with
  | entered =>
    simp only [fifoprocOpen] at h ⊢
    split at h
    · cases h
    · rw [if_neg ‹_›]
      exact openLoop_unlock h
  | signalled | relocked => exact openLoop_unlock h

/-- Only a read changes its local variables, and only the contents of `kbuffer`. -/
theorem body_frame_eq (f : Frame) (pt : Point) (d : Data β) (nr : Role → Int) :
    (body D f pt d nr).frame = f ∨ ∃ m len kbuffer kbuffer', f = .read m len kbuffer ∧
      (body D f pt d nr).frame = .read m len kbuffer' := by
  cases f with
  | «open» m =>
    left
    cases pt with
    | entered =>
      simp only [body, fifoprocOpen]
      split <;> rfl
    | signalled | relocked => rfl
  | release m =>
    have htail (d : Data β) (es : List Event) :
        (releaseTail D m d es).frame = .release m := by
      rcases releaseTail_cases (D := D) m d es with ⟨-, -, heq⟩ | ⟨-, heq⟩ <;> rw [heq]
    left
    cases pt with
    | entered =>
      simp only [body, fifoprocRelease]
      split
      · rfl
      · exact htail _ _
    | signalled | relocked => exact htail _ _
  | read m len kbuffer =>
    rcases eq_or_ne pt .signalled with rfl | hpt
    · exact .inl rfl
    · rw [body]
      rcases fifoprocRead_cases (D := D) m len kbuffer hpt d nr with
        ⟨-, -, heq⟩ | ⟨-, -, -, heq⟩ | ⟨-, -, heq⟩ <;>
      exact .inr ⟨m, len, kbuffer, _, rfl, congrArg Segment.frame heq⟩
  | write m len kbuffer =>
    rcases eq_or_ne pt .signalled with rfl | hpt
    · exact .inl rfl
    · rw [body]
      rcases fifoprocWrite_cases (D := D) m len kbuffer hpt d nr with
        ⟨-, -, heq⟩ | ⟨-, heq⟩ | ⟨-, -, heq⟩ <;>
      exact .inl (congrArg Segment.frame heq)

theorem body_frame (f : Frame) (pt : Point) (d : Data β) (nr : Role → Int) :
    f.Same (body D f pt d nr).frame := by
  rcases body_frame_eq (D := D) f pt d nr with heq | ⟨m, len, kbuffer, kbuffer', rfl, heq⟩
  · rw [heq]
    exact ⟨rfl, rfl, rfl⟩
  · rw [heq]
    exact ⟨rfl, rfl, rfl⟩

/-- The four ways to treat the buffer, the last two with what their call has tested. -/
theorem body_cbuffer (f : Frame) (pt : Point) (d : Data β) (nr : Role → Int) :
    (body D f pt d nr).data.cbuffer = d.cbuffer ∨
    (body D f pt d nr).data.cbuffer = D.clear d.cbuffer ∨
    (∃ m len kbuffer, f = .read m len kbuffer ∧
      ¬(D.size d.cbuffer < len ∧ 0 < d.count .prod) ∧
      ¬(d.count .prod = 0 ∧ D.isEmpty d.cbuffer = true) ∧
      (body D f pt d nr).data.cbuffer = (D.remove d.cbuffer kbuffer len).1) ∨
    ∃ m len kbuffer, f = .write m len kbuffer ∧
      ¬(D.gaps d.cbuffer < len ∧ 0 < d.count .cons) ∧ d.count .cons ≠ 0 ∧
      (body D f pt d nr).data.cbuffer = D.insert d.cbuffer kbuffer len := by
  cases f with
  | «open» m =>
    left
    cases pt with
    | entered =>
      simp only [body, fifoprocOpen]
      split <;> rfl
    | signalled | relocked => rfl
  | release m =>
    have htail (d : Data β) (es : List Event) :
        (releaseTail D m d es).data.cbuffer = d.cbuffer ∨
          (releaseTail D m d es).data.cbuffer = D.clear d.cbuffer := by
      rcases releaseTail_cases (D := D) m d es with ⟨-, -, heq⟩ | ⟨-, heq⟩
      · exact .inr (heq ▸ rfl)
      · exact .inl (heq ▸ rfl)
    rw [← or_assoc]
    left
    cases pt with
    | entered =>
      simp only [body, fifoprocRelease]
      split
      · exact .inl rfl
      · exact htail _ _
    | signalled | relocked => exact htail _ _
  | read m len kbuffer =>
    rcases eq_or_ne pt .signalled with rfl | hpt
    · exact .inl rfl
    · rw [body]
      rcases fifoprocRead_cases (D := D) m len kbuffer hpt d nr with
        ⟨-, -, heq⟩ | ⟨-, -, -, heq⟩ | ⟨hwait, heof, heq⟩
      · exact .inl (heq ▸ rfl)
      · exact .inl (heq ▸ rfl)
      · exact .inr (.inr (.inl ⟨m, len, kbuffer, rfl, hwait, heof, heq ▸ rfl⟩))
  | write m len kbuffer =>
    rcases eq_or_ne pt .signalled with rfl | hpt
    · exact .inl rfl
    · rw [body]
      rcases fifoprocWrite_cases (D := D) m len kbuffer hpt d nr with
        ⟨-, -, heq⟩ | ⟨-, heq⟩ | ⟨hwait, hcons, heq⟩
      · exact .inl (heq ▸ rfl)
      · exact .inl (heq ▸ rfl)
      · exact .inr (.inr (.inr ⟨m, len, kbuffer, rfl, hwait, hcons, heq ▸ rfl⟩))

theorem clear_cases {f : Frame} {pt : Point} {d : Data β} {nr : Role → Int}
    (h : Event.clear ∈ (body D f pt d nr).effects) :
    (∃ m, f = .release m) ∧ ∀ r, (body D f pt d nr).data.count r = 0 := by
  cases f with
  | «open» m =>
    exfalso
    cases pt with
    | entered =>
      simp only [body, fifoprocOpen] at h
      split at h <;> simp [openLoop] at h
    | signalled | relocked => simp [body, fifoprocOpen, openLoop] at h
  | release m =>
    have htail (d : Data β) (es : List Event) (hes : Event.clear ∉ es)
        (h : Event.clear ∈ (releaseTail D m d es).effects) (r : Role) :
        (releaseTail D m d es).data.count r = 0 := by
      rcases releaseTail_cases (D := D) m d es with ⟨hcons, hprod, heq⟩ | ⟨-, heq⟩
      · rw [heq]
        cases r with
        | prod => exact hprod
        | cons => exact hcons
      · rw [heq] at h
        exact absurd h hes
    refine ⟨⟨m, rfl⟩, ?_⟩
    cases pt with
    | entered =>
      simp only [body, fifoprocRelease] at h ⊢
      split at h
      · simp at h
      · rw [if_neg ‹_›]
        exact htail _ _ (by simp) h
    | signalled | relocked => exact htail _ _ (by simp) h
  | read m len kbuffer =>
    exfalso
    rcases eq_or_ne pt .signalled with rfl | hpt
    · simp [body, fifoprocRead] at h
    · rw [body] at h
      rcases fifoprocRead_cases (D := D) m len kbuffer hpt d nr with
        ⟨-, -, heq⟩ | ⟨-, -, -, heq⟩ | ⟨-, -, heq⟩ <;> simp [heq] at h
  | write m len kbuffer =>
    exfalso
    rcases eq_or_ne pt .signalled with rfl | hpt
    · simp [body, fifoprocWrite] at h
    · rw [body] at h
      rcases fifoprocWrite_cases (D := D) m len kbuffer hpt d nr with
        ⟨-, -, heq⟩ | ⟨-, heq⟩ | ⟨-, -, heq⟩ <;> simp [heq] at h

theorem frames_small (D : Device β) : (client D).Frames fun f => f.len ≤ D.maxItems where
  enter x c copied f h := by
    rcases enter_cases h with ⟨m, -, -, rfl⟩ | ⟨m, -, -, rfl⟩ |
      ⟨m, len, -, -, -, hlen, -, rfl⟩ | ⟨m, buff, -, -, -, -, hlen, -, rfl⟩
    · exact Nat.zero_le _
    · exact Nat.zero_le _
    · exact hlen
    · exact hlen
  keeps f pt d nr h := (body_frame f pt d nr).len.trans_le h

theorem keeps_device (hD : D.Lawful) :
    (client D).Keeps (fun f => f.len ≤ D.maxItems) fun d => hD.valid d.cbuffer where
  toFrames := frames_small D
  init := hD.create_valid
  code f pt d nr hlen h := by
    change hD.valid (body D f pt d nr).data.cbuffer
    rcases body_cbuffer (D := D) f pt d nr with
      heq | heq | ⟨m, len, kbuffer, rfl, -, -, heq⟩ | ⟨m, len, kbuffer, rfl, -, -, heq⟩
    · rw [heq]
      exact h
    · rw [heq]
      exact hD.clear_valid _ h
    · rw [heq]
      exact hD.remove_valid _ _ _ h hlen
    · rw [heq]
      exact hD.insert_valid _ _ _ h hlen

end LinuxInternals.Fifoproc
