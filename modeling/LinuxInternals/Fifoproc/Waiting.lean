import LinuxInternals.Fifoproc.Counts
import LinuxInternals.Lib.SemMonitor.Wakeups

/-!
# Waiting in `fifoproc`

The loop conditions of the four wait loops, and who is left waiting. Each change that can
end somebody's loop condition posts one unit to the queue of that process, but a queue is
shared by processes with different conditions, and the unit may go to the wrong one.
-/

namespace LinuxInternals.Fifoproc

open SemMonitor Client

variable {β ι : Type} {D : Device β}

/-- The conditions of the four `while` loops. -/
def Frame.waits (D : Device β) : Frame → Data β → Bool
  | .open m, d => d.count m.role.other = 0
  | .release _, _ => false
  | .read _ len _, d => D.size d.cbuffer < len ∧ 0 < d.count .prod
  | .write _ len _, d => D.gaps d.cbuffer < len ∧ 0 < d.count .cons

/-- `sem_cons` or `sem_prod`. -/
def Frame.queue : Frame → Role
  | .open m | .release m => m.role
  | .read _ _ _ => .cons
  | .write _ _ _ => .prod

theorem next_block_of_open {m : FMode} {pt : Point} {d : Data β} {nr : Role → Int} {q : Role}
    (h : (fifoprocOpen m pt d nr).next = .block q) :
    q = m.role ∧ (fifoprocOpen m pt d nr).frame = .open m ∧
      (fifoprocOpen m pt d nr).data.count m.role.other = 0 := by
  have hloop (d : Data β) (es : List Event) (h : (openLoop m d es).next = .block q) :
      q = m.role ∧ (openLoop m d es).frame = .open m ∧
        (openLoop m d es).data.count m.role.other = 0 := by
    unfold openLoop at h ⊢
    dsimp only at h ⊢
    split at h
    · cases h
      exact ⟨rfl, rfl, ‹_›⟩
    · cases h
  cases pt with
  | entered =>
    simp only [fifoprocOpen] at h ⊢
    split at h
    · cases h
    · rw [if_neg ‹_›]
      exact hloop _ _ h
  | signalled | relocked => exact hloop _ _ h

theorem next_ne_block_of_release {m : FMode} {pt : Point} {d : Data β} {nr : Role → Int}
    {q : Role} : (fifoprocRelease D m pt d nr).next ≠ .block q := by
  have htail (d : Data β) (es : List Event) : (releaseTail D m d es).next ≠ .block q := by
    rcases releaseTail_cases (D := D) m d es with ⟨-, -, heq⟩ | ⟨-, heq⟩ <;> simp [heq]
  cases pt with
  | entered =>
    simp only [fifoprocRelease]
    split
    · simp
    · exact htail _ _
  | signalled | relocked => exact htail _ _

theorem waits_of_block {f : Frame} {pt : Point} {d : Data β} {nr : Role → Int} {q : Role}
    (h : (body D f pt d nr).next = .block q) :
    (body D f pt d nr).frame.queue = q ∧
      (body D f pt d nr).frame.waits D (body D f pt d nr).data = true := by
  cases f with
  | «open» m =>
    obtain ⟨rfl, hframe, hcount⟩ := next_block_of_open h
    rw [body, hframe]
    exact ⟨rfl, decide_eq_true hcount⟩
  | release m => exact absurd h next_ne_block_of_release
  | read m len kbuffer =>
    rcases eq_or_ne pt .signalled with rfl | hpt
    · cases h
    · rw [body] at h ⊢
      rcases fifoprocRead_cases (D := D) m len kbuffer hpt d nr with
        ⟨hsize, hprod, heq⟩ | ⟨-, -, -, heq⟩ | ⟨-, -, heq⟩
      · rw [heq] at h ⊢
        cases h
        exact ⟨rfl, decide_eq_true ⟨hsize, hprod⟩⟩
      · rw [heq] at h
        cases h
      · rw [heq] at h
        dsimp only at h
        split at h <;> cases h
  | write m len kbuffer =>
    rcases eq_or_ne pt .signalled with rfl | hpt
    · cases h
    · rw [body] at h ⊢
      rcases fifoprocWrite_cases (D := D) m len kbuffer hpt d nr with
        ⟨hgaps, hcons, heq⟩ | ⟨-, heq⟩ | ⟨-, -, heq⟩
      · rw [heq] at h ⊢
        cases h
        exact ⟨rfl, decide_eq_true ⟨hgaps, hcons⟩⟩
      · rw [heq] at h
        cases h
      · rw [heq] at h
        dsimp only at h
        split at h <;> cases h

/-- What it takes to end a loop condition: the counter of the other role changes, or the
buffer gives a reader more bytes or a writer more room. -/
theorem waits_ended {w : Frame} {d d' : Data β} (hbefore : w.waits D d = true)
    (hafter : w.waits D d' = false) :
    (∃ r, w.queue = r.other ∧ d'.count r ≠ d.count r) ∨
    (w.queue = .cons ∧ D.size d.cbuffer < D.size d'.cbuffer) ∨
    (w.queue = .prod ∧ 0 < d.count .cons ∧ D.gaps d.cbuffer < D.gaps d'.cbuffer) := by
  cases w with
  | «open» m =>
    simp only [Frame.waits, decide_eq_true_eq, decide_eq_false_iff_not] at hbefore hafter
    refine .inl ⟨m.role.other, (Role.other_other _).symm, ?_⟩
    rwa [hbefore]
  | release => cases hbefore
  | read m len kbuffer =>
    simp only [Frame.waits, decide_eq_true_eq, decide_eq_false_iff_not] at hbefore hafter
    by_cases hprod : d'.count .prod = d.count .prod
    · exact .inr (.inl ⟨rfl, by omega⟩)
    · exact .inl ⟨.prod, rfl, hprod⟩
  | write m len kbuffer =>
    simp only [Frame.waits, decide_eq_true_eq, decide_eq_false_iff_not] at hbefore hafter
    by_cases hcons : d'.count .cons = d.count .cons
    · exact .inr (.inr ⟨rfl, hbefore.2, by omega⟩)
    · exact .inl ⟨.cons, rfl, hcons⟩

theorem eq_of_add_count {d : Data β} {r r' : Role} {k : Int}
    (h : (d.add r' k).count r ≠ d.count r) : r = r' := by
  by_contra hne
  rw [Data.add_count, if_neg (Ne.symm hne)] at h
  omega

section Buffer

variable (hD : D.Lawful) {b b' : β} (h : hD.valid b) (h' : hD.valid b')
include h h'

theorem size_le_of_length_le (hle : (hD.contents b').length ≤ (hD.contents b).length) :
    D.size b' ≤ D.size b := by
  rw [hD.size_eq b h, hD.size_eq b' h']
  exact hle

theorem gaps_le_of_length_le (hle : (hD.contents b').length ≤ (hD.contents b).length) :
    D.gaps b ≤ D.gaps b' := by
  rw [hD.gaps_eq b h, hD.gaps_eq b' h']
  omega

end Buffer

theorem posts_open {m : FMode} {pt : Point} {d : Data β} {nr : Role → Int} {w : Frame}
    (hbefore : w.waits D d = true)
    (hafter : w.waits D (fifoprocOpen m pt d nr).data = false) :
    (fifoprocOpen m pt d nr).next = .signal w.queue ∨ nr w.queue ≤ 0 := by
  cases pt with
  | signalled | relocked => exact absurd (hbefore.symm.trans hafter) (by decide)
  | entered =>
    have hdata : (fifoprocOpen m .entered d nr).data = d.add m.role 1 := by
      simp only [fifoprocOpen]
      split <;> rfl
    rw [hdata] at hafter
    have hqueue : w.queue = m.role.other := by
      rcases waits_ended hbefore hafter with ⟨r, hqueue, hr⟩ | ⟨-, hsize⟩ | ⟨-, -, hgaps⟩
      · rw [hqueue, eq_of_add_count hr]
      · exact absurd hsize (lt_irrefl _)
      · exact absurd hgaps (lt_irrefl _)
    rw [hqueue]
    simp only [fifoprocOpen]
    split
    · exact .inl rfl
    · exact .inr (by omega)

/-- Clearing the buffer can only end the wait of a writer, and then there were readers. -/
theorem waits_ended_of_tail (hD : D.Lawful) {m : FMode} {d : Data β} (d₁ : Data β)
    {es : List Event} {w : Frame} (hvalid : hD.valid d.cbuffer) (hbuffer : d₁.cbuffer = d.cbuffer)
    (hbefore : w.waits D d = true) (hafter : w.waits D (releaseTail D m d₁ es).data = false) :
    ∃ r, w.queue = r.other ∧ d₁.count r ≠ d.count r := by
  rcases waits_ended hbefore hafter with ⟨r, hqueue, hr⟩ | ⟨hqueue, hsize⟩ |
    ⟨hqueue, hcons, hgaps⟩
  · rw [releaseTail_count] at hr
    exact ⟨r, hqueue, hr⟩
  · rcases releaseTail_cases (D := D) m d₁ es with ⟨-, -, heq⟩ | ⟨-, heq⟩
    · rw [heq, hbuffer] at hsize
      have hle := size_le_of_length_le hD hvalid (hD.clear_valid _ hvalid)
        (by simp [hD.clear_contents _ hvalid])
      exact absurd hsize hle.not_gt
    · rw [heq, hbuffer] at hsize
      exact absurd hsize (lt_irrefl _)
  · rcases releaseTail_cases (D := D) m d₁ es with ⟨hzero, -, heq⟩ | ⟨-, heq⟩
    · exact ⟨.cons, hqueue, by omega⟩
    · rw [heq, hbuffer] at hgaps
      exact absurd hgaps (lt_irrefl _)

theorem posts_release (hD : D.Lawful) {m : FMode} {pt : Point} {d : Data β} {nr : Role → Int}
    {w : Frame} (hvalid : hD.valid d.cbuffer) (hbefore : w.waits D d = true)
    (hafter : w.waits D (fifoprocRelease D m pt d nr).data = false) :
    (fifoprocRelease D m pt d nr).next = .signal w.queue ∨ nr w.queue ≤ 0 := by
  cases pt with
  | signalled | relocked =>
    obtain ⟨r, -, hr⟩ := waits_ended_of_tail hD d hvalid rfl hbefore hafter
    exact absurd rfl hr
  | entered =>
    simp only [fifoprocRelease] at hafter ⊢
    split at hafter
    · rw [if_pos ‹_›]
      rcases waits_ended hbefore hafter with ⟨r, hqueue, hr⟩ | ⟨-, hsize⟩ | ⟨-, -, hgaps⟩
      · rw [hqueue, eq_of_add_count hr]
        exact .inl rfl
      · exact absurd hsize (lt_irrefl _)
      · exact absurd hgaps (lt_irrefl _)
    · obtain ⟨r, hqueue, hr⟩ :=
        waits_ended_of_tail hD (d.add m.role (-1)) hvalid rfl hbefore hafter
      rw [hqueue, eq_of_add_count hr]
      exact .inr (by omega)

theorem posts_read (hD : D.Lawful) {m : FMode} {len : Nat} {kbuffer : Nat → UInt8} {pt : Point}
    {d : Data β} {nr : Role → Int} {w : Frame} (hlen : len ≤ D.maxItems)
    (hvalid : hD.valid d.cbuffer) (hbefore : w.waits D d = true)
    (hafter : w.waits D (fifoprocRead D m len kbuffer pt d nr).data = false) :
    (fifoprocRead D m len kbuffer pt d nr).next = .signal w.queue ∨ nr w.queue ≤ 0 := by
  rcases eq_or_ne pt .signalled with rfl | hpt
  · exact absurd (hbefore.symm.trans hafter) (by decide)
  · rcases fifoprocRead_cases (D := D) m len kbuffer hpt d nr with
      ⟨-, -, heq⟩ | ⟨-, -, -, heq⟩ | ⟨-, -, heq⟩
    · rw [heq] at hafter
      exact absurd (hbefore.symm.trans hafter) (by decide)
    · rw [heq] at hafter
      exact absurd (hbefore.symm.trans hafter) (by decide)
    · rw [heq] at hafter ⊢
      rcases waits_ended hbefore hafter with ⟨r, -, hr⟩ | ⟨-, hsize⟩ | ⟨hqueue, -, -⟩
      · exact absurd rfl hr
      · have hle := size_le_of_length_le hD hvalid (hD.remove_valid _ kbuffer _ hvalid hlen)
          (hD.remove_le _ kbuffer _ hvalid hlen)
        exact absurd hsize hle.not_gt
      · rw [hqueue]
        dsimp only
        split
        · exact .inl rfl
        · exact .inr (by omega)

theorem posts_write (hD : D.Lawful) {m : FMode} {len : Nat} {kbuffer : Nat → UInt8} {pt : Point}
    {d : Data β} {nr : Role → Int} {w : Frame} (hlen : len ≤ D.maxItems)
    (hvalid : hD.valid d.cbuffer) (hbefore : w.waits D d = true)
    (hafter : w.waits D (fifoprocWrite D m len kbuffer pt d nr).data = false) :
    (fifoprocWrite D m len kbuffer pt d nr).next = .signal w.queue ∨ nr w.queue ≤ 0 := by
  rcases eq_or_ne pt .signalled with rfl | hpt
  · exact absurd (hbefore.symm.trans hafter) (by decide)
  · rcases fifoprocWrite_cases (D := D) m len kbuffer hpt d nr with
      ⟨-, -, heq⟩ | ⟨-, heq⟩ | ⟨hwait, -, heq⟩
    · rw [heq] at hafter
      exact absurd (hbefore.symm.trans hafter) (by decide)
    · rw [heq] at hafter
      exact absurd (hbefore.symm.trans hafter) (by decide)
    · rw [heq] at hafter ⊢
      rcases waits_ended hbefore hafter with ⟨r, -, hr⟩ | ⟨hqueue, -⟩ | ⟨-, hcons, hgaps⟩
      · exact absurd rfl hr
      · rw [hqueue]
        dsimp only
        split
        · exact .inl rfl
        · exact .inr (by omega)
      · have hroom := hD.room hvalid fun hlt => hwait ⟨hlt, hcons⟩
        have hcontents := hD.insert_contents _ kbuffer _ hvalid hlen hroom
        have hle := gaps_le_of_length_le hD (hD.insert_valid _ kbuffer _ hvalid hlen) hvalid
          (by simp [hcontents])
        exact absurd hgaps hle.not_gt

theorem waits (hD : D.Lawful) :
    (client D).Waits (fun f => f.len ≤ D.maxItems) (fun d => hD.valid d.cbuffer) Frame.queue
      (Frame.waits D) where
  toKeeps := keeps_device hD
  blocks _ _ _ _ _ h := (waits_of_block h).2
  queues _ _ _ _ _ h := (waits_of_block h).1
  posts f pt d nr w hlen hvalid hbefore hafter := by
    cases f with
    | «open» m => exact posts_open hbefore hafter
    | release m => exact posts_release hD hvalid hbefore hafter
    | read m len kbuffer => exact posts_read hD hlen hvalid hbefore hafter
    | write m len kbuffer => exact posts_write hD hlen hvalid hbefore hafter

/-- Past the wait loop of its call, with `mtx` still held. -/
def Frame.past : Frame → Stage Role Exit → Bool
  | .open _, .unlock .ok => true
  | .read _ _ _, .signal _ | .write _ _ _, .signal _ => true
  | .read _ _ _, .unlock x | .write _ _ _, .unlock x => x != .eintr
  | _, _ => false

def past : Process → Bool
  | .user _ => false
  | .inside f st => f.past st

theorem not_waits_of_openLoop {m : FMode} {d : Data β} {es : List Event}
    (h : past (openLoop m d es).proc = true) : d.count m.role.other ≠ 0 := by
  intro hzero
  rw [openLoop, if_pos hzero] at h
  cases h

theorem not_waits_of_past {f : Frame} {pt : Point} {d : Data β} {nr : Role → Int}
    (hpt : pt = .signalled → ∃ m, f = .open m)
    (h : past (body D f pt d nr).proc = true) : f.waits D d = false := by
  cases f with
  | «open» m =>
    apply decide_eq_false
    cases pt with
    | entered =>
      simp only [body, fifoprocOpen] at h
      split at h
      · cases h
      · have hcount := not_waits_of_openLoop h
        rw [Data.add_count, if_neg (Role.other_ne _).symm] at hcount
        omega
    | signalled | relocked => exact not_waits_of_openLoop h
  | release m => rfl
  | read m len kbuffer =>
    have hne : pt ≠ .signalled := fun hs => by
      obtain ⟨m, hm⟩ := hpt hs
      cases hm
    rw [body] at h
    rcases fifoprocRead_cases (D := D) m len kbuffer hne d nr with
      ⟨-, -, heq⟩ | ⟨hwait, -, -, -⟩ | ⟨hwait, -, -⟩
    · rw [heq] at h
      cases h
    · exact decide_eq_false hwait
    · exact decide_eq_false hwait
  | write m len kbuffer =>
    have hne : pt ≠ .signalled := fun hs => by
      obtain ⟨m, hm⟩ := hpt hs
      cases hm
    rw [body] at h
    rcases fifoprocWrite_cases (D := D) m len kbuffer hne d nr with
      ⟨-, -, heq⟩ | ⟨hcons, -⟩ | ⟨hwait, -, -⟩
    · rw [heq] at h
      cases h
    · exact decide_eq_false fun hwait => by omega
    · exact decide_eq_false hwait

/-- No process gets past a wait loop in a state where its condition holds. -/
theorem not_waits_of_moves {sh sh' : Shared (Data β) Role} {p p' : Process} {a : Act Call}
    {es : List Event} (h : (client D).Moves sh p a sh' p' es) (hp : past p = false)
    (hp' : past p' = true) :
    ∃ f st, p = .inside f st ∧ f.waits D sh.data = false := by
  cases h with
  | enter hcall =>
    rcases enter_cases hcall with ⟨m, -, -, rfl⟩ | ⟨m, -, -, rfl⟩ |
      ⟨m, len, -, -, -, -, -, rfl⟩ | ⟨m, buff, -, -, -, -, -, -, rfl⟩ <;> cases hp'
  | refuse | unlock | lockIntr | relockIntr => cases hp'
  | lock hm hg | relock hm hg =>
    subst hg
    exact ⟨_, _, rfl, not_waits_of_past (fun hs => by cases hs) hp'⟩
  | @signal f q _ _ hg =>
    subst hg
    refine ⟨f, _, rfl, not_waits_of_past (fun _ => ?_) hp'⟩
    cases f with
    | «open» m => exact ⟨m, rfl⟩
    | release m =>
      have htail : (releaseTail D m sh.data []).frame = .release m := by
        rcases releaseTail_cases (D := D) m sh.data [] with ⟨-, -, heq⟩ | ⟨-, heq⟩ <;> rw [heq]
      change (releaseTail D m sh.data []).frame.past _ = true at hp'
      rw [htail] at hp'
      cases hp'
    | read | write => cases hp
  | @wait f | @take f | @abort f | @sleepIntr f => cases f <;> cases hp'

end LinuxInternals.Fifoproc
