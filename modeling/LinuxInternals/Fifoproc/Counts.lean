import LinuxInternals.Fifoproc.Spec

/-!
# The counters of readers and writers

`prod_count` and `cons_count` against the processes they should count. An `open` that
is interrupted after its increment and a `release` that is interrupted leave their
counter one too high for good; no other step separates the two.
-/

namespace LinuxInternals.Fifoproc

open SemMonitor Client

variable {β ι : Type} {D : Device β}

/-- Holds the entry open with role `r`, or is inside `fifoproc_open` past its increment.
A release counts until it gets `mtx`. -/
def counted (r : Role) : Process → Bool
  | .user .closed => false
  | .user (.opened m) => m.role == r
  | .inside f st =>
    f.mode.role == r &&
      match f.op with
      | .open => st != .lock
      | .release => st == .lock
      | .read | .write => true

/-- The step returns from `fifoproc_open` with `-EINTR` after the increment, or from
`fifoproc_release` with `-EINTR` and no decrement. -/
def forgets : Op → Stage Role Exit → Act Call → Bool
  | .open, .relock, .intr | .open, .unlock .eintr, .run _ | .release, .lock, .intr => true
  | _, _, _ => false

def leaks (r : Role) : Process → Act Call → Bool
  | .user _, _ => false
  | .inside f st, a => f.mode.role == r && forgets f.op st a

theorem Data.add_count (d : Data β) (r' r : Role) (k : Int) :
    (d.add r' k).count r = d.count r + if r' = r then k else 0 := by
  unfold Data.add
  by_cases h : r' = r
  · subst h
    simp
  · simp [h, Ne.symm h]

theorem openLoop_data (m : FMode) (d : Data β) (es : List Event) :
    (openLoop m d es).data = d := rfl

theorem releaseTail_count (m : FMode) (d : Data β) (es : List Event) :
    (releaseTail D m d es).data.count = d.count := by
  unfold releaseTail
  split <;> rfl

theorem fifoprocRead_count (m : FMode) (len : Nat) (kbuffer : Nat → UInt8) (pt : Point)
    (d : Data β) (nr : Role → Int) :
    (fifoprocRead D m len kbuffer pt d nr).data.count = d.count := by
  cases pt with
  | signalled => rfl
  | entered | relocked =>
    simp only [fifoprocRead]
    split
    · rfl
    · split <;> rfl

theorem fifoprocWrite_count (m : FMode) (len : Nat) (kbuffer : Nat → UInt8) (pt : Point)
    (d : Data β) (nr : Role → Int) :
    (fifoprocWrite D m len kbuffer pt d nr).data.count = d.count := by
  cases pt with
  | signalled => rfl
  | entered | relocked =>
    simp only [fifoprocWrite]
    split
    · rfl
    · split <;> rfl

/-- What the first piece of code of a call adds to the counter of `r`. -/
def added (r : Role) (f : Frame) : Point → Int
  | .entered =>
    match f.op with
    | .open => if f.mode.role = r then 1 else 0
    | .release => if f.mode.role = r then -1 else 0
    | .read | .write => 0
  | .signalled | .relocked => 0

theorem body_count (f : Frame) (pt : Point) (d : Data β) (nr : Role → Int) (r : Role) :
    (body D f pt d nr).data.count r = d.count r + added r f pt := by
  cases f with
  | «open» m =>
    cases pt with
    | entered =>
      change _ = d.count r + if m.role = r then 1 else 0
      rw [← Data.add_count]
      simp only [body, fifoprocOpen]
      split <;> rfl
    | signalled | relocked => simp [body, fifoprocOpen, openLoop_data, added]
  | release m =>
    cases pt with
    | entered =>
      change _ = d.count r + if m.role = r then -1 else 0
      rw [← Data.add_count]
      simp only [body, fifoprocRelease]
      split
      · rfl
      · rw [releaseTail_count]
    | signalled | relocked => simp [body, fifoprocRelease, releaseTail_count, added]
  | read m len kbuffer => cases pt <;> simp [body, fifoprocRead_count, added, Frame.op]
  | write m len kbuffer => cases pt <;> simp [body, fifoprocWrite_count, added, Frame.op]

theorem counted_leave (f : Frame) (x : Exit) (copied : Bool) (r : Role) :
    counted r (.user (leave f x copied).1) =
      (f.mode.role == r && match f.op with
        | .open =>
          match x with
          | .eintr => false
          | _ => true
        | .release => false
        | .read | .write => true) := by
  cases f <;> cases x <;> simp [leave, counted, Frame.op, Frame.mode]

theorem counted_inside (f : Frame) {st : Stage Role Exit} (hst : st ≠ .lock) (r : Role) :
    counted r (.inside f st) = (f.mode.role == r && match f.op with
      | .release => false
      | .open | .read | .write => true) := by
  have hne : (st == .lock) = false := beq_false_of_ne hst
  rw [counted]
  cases f.op <;> simp [bne, hne]

theorem counted_segment {f : Frame} {pt : Point} {sh : Shared (Data β) Role} {g : Code β}
    (hg : (client D).runBody sh f pt = g) (r : Role) :
    counted r g.proc = (f.mode.role == r && match f.op with
      | .release => false
      | .open | .read | .write => true) := by
  have hlock : g.next.stage ≠ .lock := by
    cases g.next <;> simp [Next.stage]
  subst hg
  obtain ⟨hop, hmode, -⟩ := body_frame (D := D) f pt sh.data sh.nrWaiting
  rw [Segment.proc, counted_inside _ hlock, ← hop, ← hmode]
  rfl

theorem data_count_of_runBody {f : Frame} {pt : Point} {sh : Shared (Data β) Role} {g : Code β}
    (hg : (client D).runBody sh f pt = g) (r : Role) :
    g.data.count r = sh.data.count r + added r f pt := by
  subst hg
  exact body_count f pt sh.data sh.nrWaiting r

theorem counted_enter {x : File} {c : Call} {copied : Bool} {f : Frame}
    (h : syscall D x c copied = some (.enter f)) (r : Role) :
    counted r (.inside f .lock) = counted r (.user x) := by
  rcases enter_cases h with ⟨m, rfl, rfl, rfl⟩ | ⟨m, rfl, rfl, rfl⟩ |
    ⟨m, len, rfl, rfl, -, -, -, rfl⟩ | ⟨m, buff, rfl, rfl, -, -, -, -, rfl⟩ <;>
  simp [counted, Frame.op, Frame.mode]

theorem count_balance {sh sh' : Shared (Data β) Role} {p p' : Process} {a : Act Call}
    {es : List Event} (h : (client D).Moves sh p a sh' p' es) (r : Role) :
    sh'.data.count r + (counted r p).toNat =
      sh.data.count r + (counted r p').toNat + (leaks r p a).toNat := by
  cases h with
  | @enter x c copied f hcall =>
    rw [counted_enter hcall]
    simp [leaks]
  | @refuse x c copied y es hcall =>
    rw [(done_cases hcall).1]
    simp [leaks]
  | @lock f copied g hm hg =>
    rw [commit_data, data_count_of_runBody hg, counted_segment hg, counted, leaks]
    unfold added
    by_cases hr : f.mode.role = r <;> cases f.op <;> simp [forgets, hr, Shared.down]
  | @relock f copied g hm hg =>
    rw [commit_data, data_count_of_runBody hg, counted_segment hg, counted_inside f (by simp),
      leaks]
    cases f.op <;> simp [forgets, Shared.down, added]
  | @signal f q copied g hg =>
    rw [commit_data, data_count_of_runBody hg, counted_segment hg, counted_inside f (by simp),
      leaks]
    cases f.op <;> simp [forgets, Shared.addWaiting, Shared.post, added]
  | @wait f q copied | @take f q copied hs | @abort f q copied hm | @sleepIntr f q =>
    rw [counted_inside f (by simp), counted_inside f (by simp), leaks]
    cases f.op <;> simp [forgets, Shared.up, Shared.take, Shared.addWaiting, Shared.down]
  | @unlock f x copied y es hleave =>
    obtain rfl : (leave f x copied).1 = y := congrArg Prod.fst hleave
    rw [counted_leave, counted_inside f (by simp), leaks]
    cases f.op <;> cases x <;> simp [forgets, Shared.up, add_comm]
  | @lockIntr f y es hleave =>
    obtain rfl : (leave f .eintr true).1 = y := congrArg Prod.fst hleave
    rw [counted_leave, counted, leaks]
    cases f.op <;> simp [forgets]
  | @relockIntr f y es hleave =>
    obtain rfl : (leave f .eintr true).1 = y := congrArg Prod.fst hleave
    rw [counted_leave, counted_inside f (by simp), leaks]
    cases f.op <;> simp [forgets]

variable [Fintype ι] [DecidableEq ι] {s s' : State β ι}

theorem count_step {i : ι} {a : Act Call} {tr : List (ι × Event)}
    (hstep : (machine D ι).step s (i, a) = some (s', tr)) (r : Role) :
    s'.data.count r + headcount (counted r) s.proc =
      s.data.count r + headcount (counted r) s'.proc + (leaks r (s.proc i) a).toNat := by
  obtain ⟨es, hmoves, hproc, -⟩ := moves_of_step hstep
  have hbalance := count_balance hmoves r
  have hcount := headcount_update (counted r) s.proc i (s'.proc i)
  rw [hproc]
  omega

omit [Fintype ι] in
theorem init_data_count (r : Role) : (machine D ι).init.data.count r = 0 := rfl

theorem init_headcount (r : Role) : headcount (counted r) (machine D ι).init.proc = 0 :=
  headcount_const _ _ rfl

theorem headcount_le_count (h : (machine D ι).Reachable s) (r : Role) :
    (headcount (counted r) s.proc : Int) ≤ s.data.count r := by
  refine h.invariant
    (I := fun s : State β ι => (headcount (counted r) s.proc : Int) ≤ s.data.count r) ?_ ?_
  · rw [init_headcount, init_data_count]
    exact le_rfl
  · rintro s ⟨i, a⟩ s' tr hI hstep
    have hcount := count_step hstep r
    omega

theorem count_nonneg (h : (machine D ι).Reachable s) (r : Role) : 0 ≤ s.data.count r := by
  have hle := headcount_le_count h r
  omega

/-- Both counters are exact; in particular they are 0 when every file is closed. -/
structure CountsExact (s : State β ι) : Prop where
  exact : ∀ r, s.data.count r = headcount (counted r) s.proc
  closed : (∀ i, s.proc i = .user .closed) → ∀ r, s.data.count r = 0

omit [DecidableEq ι] in
theorem countsExact_iff (s : State β ι) :
    CountsExact s ↔ ∀ r, s.data.count r = headcount (counted r) s.proc := by
  refine ⟨CountsExact.exact, fun h => ⟨h, fun hclosed r => ?_⟩⟩
  rw [h r, headcount_eq_zero_iff.mpr fun i => by rw [hclosed i]; rfl]
  rfl

/-- The counters stay exact exactly as long as no interrupted open or release returns
past its counter. -/
theorem counts_exact_iff_no_leak {as : List (ι × Act Call)} {tr : List (ι × Event)}
    (hrun : (machine D ι).Run as s tr) :
    (machine D ι).Always (fun s _ => CountsExact s) as ↔
      (machine D ι).Along (fun s ia => ∀ r, leaks r (s.proc ia.1) ia.2 = false)
        (machine D ι).init as := by
  refine hrun.always_iff_along ?_ ?_
  · apply (countsExact_iff _).mpr
    intro r
    rw [init_headcount, init_data_count]
    rfl
  · rintro s t ⟨i, a⟩ s' es - hexact hstep
    rw [countsExact_iff]
    apply forall_congr'
    intro r
    have hcount := count_step hstep r
    have hbefore := hexact.exact r
    cases hleak : leaks r (s.proc i) a with
    | false =>
      rw [hleak] at hcount
      simp only [Bool.toNat_false] at hcount
      exact iff_of_true (by omega) rfl
    | true =>
      rw [hleak] at hcount
      simp only [Bool.toNat_true] at hcount
      exact iff_of_false (by omega) (by simp)

def reader : Fin 2 := 0

def writer : Fin 2 := 1

/-- A reader that opens alone and is interrupted while it waits. -/
def interruptedOpen : List (Fin 2 × Act Call) :=
  [(reader, .call (.open .rdonly) true), (reader, .run true), (reader, .run true), (reader, .intr),
    (reader, .run true), (reader, .run true)]

theorem interruptedOpen_not_exact :
    ¬(machine (parteB fun _ => 0) (Fin 2)).Always (fun s _ => CountsExact s) interruptedOpen := by
  intro hall
  have heval : ((machine (parteB fun _ => 0) (Fin 2)).exec
      (machine (parteB fun _ => 0) (Fin 2)).init interruptedOpen).map
        (fun r => (r.1.data.count .cons, headcount (counted .cons) r.1.proc)) = some (1, 0) := by
    decide +kernel
  obtain ⟨s, tr, hrun, hs⟩ := Machine.exists_run_of_eval heval
  have hexact := (hall interruptedOpen (List.prefix_refl _) s tr hrun).exact .cons
  simp only [Prod.mk.injEq] at hs
  rw [hs.1, hs.2] at hexact
  cases hexact

def bothOpen : List (Fin 2 × Act Call) :=
  [(reader, .call (.open .rdonly) true), (reader, .run true), (reader, .run true),
    (writer, .call (.open .wronly) true), (writer, .run true), (writer, .run true),
    (writer, .run true), (reader, .run true), (reader, .run true), (reader, .run true)]

theorem counts_exact_iff_no_leak_bothOpen :
    (machine (parteB fun _ => 0) (Fin 2)).Always (fun s _ => CountsExact s) bothOpen ↔
      (machine (parteB fun _ => 0) (Fin 2)).Along
        (fun s ia => ∀ r, leaks r (s.proc ia.1) ia.2 = false)
        (machine (parteB fun _ => 0) (Fin 2)).init bothOpen := by
  have heval : ((machine (parteB fun _ => 0) (Fin 2)).exec
      (machine (parteB fun _ => 0) (Fin 2)).init bothOpen).map
        (fun r => (r.1.data.count .cons, r.1.data.count .prod)) = some (1, 1) := by
    decide +kernel
  obtain ⟨s, tr, hrun, -⟩ := Machine.exists_run_of_eval heval
  exact counts_exact_iff_no_leak hrun

end LinuxInternals.Fifoproc
