import LinuxInternals.Fifoproc.Writes

/-!
# The two ends of the FIFO

A read that finds no producers in an empty buffer reports the end of the file, and a write that
finds no consumers a broken pipe. Each looks at the counters under `mtx` and gives it up only to
return, and a counter is never lower than the number of those that it counts. So what is reported
is so at that moment, whoever was interrupted before.
-/

namespace LinuxInternals.Fifoproc

open CData SemMonitor Client

variable {β ι : Type} {D : Device β}

/-- How many bytes a process inside `fifoproc_read` wants. -/
def wanted : Process → Nat
  | .inside (.read _ len _) _ => len
  | _ => 0

/-- What a process with `mtx` has seen when it leaves for want of partners. -/
def Seen (D : Device β) (d : Data β) : Process → Prop
  | .inside _ (.unlock .eof) => d.count .prod = 0 ∧ D.isEmpty d.cbuffer = true
  | .inside _ (.unlock .epipe) => d.count .cons = 0
  | _ => True

theorem seen_body (f : Frame) (pt : Point) (d : Data β) (nr : Role → Int) :
    Seen D (body D f pt d nr).data (body D f pt d nr).proc := by
  have hdone (d : Data β) (f : Frame) (r : Role) (b : Prop) [Decidable b] :
      Seen D d (.inside f (if b then Next.signal r else .unlock .ok).stage) := by
    split
    · trivial
    · trivial
  cases f with
  | «open» m =>
    have hloop (d : Data β) (es : List Event) :
        Seen D (openLoop m d es).data (openLoop m d es).proc := by
      rw [Segment.proc, openLoop]
      dsimp only
      split
      · trivial
      · trivial
    cases pt with
    | entered =>
      rw [body, fifoprocOpen]
      split
      · trivial
      · exact hloop _ _
    | signalled | relocked => exact hloop _ _
  | release m =>
    have htail (d : Data β) (es : List Event) :
        Seen D (releaseTail D m d es).data (releaseTail D m d es).proc := by
      rw [releaseTail]
      split
      · trivial
      · trivial
    cases pt with
    | entered =>
      rw [body, fifoprocRelease]
      split
      · trivial
      · exact htail _ _
    | signalled | relocked => exact htail _ _
  | read m len kbuffer =>
    rcases eq_or_ne pt .signalled with rfl | hpt
    · trivial
    · rw [body]
      rcases fifoprocRead_cases (D := D) m len kbuffer hpt d nr with
        ⟨-, -, heq⟩ | ⟨-, hprod, hempty, heq⟩ | ⟨-, -, heq⟩
      · rw [heq]
        trivial
      · rw [heq]
        exact ⟨hprod, hempty⟩
      · rw [heq]
        exact hdone _ _ _ _
  | write m len kbuffer =>
    rcases eq_or_ne pt .signalled with rfl | hpt
    · trivial
    · rw [body]
      rcases fifoprocWrite_cases (D := D) m len kbuffer hpt d nr with
        ⟨-, -, heq⟩ | ⟨hcons, heq⟩ | ⟨-, -, heq⟩
      · rw [heq]
        trivial
      · rw [heq]
        exact hcons
      · rw [heq]
        exact hdone _ _ _ _

theorem guards_seen :
    (client D).Guards (fun f => f.len ≤ D.maxItems) (fun _ _ _ => True)
      (fun _ (_ : List (ι × Event)) => True) (fun p d _ => Seen D d p) where
  init := trivial
  lock _ f _ d nr _ _ _ _ := seen_body f .entered d nr
  relock _ f _ d nr _ _ _ _ := seen_body f .relocked d nr
  signal _ f _ _ d nr _ _ _ _ := seen_body f .signalled d nr
  wait _ _ _ _ _ := trivial
  abort _ _ _ _ := trivial
  unlock _ _ _ _ _ _ _ _ _ := trivial
  free_outside _ _ _ _ _ _ := trivial
  held_outside _ _ _ _ _ _ h := h

variable {sh sh' : Shared (Data β) Role} {p p' : Process} {a : Act Call} {es : List Event}

/-- Code that runs under `mtx` returns nothing yet. -/
theorem ret_not_mem_body (f : Frame) (pt : Point) (d : Data β) (nr : Role → Int) (op : Op)
    (v : Ret) (out : List UInt8) : Event.ret op v out ∉ (body D f pt d nr).effects := by
  intro h
  rcases body_effects (D := D) f pt d nr with
    hother | ⟨m, len, kbuffer, -, -, -, -, heffects, -⟩
  · cases hother _ h
  · rw [heffects] at h
    cases List.mem_singleton.mp h

theorem exists_read_of_wanted (hp : 0 < wanted p) :
    ∃ m len kbuffer st, p = .inside (.read m len kbuffer) st ∧ 0 < len := by
  cases p with
  | user => cases hp
  | inside f st =>
    cases f with
    | read m len kbuffer => exact ⟨m, len, kbuffer, st, rfl, hp⟩
    | «open» | release | write => cases hp

theorem eof_of_return (h : (client D).Moves sh p a sh' p' es) (hp : 0 < wanted p)
    {out : List UInt8} (hret : Event.ret .read (.done 0) out ∈ es) :
    (∃ m len kbuffer, p = .inside (.read m len kbuffer) (.unlock .eof)) ∧
      sh'.data = sh.data := by
  obtain ⟨m, len, kbuffer, st, rfl, hlen⟩ := exists_read_of_wanted hp
  rcases h.inside_cases with ⟨-, -, -, -, -, rfl⟩ | ⟨pt, nr, -, -, -, -, rfl⟩ |
    ⟨x, copied, hst, -, hdata, rfl⟩
  · cases hret
  · exact (ret_not_mem_body _ _ _ _ _ _ _ hret).elim
  · have heof : x = .eof := by
      cases x with
      | eof => rfl
      | eintr => cases List.mem_singleton.mp hret
      | ok | epipe =>
        cases copied with
        | false => cases List.mem_singleton.mp hret
        | true =>
          cases List.mem_singleton.mp hret
          exact absurd hlen (lt_irrefl 0)
    subst heof
    rcases hst with ⟨rfl, -⟩ | ⟨heintr, -⟩
    · exact ⟨⟨m, len, kbuffer, rfl⟩, hdata⟩
    · cases heintr

theorem epipe_not_mem_refused {x y : File} {c : Call} {copied : Bool}
    (h : syscall D x c copied = some (.done y es)) (out : List UInt8) :
    Event.ret .write (.error .epipe) out ∉ es := by
  intro hret
  cases x with
  | closed => cases c <;> cases h
  | opened m =>
    cases c with
    | «open» | release => cases h
    | read len =>
      rw [syscall, Option.ite_none_right_eq_some] at h
      obtain ⟨-, h⟩ := h
      split at h
      · cases h
        cases List.mem_singleton.mp hret
      · cases h
    | write buff =>
      rw [syscall, Option.ite_none_right_eq_some] at h
      obtain ⟨-, h⟩ := h
      split at h
      · cases h
        cases List.mem_singleton.mp hret
      · split at h
        · cases h
        · cases h
          cases List.mem_singleton.mp hret

theorem epipe_of_return (h : (client D).Moves sh p a sh' p' es) {out : List UInt8}
    (hret : Event.ret .write (.error .epipe) out ∈ es) :
    (∃ f, p = .inside f (.unlock .epipe)) ∧ sh'.data = sh.data := by
  cases p with
  | user x =>
    cases h with
    | enter => cases hret
    | refuse hcall => exact (epipe_not_mem_refused hcall out hret).elim
  | inside f st =>
    rcases h.inside_cases with ⟨-, -, -, -, -, rfl⟩ | ⟨pt, nr, -, -, -, -, rfl⟩ |
      ⟨x, copied, hst, -, hdata, rfl⟩
    · cases hret
    · exact (ret_not_mem_body _ _ _ _ _ _ _ hret).elim
    · have hepipe : x = .epipe := by
        cases f with
        | «open» | release => cases x <;> cases List.mem_singleton.mp hret
        | read => cases x <;> cases copied <;> cases List.mem_singleton.mp hret
        | write =>
          cases x with
          | epipe => rfl
          | ok | eof | eintr => cases List.mem_singleton.mp hret
      subst hepipe
      rcases hst with ⟨rfl, -⟩ | ⟨heintr, -⟩
      · exact ⟨⟨f, rfl⟩, hdata⟩
      · cases heintr

variable [Fintype ι] [DecidableEq ι] {s : State β ι}

theorem seen_of_run {as : List (ι × Act Call)} {tr : List (ι × Event)}
    (hrun : (machine D ι).Run as s tr) {i : ι} (hi : (s.proc i).holds = true) :
    Seen D s.data (s.proc i) :=
  (guarded_of_run (frames_small D) guards_seen (Machine.along_true _ _) hrun).held i hi

theorem nobody_counted (h : (machine D ι).Reachable s) {r : Role} (hr : s.data.count r = 0) :
    ∀ j, counted r (s.proc j) = false := by
  have hle := headcount_le_count h r
  exact headcount_eq_zero_iff.mp (by omega)

/-- Whoever was interrupted before, the end of the file means that nobody has the entry open for
writing and that all that was accepted is read or discarded, and a broken pipe that nobody has it
open for reading. -/
theorem ends_are_real (hD : D.Lawful) {as : List (ι × Act Call)} {tr : List (ι × Event)}
    (hrun : (machine D ι).Run as s tr) :
    (∀ i a s' es out, (machine D ι).step s (i, a) = some (s', es) → 0 < wanted (s.proc i) →
      (i, Event.ret .read (.done 0) out) ∈ es →
      (∀ j, counted .prod (s'.proc j) = false) ∧ hD.contents s'.data.cbuffer = [] ∧
      ((machine D ι).Along (Complete D) (machine D ι).init as →
        (Flow.ledger (flows tr)).pending = [] ∧
        (Flow.discard ∉ flows tr →
          Flow.delivered (flows tr) = (Flow.ledger (flows tr)).accepted))) ∧
    ∀ i a s' es out, (machine D ι).step s (i, a) = some (s', es) →
      (i, Event.ret .write (.error .epipe) out) ∈ es →
      ∀ j, counted .cons (s'.proc j) = false := by
  have hs := hrun.reachable
  have hmem {i : ι} {e : Event} {es : List Event} (h : (i, e) ∈ es.map (Prod.mk i)) :
      e ∈ es := by
    obtain ⟨e', he', heq⟩ := List.mem_map.mp h
    cases heq
    exact he'
  constructor
  · intro i a s' es out hstep hwanted hret
    obtain ⟨es, hmoves, -, rfl⟩ := moves_of_step hstep
    obtain ⟨⟨m, len, kbuffer, hp⟩, hdata⟩ := eof_of_return hmoves hwanted (hmem hret)
    have hholds : (s.proc i).holds = true := by
      rw [hp]
      rfl
    have hseen := seen_of_run hrun hholds
    rw [hp] at hseen
    obtain ⟨hprod, hempty⟩ := hseen
    have hvalid : hD.valid s.data.cbuffer := reachable_valid (keeps_device hD) hs
    have hcontents := (hD.isEmpty_iff _ hvalid).mp hempty
    refine ⟨?_, ?_, ?_⟩
    · apply nobody_counted (hs.step hstep)
      rw [hdata, hprod]
    · rw [hdata, hcontents]
    · intro hcomplete
      have hguarded := guarded_of_run (frames_small D) (guards_stream hD)
        (orderly_of_complete hrun hcomplete) hrun
      obtain ⟨-, haccount⟩ := hguarded.held i hholds
      rw [hp, hcontents] at haccount
      have hbooks : Flow.Books (flows tr) [] := haccount.books
      refine ⟨hbooks.pending, fun hkept => ?_⟩
      have hall := hbooks.faithful.complete hkept
      rwa [hbooks.pending, List.append_nil] at hall
  · intro i a s' es out hstep hret
    obtain ⟨es, hmoves, -, rfl⟩ := moves_of_step hstep
    obtain ⟨⟨f, hp⟩, hdata⟩ := epipe_of_return hmoves (hmem hret)
    have hholds : (s.proc i).holds = true := by
      rw [hp]
      rfl
    have hseen := seen_of_run hrun hholds
    rw [hp] at hseen
    apply nobody_counted (hs.step hstep)
    rw [hdata]
    exact hseen

/-- The writer sends one byte and closes; the reader takes the byte and asks for more. -/
def drained : List (Fin 2 × Act Call) :=
  oneByte ++ [(writer, .call .release true), (writer, .run true), (writer, .run true),
    (reader, .call (.read 1) true), (reader, .run true)]

theorem ends_are_real_drained :
    ∃ s tr s', (machine (parteB fun _ => 0) (Fin 2)).Run drained s tr ∧
      (machine (parteB fun _ => 0) (Fin 2)).step s (reader, .run true) =
        some (s', [(reader, .ret .read (.done 0) [])]) ∧
      (∀ j, counted .prod (s'.proc j) = false) ∧
      Flow.delivered (flows tr) = (Flow.ledger (flows tr)).accepted := by
  have heval : ((machine (parteB fun _ => 0) (Fin 2)).exec
      (machine (parteB fun _ => 0) (Fin 2)).init drained).map (fun r =>
        (flows r.2, wanted (r.1.proc reader),
          ((machine (parteB fun _ => 0) (Fin 2)).step r.1 (reader, .run true)).map Prod.snd)) =
      some ([.accept [7], .deliver [7]], 1, some [(reader, .ret .read (.done 0) [])]) := by
    decide +kernel
  obtain ⟨s, tr, hrun, heq⟩ := Machine.exists_run_of_eval heval
  simp only [Prod.mk.injEq] at heq
  obtain ⟨hflows, hwanted, hstep⟩ := heq
  obtain ⟨⟨s', es⟩, hstep, rfl⟩ := Option.map_eq_some_iff.mp hstep
  have hcomplete : (machine (parteB fun _ => 0) (Fin 2)).Along (Complete (parteB fun _ => 0))
      (machine (parteB fun _ => 0) (Fin 2)).init drained := by
    unfold Complete
    decide +kernel
  obtain ⟨hnobody, -, hall⟩ := (ends_are_real (parteBLawful fun _ => 0) hrun).1 reader
    (.run true) s' _ [] hstep (by rw [hwanted]; decide) List.mem_cons_self
  refine ⟨s, tr, s', hrun, hstep, hnobody, (hall hcomplete).2 ?_⟩
  rw [hflows]
  decide

end LinuxInternals.Fifoproc
