import LinuxInternals.Fifoproc.Counts

/-!
# The stream of bytes

Bytes enter the stream where `fifoproc_write` puts them into the buffer and leave it where
`fifoproc_read` hands them to its caller. A read that finds no producers and fewer bytes
than it wants goes on as if they were there; without such reads every read gets exactly
the next bytes of the stream.
-/

namespace LinuxInternals.Fifoproc

open CData SemMonitor Client

variable {β ι : Type} {D : Device β}

def Event.flow : Event → Option (Flow UInt8)
  | .insert items => some (.accept items)
  | .clear => some .discard
  | .ret .read (.done _) out => some (.deliver out)
  | _ => none

def flows (tr : List (ι × Event)) : List (Flow UInt8) := tr.filterMap fun e => e.2.flow

/-- Every read that returns `n` has handed over `n` bytes, the next ones of the stream. -/
structure StreamIntact (tr : List (ι × Event)) : Prop where
  measured : ∀ i n out, (i, Event.ret .read (.done n) out) ∈ tr → out.length = n
  faithful : Flow.Faithful (flows tr)
  ordered : (Flow.delivered (flows tr)).Sublist (Flow.ledger (flows tr)).accepted

theorem StreamIntact.of_faithful {tr : List (ι × Event)}
    (hmeasured : ∀ i n out, (i, Event.ret .read (.done n) out) ∈ tr → out.length = n)
    (hfaithful : Flow.Faithful (flows tr)) : StreamIntact tr :=
  ⟨hmeasured, hfaithful, (List.sublist_append_left _ _).trans hfaithful.sublist⟩

/-- The account of a run, with `rest` still to be delivered. -/
structure Account (tr : List (ι × Event)) (rest : List UInt8) : Prop where
  measured : ∀ i n out, (i, Event.ret .read (.done n) out) ∈ tr → out.length = n
  books : Flow.Books (flows tr) rest

theorem flows_append (tr es : List (ι × Event)) : flows (tr ++ es) = flows tr ++ flows es :=
  List.filterMap_append

namespace Account

variable {tr : List (ι × Event)} {rest : List UInt8}

theorem silent (h : Account tr rest) {i : ι} {es : List Event} (hes : ∀ e ∈ es, e.flow = none) :
    Account (tr ++ es.map (Prod.mk i)) rest where
  measured j n out hmem := by
    rcases List.mem_append.mp hmem with hmem | hmem
    · exact h.measured j n out hmem
    · obtain ⟨e, he, heq⟩ := List.mem_map.mp hmem
      cases heq
      exact absurd (hes _ he) (by simp [Event.flow])
  books := by
    have hnil : flows (es.map (Prod.mk i)) = [] := by
      rw [flows, List.filterMap_eq_nil_iff]
      intro e he
      obtain ⟨x, hx, rfl⟩ := List.mem_map.mp he
      exact hes x hx
    rw [flows_append, hnil, List.append_nil]
    exact h.books

theorem measured_snoc (h : Account tr rest) {i : ι} {e : Event}
    (he : ∀ n out, e = .ret .read (.done n) out → out.length = n) :
    ∀ j n out, (j, Event.ret .read (.done n) out) ∈ tr ++ [(i, e)] → out.length = n := by
  intro j n out hmem
  rcases List.mem_append.mp hmem with hmem | hmem
  · exact h.measured j n out hmem
  · obtain ⟨rfl, heq⟩ := Prod.mk.inj (List.mem_singleton.mp hmem)
    exact he n out heq.symm

theorem insert (h : Account tr rest) (i : ι) (xs : List UInt8) :
    Account (tr ++ [(i, .insert xs)]) (rest ++ xs) where
  measured := h.measured_snoc fun _ _ heq => by cases heq
  books := by
    rw [flows_append]
    exact h.books.accept xs

theorem clear (h : Account tr rest) (i : ι) : Account (tr ++ [(i, .clear)]) [] where
  measured := h.measured_snoc fun _ _ heq => by cases heq
  books := by
    rw [flows_append]
    exact h.books.discard

theorem deliver (xs : List UInt8) (h : Account tr (xs ++ rest)) (i : ι) {n : Nat}
    (hn : xs.length = n) : Account (tr ++ [(i, .ret .read (.done n) xs)]) rest where
  measured := h.measured_snoc fun _ _ heq => by
    cases heq
    exact hn
  books := by
    rw [flows_append]
    exact h.books.deliver

end Account

/-- The bytes that a read has taken and not yet handed over. -/
def inHand : Process → List UInt8
  | .inside (.read _ _ _) (.unlock .eintr) | .inside (.read _ _ _) (.unlock .eof) => []
  | .inside (.read _ len kbuffer) (.signal _) | .inside (.read _ len kbuffer) (.unlock _) =>
    read kbuffer len
  | _ => []

/-- A read that gets `mtx` finds no producers and some of its bytes, but not all. -/
def shortRead (D : Device β) (d : Data β) : Process → Act Call → Bool
  | .inside (.read _ len _) .lock, .run _ | .inside (.read _ len _) .relock, .run _ =>
    d.count .prod = 0 ∧ 0 < D.size d.cbuffer ∧ D.size d.cbuffer < len
  | _, _ => false

def copied : Act Call → Bool
  | .call _ copied | .run copied => copied
  | .intr => true

structure Orderly (D : Device β) (d : Data β) (p : Process) (a : Act Call) : Prop where
  copied : copied a = true
  enough : shortRead D d p a = false
  nonneg : ∀ r, 0 ≤ d.count r

theorem Orderly.size_le {hD : D.Lawful} {d : Data β} (hvalid : hD.valid d.cbuffer) {m : FMode}
    {len : Nat} {kbuffer : Nat → UInt8} {st : Stage Role Exit} {b : Bool}
    (h : Orderly D d (.inside (.read m len kbuffer) st) (.run b)) (hst : st = .lock ∨ st = .relock)
    (hwait : ¬(D.size d.cbuffer < len ∧ 0 < d.count .prod))
    (heof : ¬(d.count .prod = 0 ∧ D.isEmpty d.cbuffer = true)) :
    len ≤ (hD.contents d.cbuffer).length := by
  have hnonneg := h.nonneg .prod
  have henough := h.enough
  have hsize := hD.size_eq _ hvalid
  have hempty := hD.isEmpty_iff _ hvalid
  rw [← List.length_eq_zero_iff] at hempty
  by_contra hlt
  have hshort : d.count .prod = 0 ∧ 0 < D.size d.cbuffer ∧ D.size d.cbuffer < len := by
    refine ⟨by omega, ?_, by omega⟩
    have hprod : d.count .prod = 0 := by omega
    have hne : D.isEmpty d.cbuffer ≠ true := fun he => heof ⟨hprod, he⟩
    rw [Ne, hempty] at hne
    omega
  rcases hst with rfl | rfl <;> simp only [shortRead, decide_eq_false_iff_not] at henough <;>
  exact henough hshort

section Code

variable {hD : D.Lawful} {tr : List (ι × Event)} (i : ι) {d : Data β} (nr : Role → Int)

/-- The account after a piece of code, as the process that ran it sees it. -/
def Kept (hD : D.Lawful) (tr : List (ι × Event)) (i : ι) (g : Code β) : Prop :=
  hD.valid g.data.cbuffer ∧
    Account (tr ++ g.effects.map (Prod.mk i)) (inHand g.proc ++ hD.contents g.data.cbuffer)

theorem kept_open (m : FMode) (pt : Point) (hvalid : hD.valid d.cbuffer)
    (h : Account tr (hD.contents d.cbuffer)) : Kept hD tr i (fifoprocOpen m pt d nr) := by
  have hloop (d : Data β) (es : List Event) (hvalid : hD.valid d.cbuffer)
      (h : Account (tr ++ es.map (Prod.mk i)) (hD.contents d.cbuffer)) :
      Kept hD tr i (openLoop m d es) := by
    refine ⟨hvalid, ?_⟩
    unfold openLoop
    split <;> exact h
  have hcount : Account (tr ++ [Event.count m.role 1].map (Prod.mk i)) (hD.contents d.cbuffer) :=
    h.silent (by simp [Event.flow])
  cases pt with
  | entered =>
    simp only [fifoprocOpen]
    split
    · exact ⟨hvalid, hcount⟩
    · exact hloop _ _ hvalid hcount
  | signalled | relocked =>
    apply hloop _ _ hvalid
    rw [List.map_nil, List.append_nil]
    exact h

theorem kept_release (m : FMode) (pt : Point) (hvalid : hD.valid d.cbuffer)
    (h : Account tr (hD.contents d.cbuffer)) : Kept hD tr i (fifoprocRelease D m pt d nr) := by
  have htail (d : Data β) (es : List Event) (hvalid : hD.valid d.cbuffer)
      (h : Account (tr ++ es.map (Prod.mk i)) (hD.contents d.cbuffer)) :
      Kept hD tr i (releaseTail D m d es) := by
    rcases releaseTail_cases (D := D) m d es with ⟨-, -, heq⟩ | ⟨-, heq⟩
    · rw [heq]
      refine ⟨hD.clear_valid _ hvalid, ?_⟩
      change Account _ ([] ++ hD.contents (D.clear d.cbuffer))
      rw [hD.clear_contents _ hvalid, List.map_append, ← List.append_assoc]
      exact h.clear i
    · rw [heq]
      exact ⟨hvalid, h⟩
  have hcount : Account (tr ++ [Event.count m.role (-1)].map (Prod.mk i))
      (hD.contents d.cbuffer) := h.silent (by simp [Event.flow])
  cases pt with
  | entered =>
    simp only [fifoprocRelease]
    split
    · exact ⟨hvalid, hcount⟩
    · exact htail _ _ hvalid hcount
  | signalled | relocked =>
    apply htail _ _ hvalid
    rw [List.map_nil, List.append_nil]
    exact h

theorem kept_read (m : FMode) {len : Nat} (kbuffer : Nat → UInt8) {pt : Point}
    (hpt : pt ≠ .signalled) (hlen : len ≤ D.maxItems) (hvalid : hD.valid d.cbuffer)
    (henough : ¬(D.size d.cbuffer < len ∧ 0 < d.count .prod) →
      ¬(d.count .prod = 0 ∧ D.isEmpty d.cbuffer = true) → len ≤ (hD.contents d.cbuffer).length)
    (h : Account tr (hD.contents d.cbuffer)) :
    Kept hD tr i (fifoprocRead D m len kbuffer pt d nr) := by
  rcases fifoprocRead_cases (D := D) m len kbuffer hpt d nr with
    ⟨-, -, heq⟩ | ⟨-, -, -, heq⟩ | ⟨hwait, heof, heq⟩
  · rw [heq]
    exact ⟨hvalid, h.silent (by simp)⟩
  · rw [heq]
    exact ⟨hvalid, h.silent (by simp)⟩
  · have hle := henough hwait heof
    rw [heq]
    refine ⟨hD.remove_valid _ _ _ hvalid hlen, ?_⟩
    have hhand : inHand (Segment.proc (μ := File)
        { data := { d with cbuffer := (D.remove d.cbuffer kbuffer len).1 }
          frame := .read m len (D.remove d.cbuffer kbuffer len).2
          next := if 0 < nr .prod then .signal .prod else .unlock .ok
          effects := [.remove len] : Code β }) = (hD.contents d.cbuffer).take len := by
      rw [← hD.remove_items _ kbuffer _ hvalid hlen hle, Segment.proc]
      dsimp only
      split <;> rfl
    rw [hhand, hD.remove_contents _ _ _ hvalid hlen hle, List.take_append_drop]
    exact h.silent (by simp [Event.flow])

theorem kept_write (m : FMode) {len : Nat} (kbuffer : Nat → UInt8) {pt : Point}
    (hpt : pt ≠ .signalled) (hlen : len ≤ D.maxItems) (hvalid : hD.valid d.cbuffer)
    (hnonneg : 0 ≤ d.count .cons) (h : Account tr (hD.contents d.cbuffer)) :
    Kept hD tr i (fifoprocWrite D m len kbuffer pt d nr) := by
  rcases fifoprocWrite_cases (D := D) m len kbuffer hpt d nr with
    ⟨-, -, heq⟩ | ⟨-, heq⟩ | ⟨hwait, hcons, heq⟩
  · rw [heq]
    exact ⟨hvalid, h.silent (by simp)⟩
  · rw [heq]
    exact ⟨hvalid, h.silent (by simp)⟩
  · have hroom := hD.room hvalid fun hlt => hwait ⟨hlt, by omega⟩
    rw [heq]
    refine ⟨hD.insert_valid _ _ _ hvalid hlen, ?_⟩
    have hhand : inHand (Segment.proc (μ := File)
        { data := { d with cbuffer := D.insert d.cbuffer kbuffer len }
          frame := .write m len kbuffer
          next := if 0 < nr .cons then .signal .cons else .unlock .ok
          effects := [.insert (read kbuffer len)] : Code β }) = [] := by
      rw [Segment.proc]
      dsimp only
      split <;> rfl
    rw [hhand, hD.insert_contents _ _ _ hvalid hlen hroom]
    exact h.insert i _

end Code

theorem account_leave {hD : D.Lawful} {d : Data β} {tr : List (ι × Event)} (i : ι) (f : Frame)
    (x : Exit) (h : Account tr (inHand (.inside f (.unlock x)) ++ hD.contents d.cbuffer)) :
    Account (tr ++ (leave f x true).2.map (Prod.mk i)) (hD.contents d.cbuffer) := by
  cases f with
  | «open» | release | write => cases x <;> exact h.silent (by simp [leave, Event.flow])
  | read m len kbuffer =>
    cases x with
    | eintr => exact h.silent (by simp [leave, Event.flow])
    | eof => exact Account.deliver [] h i rfl
    | ok | epipe => exact Account.deliver _ h i (length_read _ _)

theorem flow_of_outside {es : List Event} (h : (client D).Outside es) :
    ∀ e ∈ es, e.flow = none := by
  rcases h with rfl | ⟨x, c, copied, y, hcall⟩ | ⟨f, rfl⟩
  · simp
  · obtain ⟨-, ⟨-, -, -, rfl⟩ | ⟨-, -, -, -, rfl⟩⟩ := done_cases hcall
    · simp [Event.flow]
    · simp [Event.flow]
  · cases f <;> simp [client, leave, Event.flow]

theorem guards_stream (hD : D.Lawful) :
    (client D).Guards (fun f => f.len ≤ D.maxItems) (Orderly D)
      (fun d (tr : List (ι × Event)) =>
        hD.valid d.cbuffer ∧ Account tr (hD.contents d.cbuffer))
      (fun p d tr =>
        hD.valid d.cbuffer ∧ Account tr (inHand p ++ hD.contents d.cbuffer)) where
  init := by
    refine ⟨hD.create_valid, ?_⟩
    change Account _ (hD.contents D.create)
    rw [hD.create_contents]
    exact ⟨by simp, Flow.books_nil⟩
  lock i f copied d nr tr hlen hallow h := by
    cases f with
    | «open» m => exact kept_open i nr m _ h.1 h.2
    | release m => exact kept_release i nr m _ h.1 h.2
    | read m len kbuffer =>
      exact kept_read i nr m kbuffer (by decide) hlen h.1 (hallow.size_le h.1 (.inl rfl)) h.2
    | write m len kbuffer =>
      exact kept_write i nr m kbuffer (by decide) hlen h.1 (hallow.nonneg .cons) h.2
  relock i f copied d nr tr hlen hallow h := by
    cases f with
    | «open» m => exact kept_open i nr m _ h.1 h.2
    | release m => exact kept_release i nr m _ h.1 h.2
    | read m len kbuffer =>
      exact kept_read i nr m kbuffer (by decide) hlen h.1 (hallow.size_le h.1 (.inr rfl)) h.2
    | write m len kbuffer =>
      exact kept_write i nr m kbuffer (by decide) hlen h.1 (hallow.nonneg .cons) h.2
  signal i f q copied d nr tr hlen hallow h := by
    cases f with
    | «open» m => exact kept_open i nr m _ h.1 h.2
    | release m => exact kept_release i nr m _ h.1 h.2
    | read | write => exact ⟨h.1, h.2.silent (List.forall_mem_nil _)⟩
  wait f q d tr h := ⟨h.1, by cases f <;> exact h.2⟩
  abort f d tr h := ⟨h.1, by cases f <;> exact h.2⟩
  unlock i f x copied d tr hlen hallow h := by
    obtain rfl : copied = true := hallow.copied
    exact ⟨h.1, account_leave i f x h.2⟩
  free_outside i es d tr hes h := ⟨h.1, h.2.silent (flow_of_outside hes)⟩
  held_outside i es p d tr hes h := ⟨h.1, h.2.silent (flow_of_outside hes)⟩

variable [Fintype ι] [DecidableEq ι] {s : State β ι}

def Complete (D : Device β) (s : State β ι) (ia : ι × Act Call) : Prop :=
  copied ia.2 = true ∧ shortRead D s.data (s.proc ia.1) ia.2 = false

theorem orderly_of_complete {as : List (ι × Act Call)} {tr : List (ι × Event)}
    (hrun : (machine D ι).Run as s tr)
    (h : (machine D ι).Along (Complete D) (machine D ι).init as) :
    (machine D ι).Along (fun s ia => Orderly D s.data (s.proc ia.1) ia.2)
      (machine D ι).init as :=
  h.mono_of_reachable (fun _ _ hs hC => ⟨hC.1, hC.2, count_nonneg hs⟩) hrun

theorem stream_of_complete (hD : D.Lawful) {as : List (ι × Act Call)} {tr : List (ι × Event)}
    (hrun : (machine D ι).Run as s tr)
    (h : (machine D ι).Along (Complete D) (machine D ι).init as) : StreamIntact tr := by
  have hguarded := guarded_of_run (frames_small D) (guards_stream hD) (orderly_of_complete hrun h)
    hrun
  rcases hguarded.free_or_held hrun.reachable with ⟨-, hacc⟩ | ⟨i, -, -, hacc⟩ <;>
  exact .of_faithful hacc.measured hacc.books.faithful

/-- In both modules, runs without short reads keep the stream intact. -/
theorem streams_intact_without_short_reads {K : Kfifo β} (hK : K.Lawful) (vector : Nat → UInt8)
    (as : List (ι × Act Call)) :
    (∀ s tr, (machine (parteB vector) ι).Run as s tr →
      (machine (parteB vector) ι).Along (Complete (parteB vector))
        (machine (parteB vector) ι).init as → StreamIntact tr) ∧
    ∀ s tr, (machine (opcional1 K) ι).Run as s tr →
      (machine (opcional1 K) ι).Along (Complete (opcional1 K)) (machine (opcional1 K) ι).init as →
      StreamIntact tr :=
  ⟨fun _ _ => stream_of_complete (parteBLawful vector),
    fun _ _ => stream_of_complete (opcional1Lawful hK)⟩

/-- A writer sends one byte and a reader asks for one. -/
def oneByte : List (Fin 2 × Act Call) :=
  bothOpen ++ [(writer, .call (.write [7]) true), (writer, .run true), (writer, .run true),
    (reader, .call (.read 1) true), (reader, .run true), (reader, .run true)]

theorem streams_intact_oneByte :
    (∃ s tr, (machine (parteB fun _ => 0) (Fin 2)).Run oneByte s tr ∧
      flows tr = [.accept [7], .deliver [7]] ∧ StreamIntact tr) ∧
    ∃ s tr, (machine (opcional1 listKfifo) (Fin 2)).Run oneByte s tr ∧
      flows tr = [.accept [7], .deliver [7]] ∧ StreamIntact tr := by
  obtain ⟨hB, hO⟩ := streams_intact_without_short_reads listKfifoLawful (fun _ => 0) oneByte
  constructor
  · have heval : ((machine (parteB fun _ => 0) (Fin 2)).exec
        (machine (parteB fun _ => 0) (Fin 2)).init oneByte).map (fun r => flows r.2) =
        some [.accept [7], .deliver [7]] := by
      decide +kernel
    obtain ⟨s, tr, hrun, hflows⟩ := Machine.exists_run_of_eval heval
    exact ⟨s, tr, hrun, hflows, hB s tr hrun (by unfold Complete; decide +kernel)⟩
  · have heval : ((machine (opcional1 listKfifo) (Fin 2)).exec
        (machine (opcional1 listKfifo) (Fin 2)).init oneByte).map (fun r => flows r.2) =
        some [.accept [7], .deliver [7]] := by
      decide +kernel
    obtain ⟨s, tr, hrun, hflows⟩ := Machine.exists_run_of_eval heval
    exact ⟨s, tr, hrun, hflows, hO s tr hrun (by unfold Complete; decide +kernel)⟩

/-- The writer sends one byte and closes, and then the reader asks for two. -/
def partialMessage : List (Fin 2 × Act Call) :=
  bothOpen ++ [(writer, .call (.write [7]) true), (writer, .run true), (writer, .run true),
    (writer, .call .release true), (writer, .run true), (writer, .run true),
    (reader, .call (.read 2) true), (reader, .run true), (reader, .run true)]

theorem partialMessage_not_intact :
    ∃ s tr, (machine (parteB fun _ => 0) (Fin 2)).Run partialMessage s tr ∧ ¬StreamIntact tr := by
  have heval : ((machine (parteB fun _ => 0) (Fin 2)).exec
      (machine (parteB fun _ => 0) (Fin 2)).init partialMessage).map (fun r => flows r.2) =
      some [.accept [7], .deliver [0, 0]] := by
    decide +kernel
  obtain ⟨s, tr, hrun, hflows⟩ := Machine.exists_run_of_eval heval
  refine ⟨s, tr, hrun, fun hintact => ?_⟩
  have hprefix := hintact.faithful [.accept [7]] [0, 0] [] hflows
  exact absurd hprefix (by decide)

end LinuxInternals.Fifoproc
