import LinuxInternals.Fifoproc.Stream

/-!
# Writes never overwrite

`insert_items_cbuffer_t` moves `head` when the items do not fit. `fifoproc_write` never lets
it: between its last test and the insertion it holds `mtx` all the time, and the test can
end with too little room only when there are no readers, which it tests next.
-/

namespace LinuxInternals.Fifoproc

open CData SemMonitor Client

variable {β ι : Type} {D : Device β}

/-- The events of the call that process `i` is in. -/
def currentCall [DecidableEq ι] (i : ι) (tr : List (ι × Event)) : List Event :=
  tr.foldl (fun call je =>
    if je.1 = i then
      match je.2 with
      | .ret _ _ _ => []
      | e => call ++ [e]
    else call) []

/-- In a write, after the insertion. -/
def committed : Process → Bool
  | .inside (.write _ _ _) (.signal _) | .inside (.write _ _ _) (.unlock .ok) => true
  | _ => false

def Event.other : Event → Bool
  | .count _ _ | .remove _ | .clear => true
  | .insert _ | .ret _ _ _ => false

theorem body_effects (f : Frame) (pt : Point) (d : Data β) (nr : Role → Int) :
    (∀ e ∈ (body D f pt d nr).effects, e.other = true) ∨
    ∃ m len kbuffer, f = .write m len kbuffer ∧ pt ≠ .signalled ∧
      ¬(D.gaps d.cbuffer < len ∧ 0 < d.count .cons) ∧ d.count .cons ≠ 0 ∧
      (body D f pt d nr).effects = [.insert (read kbuffer len)] ∧
      (body D f pt d nr).data = { d with cbuffer := D.insert d.cbuffer kbuffer len } ∧
      committed (body D f pt d nr).proc = true := by
  cases f with
  | «open» m =>
    left
    cases pt with
    | entered =>
      simp only [body, fifoprocOpen]
      split <;> simp [openLoop, Event.other]
    | signalled | relocked => simp [body, fifoprocOpen, openLoop]
  | release m =>
    have htail (d : Data β) (es : List Event) (hes : ∀ e ∈ es, e.other = true) :
        ∀ e ∈ (releaseTail D m d es).effects, e.other = true := by
      rcases releaseTail_cases (D := D) m d es with ⟨-, -, heq⟩ | ⟨-, heq⟩
      · rw [heq]
        exact List.forall_mem_append.mpr ⟨hes, by simp [Event.other]⟩
      · rw [heq]
        exact hes
    left
    cases pt with
    | entered =>
      simp only [body, fifoprocRelease]
      split
      · simp [Event.other]
      · exact htail _ _ (by simp [Event.other])
    | signalled | relocked => exact htail _ _ (by simp)
  | read m len kbuffer =>
    left
    rcases eq_or_ne pt .signalled with rfl | hpt
    · simp [body, fifoprocRead]
    · rw [body]
      rcases fifoprocRead_cases (D := D) m len kbuffer hpt d nr with
        ⟨-, -, heq⟩ | ⟨-, -, -, heq⟩ | ⟨-, -, heq⟩ <;> simp [heq, Event.other]
  | write m len kbuffer =>
    rcases eq_or_ne pt .signalled with rfl | hpt
    · simp [body, fifoprocWrite]
    · rw [body]
      rcases fifoprocWrite_cases (D := D) m len kbuffer hpt d nr with
        ⟨-, -, heq⟩ | ⟨-, heq⟩ | ⟨hwait, hcons, heq⟩
      · simp [heq]
      · simp [heq]
      · refine .inr ⟨m, len, kbuffer, rfl, hpt, hwait, hcons, by rw [heq], by rw [heq], ?_⟩
        rw [heq, Segment.proc]
        dsimp only
        split <;> rfl

theorem leave_effects (f : Frame) (x : Exit) (copied : Bool) :
    ∃ v out, (leave f x copied).2 = [.ret f.op v out] := by
  cases f <;> cases x <;> cases copied <;> exact ⟨_, _, rfl⟩

variable {sh sh' : Shared (Data β) Role} {p p' : Process} {a : Act Call} {es : List Event}

/-- What a step reports: changes other than an insertion, one return, or one insertion by
a write that has just taken `mtx`. -/
theorem effects_of_moves (h : (client D).Moves sh p a sh' p' es) :
    (∀ e ∈ es, e.other = true) ∨ (sh'.data = sh.data ∧ ∃ op v out, es = [.ret op v out]) ∨
    ∃ m len kbuffer st, p = .inside (.write m len kbuffer) st ∧ es = [.insert (read kbuffer len)] ∧
      ¬(D.gaps sh.data.cbuffer < len ∧ 0 < sh.data.count .cons) ∧ sh.data.count .cons ≠ 0 ∧
      sh'.data = { sh.data with cbuffer := D.insert sh.data.cbuffer kbuffer len } ∧
      committed p' = true := by
  cases h with
  | enter | wait | take | abort | sleepIntr => exact .inl (by simp)
  | refuse hcall =>
    obtain ⟨-, ⟨-, -, -, rfl⟩ | ⟨-, e, -, -, rfl⟩⟩ := done_cases hcall
    · exact .inr (.inl ⟨rfl, .read, .error .enospc, [], rfl⟩)
    · exact .inr (.inl ⟨rfl, .write, .error e, [], rfl⟩)
  | @lock f copied g hm hg | @relock f copied g hm hg =>
    subst hg
    rcases body_effects (D := D) f _ sh.data sh.nrWaiting with
      hother | ⟨m, len, kbuffer, rfl, -, hwait, hcons, heffects, hdata, hcommitted⟩
    · exact .inl hother
    · rw [commit_data]
      exact .inr (.inr ⟨m, len, kbuffer, _, rfl, heffects, hwait, hcons, hdata, hcommitted⟩)
  | @signal f q copied g hg =>
    subst hg
    rcases body_effects (D := D) f .signalled sh.data
        ((sh.post q).addWaiting q (-1)).nrWaiting with hother | ⟨m, len, kbuffer, -, hpt, -⟩
    · exact .inl hother
    · exact absurd rfl hpt
  | @unlock f x copied y es hleave =>
    obtain ⟨v, out, heffects⟩ := leave_effects f x copied
    exact .inr (.inl ⟨rfl, f.op, v, out, (congrArg Prod.snd hleave).symm.trans heffects⟩)
  | @lockIntr f y es hleave | @relockIntr f y es hleave =>
    obtain ⟨v, out, heffects⟩ := leave_effects f .eintr true
    exact .inr (.inl ⟨rfl, f.op, v, out, (congrArg Prod.snd hleave).symm.trans heffects⟩)

theorem cbuffer_of_write (h : (client D).Moves sh p a sh' p' es) {m : FMode} {len : Nat}
    {kbuffer : Nat → UInt8} {st : Stage Role Exit} (hp : p = .inside (.write m len kbuffer) st)
    (hxs : ∀ xs, Event.insert xs ∉ es) : sh'.data.cbuffer = sh.data.cbuffer := by
  have hcode (pt : Point) (hpt : pt ≠ .signalled) (d : Data β) (nr : Role → Int)
      (hxs : ∀ xs, Event.insert xs ∉ (fifoprocWrite D m len kbuffer pt d nr).effects) :
      (fifoprocWrite D m len kbuffer pt d nr).data = d := by
    rcases fifoprocWrite_cases (D := D) m len kbuffer hpt d nr with
      ⟨-, -, heq⟩ | ⟨-, heq⟩ | ⟨-, -, heq⟩
    · rw [heq]
    · rw [heq]
    · rw [heq] at hxs
      exact absurd List.mem_cons_self (hxs _)
  cases h with
  | enter | refuse => cases hp
  | wait | take | abort | sleepIntr | unlock | lockIntr | relockIntr => rfl
  | lock hm hg =>
    cases hp
    subst hg
    rw [commit_data]
    exact congrArg Data.cbuffer (hcode .entered (by decide) sh.data sh.nrWaiting hxs)
  | relock hm hg =>
    cases hp
    subst hg
    rw [commit_data]
    exact congrArg Data.cbuffer (hcode .relocked (by decide) sh.data sh.nrWaiting hxs)
  | signal hg =>
    cases hp
    subst hg
    rw [commit_data]
    rfl

theorem committed_step (h : (client D).Moves sh p a sh' p' es) (hp : committed p = true) :
    (committed p' = true ∧ es = []) ∨ ∃ n, es = [.ret .write (.done n) []] := by
  cases p with
  | user => cases hp
  | inside f st =>
    cases f with
    | «open» | release | read => cases hp
    | write m len kbuffer =>
      cases h with
      | signal hg =>
        subst hg
        exact .inl ⟨rfl, rfl⟩
      | @unlock _ x _ _ _ hleave =>
        cases x with
        | ok => exact .inr ⟨len, (congrArg Prod.snd hleave).symm⟩
        | eof | epipe | eintr => cases hp
      | lock | relock | wait | take | abort | lockIntr | sleepIntr | relockIntr => cases hp

variable [DecidableEq ι]

theorem currentCall_snoc (i j : ι) (tr : List (ι × Event)) (e : Event) :
    currentCall i (tr ++ [(j, e)]) =
      if j = i then
        match e with
        | .ret _ _ _ => []
        | e => currentCall i tr ++ [e]
      else currentCall i tr := by
  rw [currentCall, List.foldl_append]
  rfl

theorem currentCall_of_ne {i j : ι} (hij : j ≠ i) (tr : List (ι × Event)) (es : List Event) :
    currentCall i (tr ++ es.map (Prod.mk j)) = currentCall i tr := by
  induction es using List.reverseRecOn with
  | nil => simp
  | append_singleton es e ih =>
    rw [List.map_append, ← List.append_assoc, List.map_singleton, currentCall_snoc, if_neg hij, ih]

theorem currentCall_of_other (i : ι) (tr : List (ι × Event)) {es : List Event}
    (hes : ∀ e ∈ es, e.other = true) :
    currentCall i (tr ++ es.map (Prod.mk i)) = currentCall i tr ++ es := by
  induction es using List.reverseRecOn with
  | nil => simp
  | append_singleton es e ih =>
    obtain ⟨hes, he⟩ := List.forall_mem_append.mp hes
    have hother := he e List.mem_cons_self
    rw [List.map_append, ← List.append_assoc, List.map_singleton, currentCall_snoc, if_pos rfl,
      ih hes, ← List.append_assoc]
    cases e with
    | ret => cases hother
    | insert => cases hother
    | count | remove | clear => rfl

/-- A call that has inserted is committed, and no write that returned an error has. -/
structure NoFailedInsert (s : State β ι) (tr : List (ι × Event)) : Prop where
  running : ∀ i xs, Event.insert xs ∈ currentCall i tr → committed (s.proc i) = true
  returned : ∀ pre i e out, pre ++ [(i, Event.ret .write (.error e) out)] <+: tr →
    ∀ xs, Event.insert xs ∉ currentCall i pre

theorem NoFailedInsert.returned_append {s : State β ι} {tr : List (ι × Event)}
    (h : NoFailedInsert s tr) (j : ι) {es : List Event}
    (hes : ∀ e ∈ es, ∀ op v out, e ≠ .ret op v out) :
    ∀ pre i e out, pre ++ [(i, Event.ret .write (.error e) out)] <+: tr ++ es.map (Prod.mk j) →
      ∀ xs, Event.insert xs ∉ currentCall i pre := by
  induction es using List.reverseRecOn with
  | nil =>
    rw [List.map_nil, List.append_nil]
    exact h.returned
  | append_singleton es x ih =>
    obtain ⟨hes, hx⟩ := List.forall_mem_append.mp hes
    intro pre i e out hpre
    rw [List.map_append, ← List.append_assoc, List.map_singleton, List.prefix_concat_iff] at hpre
    rcases hpre with heq | hpre
    · have hlast := (Prod.mk.inj (List.append_singleton_inj.mp heq).2).2
      exact absurd hlast.symm (hx x List.mem_cons_self _ _ _)
    · exact ih hes pre i e out hpre

theorem NoFailedInsert.step {s s' : State β ι} {tr : List (ι × Event)} {j : ι} {a : Act Call}
    {es : List (ι × Event)} (h : NoFailedInsert s tr)
    (hstep : (machine D ι).step s (j, a) = some (s', es)) : NoFailedInsert s' (tr ++ es) := by
  obtain ⟨es, hmoves, hproc, rfl⟩ := moves_of_step hstep
  have hother (i : ι) (hij : j ≠ i) (xs : List UInt8)
      (hxs : Event.insert xs ∈ currentCall i (tr ++ es.map (Prod.mk j))) :
      committed (s'.proc i) = true := by
    rw [currentCall_of_ne hij] at hxs
    rw [hproc, Function.update_of_ne hij.symm]
    exact h.running i xs hxs
  rcases effects_of_moves hmoves with hes | ⟨-, op, v, out, rfl⟩ |
    ⟨m, len, kbuffer, st, hp, rfl, -, -, -, hcommitted⟩
  · constructor
    · intro i xs hxs
      rcases eq_or_ne j i with rfl | hij
      · rw [currentCall_of_other j tr hes, List.mem_append] at hxs
        rcases hxs with hxs | hxs
        · rcases committed_step hmoves (h.running j xs hxs) with ⟨hp', -⟩ | ⟨n, rfl⟩
          · exact hp'
          · cases hes _ List.mem_cons_self
        · cases hes _ hxs
      · exact hother i hij xs hxs
    · apply h.returned_append j
      rintro e he op v out rfl
      cases hes _ he
  · constructor
    · intro i xs hxs
      rcases eq_or_ne j i with rfl | hij
      · rw [List.map_singleton, currentCall_snoc, if_pos rfl] at hxs
        cases hxs
      · exact hother i hij xs hxs
    · intro pre i e out' hpre xs hxs
      rw [List.map_singleton, List.prefix_concat_iff] at hpre
      rcases hpre with heq | hpre
      · obtain ⟨rfl, hlast⟩ := List.append_singleton_inj.mp heq
        cases hlast
        rcases committed_step hmoves (h.running j xs hxs) with ⟨-, hnil⟩ | ⟨n, hret⟩
        · cases hnil
        · cases hret
      · exact h.returned pre i e out' hpre xs hxs
  · constructor
    · intro i xs hxs
      rcases eq_or_ne j i with rfl | hij
      · exact hcommitted
      · exact hother i hij xs hxs
    · apply h.returned_append j
      simp

theorem noFailedInsert_of_run {s : State β ι} {as : List (ι × Act Call)}
    {tr : List (ι × Event)} (hrun : (machine D ι).Run as s tr) : NoFailedInsert s tr := by
  refine hrun.invariant (C := fun _ _ => True) (I := NoFailedInsert) ?_ ?_
    (Machine.along_true _ _)
  · constructor
    · intro i xs hxs
      cases hxs
    · intro pre i e out hpre
      have hnil := List.prefix_nil.mp hpre
      simp at hnil
  · rintro s t ⟨j, a⟩ s' es h - hstep
    exact h.step hstep

variable [Fintype ι]

/-- No run overwrites an accepted byte: an insertion finds its reader and its room, and a
write that fails has not inserted. -/
theorem no_accepted_byte_overwritten {vector : Nat → UInt8} {s : State (Cbuffer UInt8) ι}
    {as : List (ι × Act Call)} {tr : List (ι × Event)}
    (hrun : (machine (parteB vector) ι).Run as s tr) :
    (∀ i a s' es xs, (machine (parteB vector) ι).step s (i, a) = some (s', es) →
      (i, Event.insert xs) ∈ es →
      ∃ m kbuffer st, s.proc i = .inside (.write m xs.length kbuffer) st ∧
        xs = read kbuffer xs.length ∧
        xs.length ≤ s.data.cbuffer.maxSize - s.data.cbuffer.size ∧ 0 < s.data.count .cons ∧
        s'.data.cbuffer =
          (s.data.cbuffer.insertItemsCbufferT kbuffer (Int32.ofNat xs.length)).1 ∧
        s'.data.cbuffer.head = s.data.cbuffer.head ∧
        s'.data.cbuffer.size = s.data.cbuffer.size + xs.length ∧
        s'.data.cbuffer.contents = s.data.cbuffer.contents ++ xs) ∧
    (∀ i a s' es m len kbuffer st,
      (machine (parteB vector) ι).step s (i, a) = some (s', es) →
      s.proc i = .inside (.write m len kbuffer) st → (∀ xs, (i, Event.insert xs) ∉ es) →
      s'.data.cbuffer = s.data.cbuffer) ∧
    (∀ i a s' es e out, (machine (parteB vector) ι).step s (i, a) = some (s', es) →
      (i, Event.ret .write (.error e) out) ∈ es → s'.data.cbuffer = s.data.cbuffer) ∧
    ∀ pre i e out, pre ++ [(i, Event.ret .write (.error e) out)] <+: tr →
      ∀ xs, Event.insert xs ∉ currentCall i pre := by
  have hs := hrun.reachable
  obtain ⟨hwf, hmax⟩ : s.data.cbuffer.Wf ∧ s.data.cbuffer.maxSize = 50 :=
    reachable_valid (keeps_device (parteBLawful vector)) hs
  refine ⟨?_, ?_, ?_, (noFailedInsert_of_run hrun).returned⟩
  · intro i a s' es xs hstep hxs
    obtain ⟨es, hmoves, -, rfl⟩ := moves_of_step hstep
    obtain ⟨e, he, heq⟩ := List.mem_map.mp hxs
    cases heq
    rcases effects_of_moves hmoves with hother | ⟨-, op, v, out, rfl⟩ |
      ⟨m, len, kbuffer, st, hp, rfl, hwait, hcons, hdata, -⟩
    · cases hother _ he
    · simp at he
    · obtain rfl : xs = read kbuffer len := by simpa using he
      have hlen : len ≤ 50 := reachable_frame (frames_small (parteB vector)) hs hp
      have hreader : 0 < s.data.count .cons := by
        have hnonneg := count_nonneg hs .cons
        omega
      have hroom := (parteBLawful vector).room ⟨hwf, hmax⟩ fun hlt => hwait ⟨hlt, hreader⟩
      change s.data.cbuffer.contents.length + len ≤ 50 at hroom
      rw [Cbuffer.length_contents] at hroom
      rw [length_read, hdata]
      exact ⟨m, kbuffer, st, hp, rfl, by omega, hreader, rfl,
        parteB_insert_of_room vector hwf hmax kbuffer hroom⟩
  · intro i a s' es m len kbuffer st hstep hp hxs
    obtain ⟨es, hmoves, -, rfl⟩ := moves_of_step hstep
    exact cbuffer_of_write hmoves hp fun xs hmem => hxs xs (List.mem_map_of_mem hmem)
  · intro i a s' es e out hstep hmem
    obtain ⟨es, hmoves, -, rfl⟩ := moves_of_step hstep
    obtain ⟨x, hx, heq⟩ := List.mem_map.mp hmem
    cases heq
    rcases effects_of_moves hmoves with hother | ⟨hdata, -⟩ | ⟨m, len, kbuffer, st, -, rfl, -⟩
    · cases hother _ hx
    · rw [hdata]
    · simp at hx

def aboutToWrite : List (Fin 2 × Act Call) := bothOpen ++ [(writer, .call (.write [7]) true)]

theorem no_accepted_byte_overwritten_aboutToWrite :
    ∃ s tr s', (machine (parteB fun _ => 0) (Fin 2)).Run aboutToWrite s tr ∧
      (machine (parteB fun _ => 0) (Fin 2)).step s (writer, .run true) =
        some (s', [(writer, .insert [7])]) ∧
      s'.data.cbuffer.contents = s.data.cbuffer.contents ++ [7] := by
  have heval : ((machine (parteB fun _ => 0) (Fin 2)).exec
      (machine (parteB fun _ => 0) (Fin 2)).init aboutToWrite).map (fun r =>
        ((machine (parteB fun _ => 0) (Fin 2)).step r.1 (writer, .run true)).map Prod.snd) =
      some (some [(writer, .insert [7])]) := by
    decide +kernel
  obtain ⟨s, tr, hrun, hstep⟩ := Machine.exists_run_of_eval heval
  obtain ⟨⟨s', es⟩, hstep, rfl⟩ := Option.map_eq_some_iff.mp hstep
  obtain ⟨m, kbuffer, st, -, -, -, -, -, -, -, hcontents⟩ :=
    (no_accepted_byte_overwritten hrun).1 1 (.run true) s' _ [7] hstep List.mem_cons_self
  exact ⟨s, tr, s', hrun, hstep, hcontents⟩

end LinuxInternals.Fifoproc
