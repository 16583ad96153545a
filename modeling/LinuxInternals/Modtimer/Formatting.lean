import LinuxInternals.Lib.Sprintf
import LinuxInternals.Modtimer.Steps

/-!
# The text that `modtimer_read` makes

The loop of `modtimer_read` writes a line for every number of the list into an array of 100
bytes, and all of them go to the user. Nothing bounds the list or looks at the length that the
user gave, so a read stays inside both buffers exactly when the list that it finds is short.
-/

namespace LinuxInternals.Modtimer

open SemMonitor Text

/-- The text of one number, `"%u\n"`. -/
def numberLine (x : UInt32) : List UInt8 := decimal x.toNat ++ [10]

/-- The offsets of `modlistbuffer` that the loop stores to. -/
def readStores (mylist : List UInt32) : List Nat := stores 0 (mylist.map numberLine)

theorem render_eq_flatten (mylist : List UInt32) :
    render mylist = (mylist.map numberLine).flatten :=
  List.flatMap_def ..

theorem length_render (mylist : List UInt32) :
    (render mylist).length = (mylist.map fun x => (decimal x.toNat).length + 1).sum := by
  rw [render, List.length_flatMap]
  simp

theorem readStores_lt_iff {mylist : List UInt32} (h : mylist ≠ []) (size : Nat) :
    (∀ i ∈ readStores mylist, i < size) ↔ (render mylist).length < size := by
  rw [readStores, stores_lt_iff (by simpa using h), Nat.zero_add, render_eq_flatten]

variable {ι : Type} [DecidableEq ι] {msecsToJiffies : UInt32 → UInt64}

namespace State

/-- The user's length and the list, if the step lets a read get to its loop. -/
def formats (s : State ι) : Act ι → Option (Nat × List UInt32)
  | .mon p (.run _) =>
    match s.mon.proc p with
    | .inside (.read _ _ len _) .lock | .inside (.read _ _ len _) .relock =>
      if 0 < s.mon.mtx ∧ s.mon.data ≠ [] then some (len, s.mon.data) else none
    | _ => none
  | _ => none

/-- A read that the step lets run its loop stays inside `modlistbuffer`, and copies no more
than it was asked for. -/
def ReadInside [Fintype ι] (msecsToJiffies : UInt32 → UInt64) (s : State ι) (a : Act ι) : Prop :=
  ∀ s' es p mylist, step msecsToJiffies s a = some (s', es) → (p, .removed mylist) ∈ es →
    (∀ i ∈ readStores mylist, i < 100) ∧
    ∀ file off len modlistbuffer st,
      s'.mon.proc p = .inside (.read file off len modlistbuffer) st → modlistbuffer.length ≤ len

/-- The lines that the loop finds fit. -/
def ReadFits (s : State ι) (a : Act ι) : Prop :=
  ∀ r ∈ s.formats a, (r.2.map fun x => (decimal x.toNat).length + 1).sum ≤ min 99 r.1

instance ReadFits.decidable (s : State ι) (a : Act ι) : Decidable (s.ReadFits a) :=
  inferInstanceAs (Decidable (∀ r ∈ s.formats a, _))

end State

variable {s s' : State ι} {a : Act ι} {es : List (Option ι × Event)}

omit [DecidableEq ι] in
theorem not_removed_of_leave {f : Frame ι} {x : Exit} {copied : Bool} {mylist : List UInt32} :
    Event.removed mylist ∉ (leave f x copied).2 := by
  cases f with
  | read file off len out => cases x <;> cases copied <;> simp [leave]
  | add | cleanup => exact List.not_mem_nil

omit [DecidableEq ι] in
theorem removed_of_body {f : Frame ι} {pt : Point} {data mylist : List UInt32} {nr : Queue → Int}
    (h : Event.removed mylist ∈ (body f pt data nr).effects) :
    ∃ file off len out, f = .read file off len out ∧ pt ≠ .signalled ∧ data = mylist ∧
      mylist ≠ [] ∧ (body f pt data nr).proc =
        (.inside (.read file off len (render mylist)) (.unlock .ok) :
          Proc Unit (Frame ι) Queue Exit) := by
  cases f with
  | read file off len out =>
    cases pt with
    | entered | relocked =>
      cases data with
      | nil => cases h
      | cons x xs =>
        cases List.mem_singleton.mp h
        exact ⟨file, off, len, out, rfl, by simp, rfl, List.cons_ne_nil x xs, rfl⟩
    | signalled => cases h
  | add aux count =>
    cases pt with
    | entered => cases List.mem_singleton.mp h
    | signalled | relocked => cases h
  | cleanup =>
    cases pt with
    | entered => cases List.mem_singleton.mp h
    | signalled | relocked => cases h

theorem formats_of_removed {m m' : Monitor ι} {p q : Option ι} {b : SemMonitor.Act (Call ι)}
    (h : (monitor ι).step m (p, b) = some (m', es)) {mylist : List UInt32}
    (hremoved : (q, Event.removed mylist) ∈ es) :
    ∃ file off len out copied, (m.proc p = .inside (.read file off len out) .lock ∨
        m.proc p = .inside (.read file off len out) .relock) ∧
      b = .run copied ∧ 0 < m.mtx ∧ m.data = mylist ∧ mylist ≠ [] ∧ q = p ∧
      m'.proc p = .inside (.read file off len (render mylist)) (.unlock .ok) := by
  obtain ⟨es, hmoves, -, rfl⟩ := SemMonitor.moves_of_step h
  obtain ⟨e, he, heq⟩ := List.mem_map.mp hremoved
  cases heq
  generalize m.proc p = x at hmoves
  generalize m'.proc p = x' at hmoves ⊢
  generalize m'.toShared = sh' at hmoves
  cases hmoves with
  | enter | wait | take | abort | sleepIntr => cases he
  | refuse hcall =>
    simp only [client, syscall] at hcall
    split at hcall
    · split at hcall
      · cases hcall
        cases List.mem_singleton.mp he
      · cases hcall
    · cases hcall
    · cases hcall
  | unlock hleave | lockIntr hleave | relockIntr hleave =>
    obtain rfl := congrArg Prod.snd hleave
    exact absurd he not_removed_of_leave
  | lock hm hg =>
    subst hg
    obtain ⟨file, off, len, out, rfl, -, hdata, hne, hproc⟩ := removed_of_body he
    exact ⟨file, off, len, out, _, .inl rfl, rfl, hm, hdata, hne, rfl, hproc⟩
  | relock hm hg =>
    subst hg
    obtain ⟨file, off, len, out, rfl, -, hdata, hne, hproc⟩ := removed_of_body he
    exact ⟨file, off, len, out, _, .inr rfl, rfl, hm, hdata, hne, rfl, hproc⟩
  | signal hg =>
    subst hg
    obtain ⟨-, -, -, -, -, hpt, -⟩ := removed_of_body he
    exact absurd rfl hpt

variable [Fintype ι]

theorem formats_of_step (hstep : step msecsToJiffies s a = some (s', es)) {p : Option ι}
    {mylist : List UInt32} (hremoved : (p, Event.removed mylist) ∈ es) :
    ∃ len, s.formats a = some (len, mylist) ∧ mylist ≠ [] ∧
      ∃ file off, s'.mon.proc p =
        .inside (.read file off len (render mylist)) (.unlock .ok) := by
  -- only the monitor removes lists, and its own calls only enter
  have hmon {q : Option ι} {b : SemMonitor.Act (Call ι)} {m : Monitor ι}
      {es : List (Option ι × Event)} (hstep : (monitor ι).step s.mon (q, b) = some (m, es))
      (hremoved : (p, Event.removed mylist) ∈ es) :
      ∃ len, s.formats (.mon q b) = some (len, mylist) ∧ mylist ≠ [] ∧
        (∃ file off, m.proc p = .inside (.read file off len (render mylist)) (.unlock .ok)) ∧
        ∃ copied, b = .run copied := by
    obtain ⟨file, off, len, out, copied, hproc, rfl, hm, hdata, hne, rfl, hproc'⟩ :=
      formats_of_removed hstep hremoved
    refine ⟨len, ?_, hne, ⟨file, off, hproc'⟩, copied, rfl⟩
    rcases hproc with hproc | hproc <;> simp [State.formats, hproc, hm, hdata, hne]
  cases moves_of_step hstep with
  | config | expire | isPending | sizeNe | schedule | refuse | addTimer | cleanup =>
    simp at hremoved
  | notPending | sizeEq | modTimer | startWork | notEmpty | remove | endWork | accept | release
  | delTimer | flush => cases hremoved
  | insert _ hes =>
    subst hes
    cases eq_overwritten_of_mem hremoved
  | isEmpty _ _ hcall =>
    obtain ⟨-, -, -, -, copied, hb⟩ := hmon hcall hremoved
    cases hb
  | clear _ hcall =>
    rcases List.mem_cons.mp hremoved with heq | hremoved
    · cases heq
    · obtain ⟨-, -, -, -, copied, hb⟩ := hmon hcall hremoved
      cases hb
  | mon _ hrun =>
    obtain ⟨len, hformats, hne, hproc, -⟩ := hmon hrun hremoved
    exact ⟨len, hformats, hne, hproc⟩

omit [DecidableEq ι] [Fintype ι] in
theorem act_of_list {sh : Shared (List UInt32) Queue} {file : ι} {off len : Nat}
    {out : List UInt8} {st : Stage Queue Exit} (hst : st = .lock ∨ st = .relock)
    (hm : 0 < sh.mtx) (hne : sh.data ≠ []) (copied : Bool) :
    (client ι).act sh (.inside (.read file off len out) st) (.run copied) =
      some ({ sh.down with data := [] },
        .inside (.read file off len (render sh.data)) (.unlock .ok), [.removed sh.data]) := by
  obtain ⟨data, mtx, sem, nrWaiting⟩ := sh
  obtain ⟨x, xs, rfl⟩ := List.exists_cons_of_ne_nil hne
  rcases hst with rfl | rfl <;> exact if_pos hm

theorem step_of_formats {len : Nat} {mylist : List UInt32}
    (h : s.formats a = some (len, mylist)) :
    mylist ≠ [] ∧ ∃ s' p file off, step msecsToJiffies s a = some (s', [(p, .removed mylist)]) ∧
      s'.mon.proc p = .inside (.read file off len (render mylist)) (.unlock .ok) := by
  cases a with
  | config | expire | fire | work | «open» | release | file => cases h
  | mon p b =>
    cases b with
    | call | intr => cases h
    | run copied =>
      have hread {file : ι} {off len' : Nat} {out : List UInt8} {st : Stage Queue Exit}
          (hproc : s.mon.proc p = .inside (.read file off len' out) st)
          (hst : st = .lock ∨ st = .relock)
          (h : (if 0 < s.mon.mtx ∧ s.mon.data ≠ [] then some (len', s.mon.data) else none) =
            some (len, mylist)) :
          mylist ≠ [] ∧ ∃ s' p' file off,
            step msecsToJiffies s (.mon p (.run copied)) = some (s', [(p', .removed mylist)]) ∧
              s'.mon.proc p' = .inside (.read file off len (render mylist)) (.unlock .ok) := by
        obtain ⟨⟨hm, hne⟩, heq⟩ := Option.ite_none_right_eq_some.mp h
        obtain ⟨rfl, rfl⟩ := Prod.mk.inj (Option.some.inj heq)
        have hact : (client ι).act s.mon.toShared (.inside (.read file off len' out) st)
            (.run copied) = some _ := act_of_list hst hm hne copied
        rw [← hproc] at hact
        obtain ⟨m, hmon, hm'⟩ : ∃ m,
            (monitor ι).step s.mon (p, .run copied) = some (m, [(p, .removed s.mon.data)]) ∧
              m.proc p = .inside (.read file off len' (render s.mon.data)) (.unlock .ok) :=
          ⟨_, machine_step_iff.mpr ⟨_, _, _, hact, rfl, rfl⟩, Function.update_self ..⟩
        refine ⟨hne, { s with mon := m }, p, file, off, ?_, hm'⟩
        simp [step, hmon]
      simp only [State.formats] at h
      split at h
      · exact hread ‹_› (.inl rfl) h
      · exact hread ‹_› (.inr rfl) h
      · cases h

/-- A read stays inside both buffers exactly when the lines it finds fit. -/
theorem readInside_iff_readFits : s.ReadInside msecsToJiffies a ↔ s.ReadFits a := by
  constructor
  · rintro hinside ⟨len, mylist⟩ hformats
    obtain ⟨hne, s', p, file, off, hstep, hproc⟩ := step_of_formats hformats
    obtain ⟨hstores, hlen⟩ := hinside s' _ p mylist hstep (List.mem_singleton_self _)
    rw [readStores_lt_iff hne] at hstores
    have hcopied := hlen _ _ _ _ _ hproc
    rw [← length_render]
    dsimp only
    omega
  · intro hfits s' es p mylist hstep hremoved
    obtain ⟨len, hformats, hne, file, off, hproc⟩ := formats_of_step hstep hremoved
    have hlen := hfits (len, mylist) hformats
    rw [← length_render] at hlen
    dsimp only at hlen
    refine ⟨(readStores_lt_iff hne 100).mpr (by omega), ?_⟩
    intro file' off' len' out st hproc'
    rw [hproc] at hproc'
    cases hproc'
    omega

variable {vector : Nat → Int32} {hz : Int64}

/-- Every read of a run stays inside exactly when each finds a list that fits. -/
theorem reads_inside_iff_lists_fit {as : List (Act ι)} {tr : List (Option ι × Event)}
    (hrun : (machine vector hz msecsToJiffies ι).Run as s tr) :
    (machine vector hz msecsToJiffies ι).Along (fun s a => s.ReadInside msecsToJiffies a)
        (machine vector hz msecsToJiffies ι).init as ↔
      (machine vector hz msecsToJiffies ι).Along (fun s a => s.ReadFits a)
        (machine vector hz msecsToJiffies ι).init as := by
  constructor
  · exact Machine.Along.mono_of_reachable (fun s a _ => readInside_iff_readFits.mp) hrun
  · exact Machine.Along.mono_of_reachable (fun s a _ => readInside_iff_readFits.mpr) hrun

/-- Two numbers of ten digits get to the list, and a read of 64 bytes takes them away. -/
def twoNumbers : List (Act Unit) :=
  [.config 0 (bytes "max_random 9999999999") true,
    .config 0 (bytes "emergency_threshold 20") true, .open (), .file (),
    .expire 4294967295, .fire, .fire, .fire, .fire,
    .expire 4294967294, .fire, .fire, .fire, .fire, .fire] ++
    List.replicate 6 .work ++
    [.mon none (.run true), .mon none (.run true), .mon (some ()) (.call (.read () 0 64) true),
      .mon (some ()) (.run true)]

theorem reads_inside_iff_lists_fit_twoNumbers :
    ∃ s tr, (machine (fun _ => 0) 250 (fun _ => 1) Unit).Run twoNumbers s tr ∧
      (some (), .removed [4294967295, 4294967294]) ∈ tr ∧
      (machine (fun _ => 0) 250 (fun _ => 1) Unit).Along
        (fun s a => s.ReadInside (fun _ => 1) a)
        (machine (fun _ => 0) 250 (fun _ => 1) Unit).init twoNumbers := by
  have heval : ((machine (fun _ => 0) 250 (fun _ => 1) Unit).exec
      (machine (fun _ => 0) 250 (fun _ => 1) Unit).init twoNumbers).map
        (fun r => decide ((some (), .removed [4294967295, 4294967294]) ∈ r.2)) = some true := by
    decide +kernel
  obtain ⟨s, tr, hrun, htr⟩ := Machine.exists_run_of_eval heval
  exact ⟨s, tr, hrun, of_decide_eq_true htr,
    (reads_inside_iff_lists_fit hrun).mpr (by decide +kernel)⟩

/-- Ten numbers of ten digits get to the list, and a read of 50 bytes is about to find them. -/
def longList : List (Act Unit) :=
  [.config 0 (bytes "max_random 9999999999") true, .open (), .file ()] ++
    (List.replicate 8 [Act.expire 4294967295, .fire, .fire, .fire, .fire]).flatten ++ [.fire] ++
    (List.replicate 2 [Act.expire 4294967295, .fire, .fire, .fire]).flatten ++
    List.replicate 22 .work ++
    [.mon none (.run true), .mon none (.run true), .mon (some ()) (.call (.read () 0 50) true)]

/-- The read writes and copies 110 bytes. -/
theorem longList_not_inside :
    ∃ s tr, (machine (fun _ => 0) 250 (fun _ => 1) Unit).Run longList s tr ∧
      ¬s.ReadInside (fun _ => 1) (.mon (some ()) (.run true)) := by
  have heval : ((machine (fun _ => 0) 250 (fun _ => 1) Unit).exec
      (machine (fun _ => 0) 250 (fun _ => 1) Unit).init longList).map
        (fun r => r.1.formats (.mon (some ()) (.run true))) =
      some (some (50, List.replicate 10 4294967295)) := by
    decide +kernel
  obtain ⟨s, tr, hrun, hs⟩ := Machine.exists_run_of_eval heval
  refine ⟨s, tr, hrun, fun hinside => ?_⟩
  exact absurd (readInside_iff_readFits.mp hinside _ hs) (by decide)

end LinuxInternals.Modtimer
