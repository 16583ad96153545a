import LinuxInternals.Modlist1.Memory

/-!
# The memory of the first module keeps to its list

The module seen as a list of integers and a number of buffers that are never freed, and when a
call of it goes outside of its memory. The pointers refine this, call by call.
-/

namespace LinuxInternals.Modlist1

open Text ListHead
open Modlist (Errno Ret Reply)

def text (mylist : List Int32) : List UInt8 := mylist.flatMap line

def listRead (off len : Nat) (copied : Bool) (mylist : List Int32) : Reply :=
  if 0 < off then ⟨.done 0, [], off⟩
  else if len < 1 then ⟨.error .enospc, [], off⟩
  else if !copied then ⟨.error .einval, [], off⟩
  else ⟨.done (text mylist).length, text mylist, off + len⟩

namespace Call

def reply (mylist : List Int32) : Call → Reply
  | .read off len copied _ => listRead off len copied mylist
  | .write off buf copied vmalloc _ =>
    let r := modlistWrite (vmalloc.getD []) off buf copied mylist
    ⟨r.2.1, [], r.2.2⟩

def next (mylist : List Int32) : Call → List Int32
  | .read .. => mylist
  | .write off buf copied vmalloc _ => (modlistWrite (vmalloc.getD []) off buf copied mylist).1

/-- A call that returns ahead of its `vfree`. -/
def Early : Call → Prop
  | .read off len copied _ => 0 < off ∨ len < 1 ∨ copied = false
  | .write off buf copied _ _ => 0 < off ∨ BUFFER_LENGTH - 1 < buf.length ∨ copied = false

def Buffered : Call → Prop
  | .read _ _ _ vmalloc => vmalloc = true
  | .write _ _ _ vmalloc _ => vmalloc.isSome

/-- The call gets a buffer and never frees it. -/
def Leaks (call : Call) : Prop := call.Early ∧ call.Buffered

/-- The call goes outside of the memory that it has: a text that does not fit into the buffer, or
a null pointer that it takes for one. -/
def Faults (mylist : List Int32) : Call → Prop
  | .read off len _ vmalloc =>
    off = 0 ∧ 1 ≤ len ∧ if vmalloc then BUFFER_LENGTH ≤ (text mylist).length else mylist ≠ []
  | .write off buf copied vmalloc nodo =>
    off = 0 ∧ buf.length ≤ BUFFER_LENGTH - 1 ∧ (vmalloc = none ∨ copied = true ∧ nodo = none ∧
      (scanInt (cstring (buf ++ (vmalloc.getD []).drop buf.length)) "add %i").isSome)

instance (call : Call) : Decidable call.Early := by
  cases call <;> unfold Early <;> infer_instance

instance (call : Call) : Decidable call.Buffered := by
  cases call <;> unfold Buffered <;> infer_instance

instance (call : Call) : Decidable call.Leaks := inferInstanceAs (Decidable (_ ∧ _))

instance (mylist : List Int32) (call : Call) : Decidable (call.Faults mylist) := by
  cases call <;> unfold Faults <;> infer_instance

end Call

/-- The list, and how many buffers are never freed. -/
structure View where
  mylist : List Int32
  leaked : Nat
deriving DecidableEq, Repr

def spec : Machine View Call Reply where
  init := ⟨[], 0⟩
  step v call :=
    if call.Faults v.mylist then none
    else some (⟨call.next v.mylist, if call.Leaks then v.leaked + 1 else v.leaked⟩,
      [call.reply v.mylist])

/-- The memory holds what the view says. -/
structure Shows (mylist : Addr) (m : Memory) (v : View) : Prop where
  items : ∃ nodes, m.items.Holds mylist nodes v.mylist
  buffers : m.buffers = v.leaked

variable {mylist : Addr} {m : Items Int32} {nodes : List Addr} {l : List Int32} {fuel : Nat}

theorem text_cons (data : Int32) (l : List Int32) : text (data :: l) = line data ++ text l :=
  List.flatMap_cons

theorem printItems_null (h : nodes.map m.data = l.map some) (out : List UInt8) :
    Pointers.printItems false m nodes out = if l ≠ [] then none else some out := by
  cases l with
  | nil =>
    obtain rfl := List.map_eq_nil_iff.mp h
    rfl
  | cons data l =>
    obtain ⟨cur_node, rest, rfl⟩ := List.exists_cons_of_ne_nil
      (fun hnil : nodes = [] => by simp [hnil] at h)
    obtain ⟨hdata, -⟩ := List.cons.inj h
    simp [Pointers.printItems, hdata]

/-- The loop prints the whole text, or stores outside of the buffer. -/
theorem printItems_eq (h : nodes.map m.data = l.map some) {out : List UInt8}
    (hout : out.length < BUFFER_LENGTH) :
    Pointers.printItems true m nodes out =
      if BUFFER_LENGTH ≤ (out ++ text l).length then none else some (out ++ text l) := by
  induction nodes generalizing l out with
  | nil =>
    obtain rfl := List.map_eq_nil_iff.mp h.symm
    simp [Pointers.printItems, text, hout]
  | cons cur_node rest ih =>
    obtain ⟨data, l, rfl⟩ := List.exists_cons_of_ne_nil
      (fun hnil : l = [] => by simp [hnil] at h)
    obtain ⟨hdata, hrest⟩ := List.cons.inj h
    rw [text_cons, ← List.append_assoc]
    have hstep : Pointers.printItems true m (cur_node :: rest) out =
        if BUFFER_LENGTH < out.length + (line data).length + 1 then none
        else Pointers.printItems true m rest (out ++ line data) := by
      simp only [Pointers.printItems, hdata, Option.bind_eq_bind, Option.bind_some, Bool.not_true,
        Bool.false_or, decide_eq_true_eq]
    rw [hstep]
    split
    · have hlong : BUFFER_LENGTH ≤ (out ++ line data ++ text l).length := by
        rw [List.length_append, List.length_append]
        omega
      rw [if_pos hlong]
    · apply ih hrest
      rw [List.length_append]
      omega

theorem modlistRemove_items (h : m.Holds mylist nodes l) (hfuel : nodes.length < fuel)
    (num : Int32) : ∃ m' nodes', Pointers.modlistRemove fuel mylist num m = some m' ∧
      m'.Holds mylist nodes' (Modlist.modlistRemove num l) := by
  obtain ⟨m', nodes', hrun, h', -⟩ := h.sweep (fun data => data = num)
    (fun cur_node m => do
      let data ← m.data cur_node
      if data = num then
        let m ← m.listDel cur_node
        m.vfree cur_node
      else some m) (fun pos m data hdata => by simp [hdata]) hfuel
  refine ⟨m', nodes', hrun, ?_⟩
  rw [Modlist.modlistRemove_eq]
  simpa using h'

theorem modlistCleanup_items (h : m.Holds mylist nodes l) (hfuel : nodes.length < fuel) :
    ∃ m' nodes', Pointers.modlistCleanup fuel mylist m = some m' ∧
      m'.Holds mylist nodes' [] := by
  obtain ⟨m', nodes', hrun, h', -⟩ := h.sweep (fun _ => true)
    (fun cur_node m => do
      let m ← m.listDel cur_node
      m.vfree cur_node) (fun pos m data _ => by simp) hfuel
  refine ⟨m', nodes', hrun, ?_⟩
  simpa using h'

theorem modlistAdd_items (h : m.Holds mylist nodes l) {nodo : Slot Int32}
    (hlinks : m.links nodo.item = none) (hdata : m.data nodo.item = none) (num : Int32) :
    ∃ m' nodes', Pointers.modlistAdd mylist (some nodo) num m = some m' ∧
      m'.Holds mylist nodes' (Modlist.modlistAdd num l) := by
  obtain ⟨m₁, m', hset, hadd, h'⟩ := h.addTail (b := num) hlinks hdata nodo.links nodo.data
  refine ⟨m', nodes ++ [nodo.item], ?_, h'⟩
  simp only [Pointers.modlistAdd, hset, Option.bind_eq_bind, Option.bind_some]
  exact hadd

theorem obey_null {modlistbuffer : List UInt8} (h : (scanInt modlistbuffer "add %i").isSome)
    (m : Items Int32) : Pointers.obey fuel mylist none modlistbuffer m = none := by
  obtain ⟨num, hnum⟩ := Option.isSome_iff_exists.mp h
  simp only [Pointers.obey, hnum]
  rfl

/-- The command does to the items what it does to the list. -/
theorem obey_items (h : m.Holds mylist nodes l) (hfuel : nodes.length < fuel)
    {nodo : Option (Slot Int32)} {modlistbuffer : List UInt8}
    (hfresh : ∀ slot ∈ nodo, m.links slot.item = none ∧ m.data slot.item = none)
    (hslot : nodo = none → ¬(scanInt modlistbuffer "add %i").isSome) :
    ∃ m' nodes', Pointers.obey fuel mylist nodo modlistbuffer m = some m' ∧
      m'.Holds mylist nodes' (obey noOthers modlistbuffer l) := by
  cases hadd : scanInt modlistbuffer "add %i" with
  | some num =>
    cases nodo with
    | none => exact absurd (by simp [hadd]) (hslot rfl)
    | some slot =>
      obtain ⟨hlinks, hdata⟩ := hfresh slot rfl
      simp only [Pointers.obey, obey, hadd]
      exact modlistAdd_items h hlinks hdata num
  | none =>
    cases hremove : scanInt modlistbuffer "remove %i" with
    | some num =>
      simp only [Pointers.obey, obey, hadd, hremove]
      exact modlistRemove_items h hfuel num
    | none =>
      simp only [Pointers.obey, obey, hadd, hremove]
      split
      · rw [Modlist.modlistCleanup_eq]
        exact modlistCleanup_items h hfuel
      · exact ⟨m, nodes, rfl, h⟩

variable {mem : Memory} {v : View} {call : Call}

theorem read_faults {off len : Nat} {copied vmalloc : Bool} (h : Shows mylist mem v)
    (hfuel : v.mylist.length < fuel) (hf : (Call.read off len copied vmalloc).Faults v.mylist) :
    (Call.read off len copied vmalloc).run fuel mylist mem = none := by
  obtain ⟨nodes, hitems⟩ := h.items
  obtain ⟨rfl, hlen, hf⟩ := hf
  have hloop : listForEach fuel mylist mem.items.links = some nodes :=
    listForEach_spec hitems.ring (hitems.length ▸ hfuel)
  have hprint : Pointers.printItems vmalloc mem.items nodes [] = none := by
    cases vmalloc with
    | true =>
      rw [printItems_eq hitems.data (by decide)]
      exact if_pos hf
    | false =>
      rw [printItems_null hitems.data]
      exact if_pos hf
  simp [Call.run, Pointers.modlistRead, Nat.not_lt.mpr hlen, hloop, hprint]

theorem leaked_of_early (h : call.Early) (n : Nat) :
    (if call.Leaks then n + 1 else n) = n + (decide call.Buffered).toNat := by
  by_cases hb : call.Buffered
  · rw [if_pos ⟨h, hb⟩, decide_eq_true hb, Bool.toNat_true]
  · rw [if_neg fun hl => hb hl.2, decide_eq_false hb, Bool.toNat_false, Nat.add_zero]

theorem leaked_of_not_early (h : ¬call.Early) (n : Nat) :
    (if call.Leaks then n + 1 else n) = n :=
  if_neg fun hl => h hl.1

/-- A call that returns early leaves the list as it is, and its buffer allocated. -/
theorem Shows.held (h : Shows mylist mem v) (hearly : call.Early) :
    Shows mylist ⟨mem.items, mem.buffers + (decide call.Buffered).toNat⟩
      ⟨v.mylist, if call.Leaks then v.leaked + 1 else v.leaked⟩ :=
  ⟨h.items, by rw [leaked_of_early hearly, h.buffers]⟩

theorem read_shows {off len : Nat} {copied vmalloc : Bool} (h : Shows mylist mem v)
    (hfuel : v.mylist.length < fuel) (hf : ¬(Call.read off len copied vmalloc).Faults v.mylist) :
    ∃ mem', (Call.read off len copied vmalloc).run fuel mylist mem =
        some (mem', listRead off len copied v.mylist) ∧
      Shows mylist mem' ⟨v.mylist,
        if (Call.read off len copied vmalloc).Leaks then v.leaked + 1 else v.leaked⟩ := by
  obtain ⟨nodes, hitems⟩ := h.items
  have hloop : listForEach fuel mylist mem.items.links = some nodes :=
    listForEach_spec hitems.ring (hitems.length ▸ hfuel)
  have hbuffered : (decide (Call.read off len copied vmalloc).Buffered).toNat = vmalloc.toNat := by
    cases vmalloc <;> rfl
  by_cases hoff : 0 < off
  · refine ⟨_, ?_, h.held (Or.inl hoff)⟩
    simp [Call.run, Pointers.modlistRead, listRead, hoff, hbuffered]
  by_cases hlen : len < 1
  · refine ⟨_, ?_, h.held (Or.inr (Or.inl hlen))⟩
    simp [Call.run, Pointers.modlistRead, listRead, hoff, hlen, hbuffered]
  have hprint : Pointers.printItems vmalloc mem.items nodes [] = some (text v.mylist) := by
    have hout := fun hfault => hf ⟨Nat.eq_zero_of_not_pos hoff, Nat.not_lt.mp hlen, hfault⟩
    cases vmalloc with
    | true =>
      rw [printItems_eq hitems.data (by decide)]
      exact if_neg hout
    | false =>
      have hnil : v.mylist = [] := not_not.mp fun hne => hout hne
      rw [printItems_null hitems.data, hnil]
      rfl
  cases copied with
  | false =>
    refine ⟨_, ?_, h.held (Or.inr (Or.inr rfl))⟩
    simp [Call.run, Pointers.modlistRead, listRead, hoff, hlen, hloop, hprint, hbuffered]
  | true =>
    have hlate : ¬(Call.read off len true vmalloc).Early := by
      simp [Call.Early, hoff, hlen]
    refine ⟨mem, ?_, ?_⟩
    · simp [Call.run, Pointers.modlistRead, listRead, hoff, hlen, hloop, hprint]
    · rw [leaked_of_not_early hlate]
      exact h

theorem write_faults {off : Nat} {buf : List UInt8} {copied : Bool}
    {vmalloc : Option (List UInt8)} {nodo : Option (Slot Int32)}
    (hf : (Call.write off buf copied vmalloc nodo).Faults v.mylist) :
    (Call.write off buf copied vmalloc nodo).run fuel mylist mem = none := by
  obtain ⟨rfl, hlen, hf⟩ := hf
  have hshort : ¬1023 < buf.length := Nat.not_lt.mpr hlen
  cases vmalloc with
  | none => simp [Call.run, Pointers.modlistWrite, hshort]
  | some content =>
    obtain ⟨rfl, rfl, hadd⟩ := hf.resolve_left (Option.some_ne_none content)
    rw [Option.getD_some] at hadd
    simp [Call.run, Pointers.modlistWrite, hshort, obey_null hadd]

theorem write_shows {off : Nat} {buf : List UInt8} {copied : Bool}
    {vmalloc : Option (List UInt8)} {nodo : Option (Slot Int32)} (h : Shows mylist mem v)
    (hfuel : v.mylist.length < fuel) (hfresh : Fresh mem (.write off buf copied vmalloc nodo))
    (hf : ¬(Call.write off buf copied vmalloc nodo).Faults v.mylist) :
    ∃ mem', (Call.write off buf copied vmalloc nodo).run fuel mylist mem =
        some (mem', (Call.write off buf copied vmalloc nodo).reply v.mylist) ∧
      Shows mylist mem' ⟨(Call.write off buf copied vmalloc nodo).next v.mylist,
        if (Call.write off buf copied vmalloc nodo).Leaks then v.leaked + 1 else v.leaked⟩ := by
  obtain ⟨nodes, hitems⟩ := h.items
  have hbuffered : (decide (Call.write off buf copied vmalloc nodo).Buffered).toNat =
      vmalloc.isSome.toNat := by
    cases vmalloc <;> rfl
  have hearly : (Call.write off buf copied vmalloc nodo).Early →
      Shows mylist ⟨mem.items, mem.buffers + vmalloc.isSome.toNat⟩
        ⟨v.mylist, if (Call.write off buf copied vmalloc nodo).Leaks then v.leaked + 1
          else v.leaked⟩ := by
    intro he
    rw [← hbuffered]
    exact h.held he
  by_cases hoff : 0 < off
  · have hw : modlistWrite (vmalloc.getD []) off buf copied v.mylist =
        (v.mylist, .done 0, off) := by
      simp [modlistWrite, write, hoff]
    refine ⟨⟨mem.items, mem.buffers + vmalloc.isSome.toNat⟩, ?_, ?_⟩
    · simp [Call.run, Pointers.modlistWrite, Call.reply, hw, hoff]
    · rw [Call.next, hw]
      exact hearly (Or.inl hoff)
  by_cases hlen : 1023 < buf.length
  · have hw : modlistWrite (vmalloc.getD []) off buf copied v.mylist =
        (v.mylist, .error .enospc, off) := by
      simp [modlistWrite, write, hoff, hlen]
    refine ⟨⟨mem.items, mem.buffers + vmalloc.isSome.toNat⟩, ?_, ?_⟩
    · simp [Call.run, Pointers.modlistWrite, Call.reply, hw, hoff, hlen]
    · rw [Call.next, hw]
      exact hearly (Or.inr (Or.inl hlen))
  have hsafe := fun hfault => hf ⟨Nat.eq_zero_of_not_pos hoff, Nat.not_lt.mp hlen, hfault⟩
  cases vmalloc with
  | none => exact absurd (Or.inl rfl) hsafe
  | some content =>
    cases copied with
    | false =>
      have hw : modlistWrite content off buf false v.mylist = (v.mylist, .error .efault, off) := by
        simp [modlistWrite, write, hoff, hlen]
      refine ⟨⟨mem.items, mem.buffers + 1⟩, ?_, ?_⟩
      · simp [Call.run, Pointers.modlistWrite, Call.reply, hw, hoff, hlen]
      · rw [Call.next, Option.getD_some, hw]
        exact hearly (Or.inr (Or.inr rfl))
    | true =>
      have hw : modlistWrite content off buf true v.mylist =
          (obey noOthers (cstring (buf ++ content.drop buf.length)) v.mylist, .done buf.length,
            off + buf.length) := by
        simp [modlistWrite, write, hoff, hlen]
      have hslot : nodo = none →
          ¬(scanInt (cstring (buf ++ content.drop buf.length)) "add %i").isSome :=
        fun hnodo hadd => hsafe (Or.inr ⟨rfl, hnodo, hadd⟩)
      have hnew : ∀ slot ∈ nodo,
          mem.items.links slot.item = none ∧ mem.items.data slot.item = none := by
        rintro slot ⟨⟩
        exact hfresh
      obtain ⟨items, nodes', hobey, hitems'⟩ :=
        obey_items hitems (hitems.length ▸ hfuel) hnew hslot
      have hlate : ¬(Call.write off buf true (some content) nodo).Early := by
        simp [Call.Early, hoff, Nat.not_lt.mp hlen]
      refine ⟨⟨items, mem.buffers⟩, ?_, ?_⟩
      · simp [Call.run, Pointers.modlistWrite, Call.reply, hw, hoff, hlen, hobey]
      · rw [Call.next, Option.getD_some, hw, leaked_of_not_early hlate]
        exact ⟨⟨nodes', hitems'⟩, h.buffers⟩

theorem loaded_shows (mylist : Addr) : Shows mylist (loaded mylist) spec.init :=
  ⟨⟨[], Items.holds_onlyHead mylist⟩, rfl⟩

/-- The check of the list that has just been made never stops the module. -/
theorem initModlistModule_eq (mylist : Addr) :
    initModlistModule mylist = some (loaded mylist, true) := by
  have hempty : listEmpty mylist (loaded mylist).items.links = some true := by
    simp [listEmpty, loaded, Items.onlyHead, Links.next]
  simp only [initModlistModule, @Items.initListHead_static Int32, Option.bind_eq_bind,
    Option.bind_some]
  rw [loaded] at hempty
  simp only [hempty, Option.bind_some]
  rfl

theorem length_next_le (l : List Int32) (call : Call) : (call.next l).length ≤ l.length + 1 := by
  cases call with
  | read off len copied vmalloc => exact Nat.le_succ l.length
  | write off buf copied vmalloc nodo =>
    simp only [Call.next, modlistWrite, write]
    split
    · exact Nat.le_succ l.length
    · split
      · exact Nat.le_succ l.length
      · split
        · exact Nat.le_succ l.length
        · simp only [obey]
          split
          · simp [Modlist.modlistAdd]
          · split
            · rw [Modlist.modlistRemove_eq]
              exact (List.length_filter_le _ _).trans (Nat.le_succ _)
            · split
              · rw [Modlist.modlistCleanup_eq]
                exact Nat.zero_le _
              · exact Nat.le_succ _

/-- A call faults where the specification has no step, and is answered as it says elsewhere. -/
theorem step_shows (h : Shows mylist mem v) (hfuel : v.mylist.length < fuel)
    (hfresh : Fresh mem call) :
    (call.Faults v.mylist ∧ (machine fuel mylist).step mem call = none ∧ spec.step v call = none) ∨
      ∃ mem' v' r, (machine fuel mylist).step mem call = some (mem', [r]) ∧
        spec.step v call = some (v', [r]) ∧ Shows mylist mem' v' ∧
        v'.mylist.length ≤ v.mylist.length + 1 := by
  by_cases hf : call.Faults v.mylist
  · have hrun : call.run fuel mylist mem = none := by
      cases call with
      | read off len copied vmalloc => exact read_faults h hfuel hf
      | write off buf copied vmalloc nodo => exact write_faults hf
    refine Or.inl ⟨hf, ?_, ?_⟩
    · simp [machine, hrun]
    · simp [spec, hf]
  · have hrun : ∃ mem', call.run fuel mylist mem = some (mem', call.reply v.mylist) ∧
        Shows mylist mem' ⟨call.next v.mylist, if call.Leaks then v.leaked + 1 else v.leaked⟩ := by
      cases call with
      | read off len copied vmalloc => exact read_shows h hfuel hf
      | write off buf copied vmalloc nodo => exact write_shows h hfuel hfresh hf
    obtain ⟨mem', hrun, h'⟩ := hrun
    refine Or.inr ⟨mem', _, call.reply v.mylist, ?_, ?_, h', length_next_le v.mylist call⟩
    · simp [machine, hrun]
    · simp [spec, hf]

theorem exec_shows {calls : List Call} (h : Shows mylist mem v)
    (hfuel : v.mylist.length + calls.length < fuel)
    (hfresh : (machine fuel mylist).Along Fresh mem calls) :
    (∀ v' tr, spec.exec v calls = some (v', tr) →
      ∃ mem', (machine fuel mylist).exec mem calls = some (mem', tr) ∧ Shows mylist mem' v') ∧
    (∀ mem' tr, (machine fuel mylist).exec mem calls = some (mem', tr) →
      ∃ v', spec.exec v calls = some (v', tr) ∧ Shows mylist mem' v') := by
  induction calls generalizing mem v with
  | nil =>
    constructor
    · rintro v' tr ⟨⟩
      exact ⟨mem, rfl, h⟩
    · rintro mem' tr ⟨⟩
      exact ⟨v, rfl, h⟩
  | cons call calls ih =>
    rw [List.length_cons] at hfuel
    obtain ⟨-, hM, hS⟩ | ⟨mem₁, v₁, r, hM, hS, h₁, hlen⟩ :=
      step_shows h (show v.mylist.length < fuel by omega) hfresh.1
    · constructor
      · intro v' tr hrun
        simp [Machine.exec, hS] at hrun
      · intro mem' tr hrun
        simp [Machine.exec, hM] at hrun
    · obtain ⟨hspec, hmach⟩ := ih h₁ (by omega) ((Machine.along_cons hM calls).mp hfresh).2
      constructor
      · intro v' tr hrun
        obtain ⟨u, es, t, hu, ht, rfl⟩ := Machine.exec_cons_eq_some.mp hrun
        obtain ⟨rfl, rfl⟩ := Prod.mk.inj (Option.some.inj (hS.symm.trans hu))
        obtain ⟨mem', hrest, h'⟩ := hspec v' t ht
        exact ⟨mem', Machine.exec_cons_eq_some.mpr ⟨mem₁, [r], t, hM, hrest, rfl⟩, h'⟩
      · intro mem' tr hrun
        obtain ⟨u, es, t, hu, ht, rfl⟩ := Machine.exec_cons_eq_some.mp hrun
        obtain ⟨rfl, rfl⟩ := Prod.mk.inj (Option.some.inj (hM.symm.trans hu))
        obtain ⟨v', hrest, h'⟩ := hmach mem' t ht
        exact ⟨v', Machine.exec_cons_eq_some.mpr ⟨v₁, [r], t, hS, hrest, rfl⟩, h'⟩

/-- The pointers and the list go through the same calls with the same replies, and where one has
no outcome the other has none: the module goes outside of its memory at the calls at which the
list says so, and at no others. -/
theorem pointers_refine {calls : List Call} (hfuel : calls.length < fuel)
    (hfresh : (machine fuel mylist).Along Fresh (loaded mylist) calls) :
    (∀ v tr, spec.Run calls v tr →
      ∃ mem, (machine fuel mylist).Run calls mem tr ∧ Shows mylist mem v) ∧
    (∀ mem tr, (machine fuel mylist).Run calls mem tr →
      ∃ v, spec.Run calls v tr ∧ Shows mylist mem v) :=
  exec_shows (loaded_shows mylist) (by simpa [spec] using hfuel) hfresh

/-- An item is added, printed and removed; the second read of the reader keeps its buffer. -/
theorem pointers_refine_remove :
    ∃ mem, (machine 5 4096).Run
      [.write 0 (bytes "add 7\n") true (some [0]) (some ⟨8192, ⟨0, 0⟩, 0⟩), .read 0 100 true true,
        .read 100 100 true true, .write 0 (bytes "remove 7\n") true (some [0]) none] mem
      [⟨.done 6, [], 6⟩, ⟨.done 2, bytes "7\n", 100⟩, ⟨.done 0, [], 100⟩, ⟨.done 9, [], 9⟩] ∧
      Shows 4096 mem ⟨[], 1⟩ :=
  (pointers_refine (by decide) (by decide +kernel)).1 ⟨[], 1⟩ _
    (by rw [Machine.Run]; decide +kernel)

theorem spec_length {calls : List Call} {tr : List Reply} (h : spec.Run calls v tr) :
    v.mylist.length ≤ calls.length := by
  induction calls using List.reverseRecOn generalizing v tr with
  | nil =>
    obtain ⟨rfl, -⟩ := Machine.Run.unique Machine.run_nil h
    exact Nat.le_refl 0
  | append_singleton calls call ih =>
    obtain ⟨u, t, es, hu, hstep, rfl⟩ := Machine.run_snoc_iff.mp h
    by_cases hf : call.Faults u.mylist
    · simp [spec, hf] at hstep
    · simp only [spec, hf, if_false, Option.some.injEq, Prod.mk.injEq] at hstep
      rw [← hstep.1, List.length_append]
      exact (length_next_le u.mylist call).trans (Nat.succ_le_succ (ih hu))

theorem spec_leaked {calls : List Call} {tr : List Reply} (h : spec.Run calls v tr) :
    v.leaked = calls.countP fun call => call.Leaks := by
  induction calls using List.reverseRecOn generalizing v tr with
  | nil =>
    obtain ⟨rfl, -⟩ := Machine.Run.unique Machine.run_nil h
    rfl
  | append_singleton calls call ih =>
    obtain ⟨u, t, es, hu, hstep, rfl⟩ := Machine.run_snoc_iff.mp h
    by_cases hf : call.Faults u.mylist
    · simp [spec, hf] at hstep
    · simp only [spec, hf, if_false, Option.some.injEq, Prod.mk.injEq] at hstep
      rw [← hstep.1, List.countP_append, ih hu]
      by_cases hleak : call.Leaks <;> simp [hleak]

/-- After any run, what `exit_modlist_module` frees are all the items, each once, and what stays
allocated for good is one buffer for each call that has returned ahead of its `vfree`. -/
theorem exit_frees_items {calls : List Call} {tr : List Reply} (hfuel : calls.length < fuel)
    (hfresh : (machine fuel mylist).Along Fresh (loaded mylist) calls)
    (h : (machine fuel mylist).Run calls mem tr) :
    ∃ items, Pointers.modlistCleanup fuel mylist mem.items = some items ∧
      (∀ a, (items.links a).isSome ↔ a = mylist) ∧ (∀ a, items.data a = none) ∧
      mem.buffers = calls.countP fun call => call.Leaks := by
  obtain ⟨-, hview⟩ := exec_shows (loaded_shows mylist) (by simpa [spec] using hfuel) hfresh
  obtain ⟨v, hv, hshows⟩ := hview mem tr h
  obtain ⟨nodes, hitems⟩ := hshows.items
  have hlen : nodes.length < fuel := by
    rw [hitems.length]
    exact Nat.lt_of_le_of_lt (spec_length hv) hfuel
  obtain ⟨items, nodes', hrun, h'⟩ := modlistCleanup_items hitems hlen
  obtain rfl := List.eq_nil_of_length_eq_zero h'.length
  refine ⟨items, hrun, ?_, ?_, ?_⟩
  · intro a
    have hlive := h'.links.live a
    rw [or_iff_left (Set.notMem_empty a), Lists.mem_nodes_put rfl] at hlive
    have hnone : a ∉ Lists.empty.nodes := holds_empty.notMem_nodes_iff.mpr rfl
    simpa [hnone, Links.Live] using hlive
  · intro a
    have hlive := h'.live a
    simpa using hlive
  · rw [hshows.buffers, spec_leaked hv]

/-- An item is added, and a read from an offset leaks its buffer. -/
def addAndRead : List Call :=
  [.write 0 (bytes "add 7\n") true (some [0]) (some ⟨8192, ⟨0, 0⟩, 0⟩), .read 100 100 true true]

theorem exit_frees_items_add :
    ∃ mem, (machine 3 4096).Run addAndRead mem [⟨.done 6, [], 6⟩, ⟨.done 0, [], 100⟩] ∧
      ∃ items, Pointers.modlistCleanup 3 4096 mem.items = some items ∧
        (∀ a, (items.links a).isSome ↔ a = 4096) ∧ (∀ a, items.data a = none) ∧
        mem.buffers = 1 := by
  have heval : ((machine 3 4096).exec (machine 3 4096).init addAndRead).map (fun r => r.2) =
      some [⟨.done 6, [], 6⟩, ⟨.done 0, [], 100⟩] := by decide +kernel
  obtain ⟨mem, tr, hrun, rfl⟩ := Machine.exists_run_of_eval heval
  exact ⟨mem, hrun, exit_frees_items (by decide) (by decide +kernel) hrun⟩

end LinuxInternals.Modlist1
