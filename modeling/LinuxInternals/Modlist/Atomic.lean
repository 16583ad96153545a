import LinuxInternals.Lib.Ownership
import LinuxInternals.Modlist.Pointers

/-!
# What runs with `sp` held is atomic

The accesses of `modlist` refine the machine that makes each pass over the list in one go, at
the instant at which it takes `sp`. What others do until `sp` is free again stays away from the
list: they allocate and fill items that they keep for themselves.
-/

namespace LinuxInternals.Modlist.Pointers

open Text ListHead Ownership
open Object (Event)

section Passes

variable {fuel : Nat} {mylist : Addr} {m : Items Int32} {nodes : List Addr} {l : List Int32}

/-- The loop prints the nodes from `cur_node` on, `todo`, whose data are `l`. -/
theorem run_readItems {todo : List Addr} (hseg : m.links.Seg (todo ++ [mylist]))
    (hhead : mylist ∉ todo) (hdata : todo.map m.data = l.map some) (hfuel : todo.length < fuel)
    {cur_node : Addr} (hcur : (todo ++ [mylist]).head? = some cur_node) (buf : List UInt8) :
    (readItems mylist fuel cur_node buf).run m = some (m, readLoop l buf) := by
  induction todo generalizing fuel l cur_node buf with
  | nil =>
    obtain ⟨fuel, rfl⟩ := Nat.exists_eq_add_one.mpr hfuel
    obtain rfl := List.map_eq_nil_iff.mp hdata.symm
    rw [readItems, if_pos (Option.some.inj hcur).symm]
    rfl
  | cons x todo ih =>
    obtain ⟨fuel, rfl⟩ := Nat.exists_eq_add_one.mpr (Nat.zero_lt_of_lt hfuel)
    obtain rfl := Option.some.inj hcur
    obtain ⟨data, l, rfl⟩ := List.exists_cons_of_ne_nil
      (fun hnil : l = [] => by simp [hnil] at hdata)
    obtain ⟨hx, hrest⟩ := List.cons.inj hdata
    obtain ⟨hjoin, hchain⟩ := List.isChain_cons.mp hseg
    have hne : x ≠ mylist := fun h => hhead (h ▸ List.mem_cons_self)
    obtain ⟨next, hnext⟩ : ∃ next, (todo ++ [mylist]).head? = some next := by
      cases todo with
      | nil => exact ⟨mylist, rfl⟩
      | cons y todo => exact ⟨y, rfl⟩
    have hload : m.links.next x = some next := (hjoin next hnext).1
    rw [readItems, if_neg hne, readLoop]
    split
    · rfl
    · have hloop := ih hchain (fun h => hhead (List.mem_cons_of_mem x h)) hrest
        (Nat.lt_of_succ_lt_succ hfuel) hnext (buf ++ line data)
      simp only [Code.run_bind, Code.run_data, Code.run_next, hx, hload, Option.map_some,
        Option.bind_some]
      exact hloop

theorem run_modlistRead (h : m.Holds mylist nodes l) (hfuel : nodes.length < fuel) :
    (modlistRead fuel mylist).run m = some (m, readLoop l []) := by
  obtain ⟨cur_node, hcur, -⟩ := h.ring.exists_next
  have hfirst : (nodes ++ [mylist]).head? = some cur_node := by rw [← h.ring.next_eq, hcur]
  simp only [modlistRead, Code.run_bind, Code.run_next, hcur, Option.map_some, Option.bind_some]
  exact run_readItems (List.isChain_cons.mp h.ring.seg_append).2 (List.nodup_cons.mp h.ring.nodup).1
    h.data hfuel hfirst []

theorem run_modlistRemove (h : m.Holds mylist nodes l) (hfuel : nodes.length < fuel)
    (num : Int32) : ∃ m' nodes', (modlistRemove fuel mylist num).run m = some (m', ()) ∧
      m'.Holds mylist nodes' (Modlist.modlistRemove num l) := by
  let body : Addr → Code Int32 Unit := fun cur_node => do
    let data ← Code.data cur_node
    if data = num then do
      Code.listDel cur_node
      Code.vfree cur_node
    else return ()
  have hbody : ∀ pos m data, m.data pos = some data → ((body pos).run m).map Prod.fst =
      if decide (data = num) then (m.listDel pos).bind (·.vfree pos) else some m := by
    intro pos m data hdata
    by_cases hnum : data = num
    · simp [body, hdata, hnum, Code.run_listDel, Option.map_bind, Option.bind_map,
        Function.comp_def]
    · simp [body, hdata, hnum]
  obtain ⟨m', nodes', hrun, h', -⟩ := h.sweep (fun data => data = num) _ hbody hfuel
  refine ⟨m', nodes', ?_, ?_⟩
  · rw [modlistRemove, Code.run_listForEachSafe]
    exact congrArg (Option.map (·, ())) hrun
  · rw [Modlist.modlistRemove_eq]
    simpa using h'

theorem run_modlistCleanup (h : m.Holds mylist nodes l) (hfuel : nodes.length < fuel) :
    ∃ m', (modlistCleanup fuel mylist).run m = some (m', ()) ∧ m'.Holds mylist [] [] := by
  let body : Addr → Code Int32 Unit := fun cur_node => do
    Code.listDel cur_node
    Code.vfree cur_node
  have hbody : ∀ pos m data, m.data pos = some data → ((body pos).run m).map Prod.fst =
      if true then (m.listDel pos).bind (·.vfree pos) else some m := by
    intro pos m data _
    simp [body, Code.run_listDel, Option.map_bind, Option.bind_map, Function.comp_def]
  obtain ⟨m', nodes', hrun, h', -⟩ := h.sweep (fun _ => true) _ hbody hfuel
  have h' : m'.Holds mylist nodes' [] := by simpa using h'
  obtain rfl := List.eq_nil_of_length_eq_zero h'.length
  refine ⟨m', ?_, h'⟩
  rw [modlistCleanup, Code.run_listForEachSafe]
  exact congrArg (Option.map (·, ())) hrun

theorem run_add (h : m.Holds mylist nodes l) {nodo : Addr} (hlinks : m.links nodo = none)
    (hdata : m.data nodo = none) (links : Link Addr) (num : Int32) :
    ∃ m', ((Pass.add num nodo).code fuel mylist).run (m.vmalloc nodo links num) = some (m', []) ∧
      m'.Holds mylist (nodes ++ [nodo]) (l ++ [num]) := by
  obtain ⟨m₁, m', hset, hadd, h'⟩ := h.addTail (b := num) hlinks hdata links num
  have hm₁ : (m.vmalloc nodo links num).setData nodo num = some (m.vmalloc nodo links num) := by
    simp [Items.setData, Items.vmalloc]
  obtain rfl := Option.some.inj (hm₁.symm.trans hset)
  refine ⟨m', ?_, h'⟩
  simp [Pass.code, Code.run_listAddTail, hadd]

/-- A pass in one go, where it does not bring an item of its own. -/
theorem run_code (h : m.Holds mylist nodes l) (hfuel : nodes.length < fuel) {op : Op} {pass : Pass}
    (hown : (Pc.waiting op pass).own = none) :
    ∃ m' nodes', (pass.code fuel mylist).run m = some (m', (critical l pass.job).2) ∧
      m'.Holds mylist nodes' (critical l pass.job).1 := by
  cases pass with
  | read => exact ⟨m, nodes, run_modlistRead h hfuel, h⟩
  | add num nodo => cases hown
  | remove num =>
    obtain ⟨m', nodes', hrun, h'⟩ := run_modlistRemove h hfuel num
    refine ⟨m', nodes', ?_, h'⟩
    rw [Pass.code, Code.run_bind, hrun]
    rfl
  | cleanup =>
    obtain ⟨m', hrun, h'⟩ := run_modlistCleanup h hfuel
    refine ⟨m', [], ?_, ?_⟩
    · rw [Pass.code, Code.run_bind, hrun]
      rfl
    · rwa [Pass.job, critical, Modlist.modlistCleanup_eq]

end Passes

variable {ι : Type} {fuel : Nat} {mylist : Addr} {s s' : State ι} {u : Modlist.State ι} {i : ι}

/-- Where a process is, for the machine that makes each pass in one go. -/
def Pc.view (buf : List UInt8) : Pc → Modlist.Pc
  | .user => .user
  | .called op stack => .called op stack
  | .filling op num _ => .lock op (.add num)
  | .waiting op pass => .lock op pass.job
  | .inside op _ => .unlock op buf
  | .ret r => .ret r

def Pc.Inside (pc : Pc) : Prop := ∃ op rest, pc = .inside op rest

/-- The process neither has `sp` nor waits for it. -/
def Pc.Outside : Pc → Prop
  | .waiting _ _ | .inside _ _ => False
  | _ => True

theorem Pc.Outside.not_inside {pc : Pc} (h : pc.Outside) : ¬pc.Inside := by
  rintro ⟨op, rest, rfl⟩
  exact h

/-- The item at `nodo` is allocated, and holds `num` if that has been stored. -/
structure Kept (m : Items Int32) (nodo : Addr) (num : Option Int32) : Prop where
  links : (m.links nodo).isSome
  data : (m.data nodo).isSome
  num : ∀ n, num = some n → m.data nodo = some n

theorem Kept.congr {m m' : Items Int32} {nodo : Addr} {num : Option Int32} (h : Kept m nodo num)
    (hlinks : m'.links nodo = m.links nodo) (hdata : m'.data nodo = m.data nodo) :
    Kept m' nodo num := by
  constructor
  · rw [hlinks]
    exact h.links
  · rw [hdata]
    exact h.data
  · rw [hdata]
    exact h.num

/-- The list and the items in the hands of processes make up the memory. `M` is the list as it is,
and `M'` the list as it will be when `sp` is free. -/
structure Coupled (mylist : Addr) (st : Addr → Status ι (Option Int32)) (M M' : Items Int32)
    (s : State ι) (u : Modlist.State ι) : Prop where
  sp : u.sp = s.sp
  pc : ∀ i, ∃ buf, u.pc i = (s.pc i).view buf
  holder : ∀ i, s.sp = some i ↔ (s.pc i).Inside
  table : Table st fun i => (s.pc i).own
  kept : ∀ i nodo num, (s.pc i).own = some (nodo, num) → Kept s.mem nodo num
  splits : s.mem.Splits (hands st) M
  list : ∃ nodes, M'.Holds mylist nodes u.mylist
  free : s.sp = none → M' = M
  rest : ∀ i op rest buf, s.pc i = .inside op rest → u.pc i = .unlock op buf →
    rest.run M = some (M', buf)

namespace Coupled

variable [DecidableEq ι] {st : Addr → Status ι (Option Int32)} {M M' : Items Int32} {pc : Pc}

theorem view_goto (h : Coupled mylist st M M' s u) (i : ι) (pc : Pc) (buf : List UInt8) (j : ι) :
    ∃ buf', Function.update u.pc i (pc.view buf) j = (Function.update s.pc i pc j).view buf' := by
  rcases eq_or_ne j i with rfl | hji
  · exact ⟨buf, by simp⟩
  · simpa [hji] using h.pc j

theorem own_update (f : ι → Pc) (i : ι) (pc : Pc) :
    (fun j => (Function.update f i pc j).own) = Function.update (fun j => (f j).own) i pc.own := by
  funext j
  exact Function.apply_update (fun _ => Pc.own) f i pc j

theorem holder_goto (h : Coupled mylist st M M' s u) (hin : ¬(s.pc i).Inside) (hout : ¬pc.Inside)
    (j : ι) : s.sp = some j ↔ (Function.update s.pc i pc j).Inside := by
  rcases eq_or_ne j i with rfl | hji
  · simpa [hout, hin] using (h.holder j).not.mpr hin
  · simpa [hji] using h.holder j

theorem rest_goto (h : Coupled mylist st M M' s u) (hout : ¬pc.Inside) {f : ι → Modlist.Pc}
    (hf : ∀ j, j ≠ i → f j = u.pc j) (j : ι) (op : Op) (rest : Code Int32 (List UInt8))
    (buf : List UInt8) (hj : Function.update s.pc i pc j = .inside op rest)
    (huj : f j = .unlock op buf) : rest.run M = some (M', buf) := by
  have hji : j ≠ i := by
    rintro rfl
    rw [Function.update_self] at hj
    exact hout ⟨op, rest, hj⟩
  rw [Function.update_of_ne hji] at hj
  exact h.rest j op rest buf hj ((hf j hji).symm.trans huj)

/-- A step that touches neither the memory nor `sp`. -/
theorem goto (h : Coupled mylist st M M' s u) (hin : ¬(s.pc i).Inside) (hout : ¬pc.Inside)
    (hown : pc.own = (s.pc i).own) (buf : List UInt8) :
    Coupled mylist st M M' (s.goto i pc) (u.goto i (pc.view buf)) := by
  constructor
  · exact h.sp
  · exact h.view_goto i pc buf
  · exact h.holder_goto hin hout
  · show Table st fun j => (Function.update s.pc i pc j).own
    rw [own_update]
    exact h.table.keep hown
  · intro j nodo num hj
    rcases eq_or_ne j i with rfl | hji
    · apply h.kept j nodo num
      simpa [State.goto, hown] using hj
    · apply h.kept j nodo num
      simpa [State.goto, hji] using hj
  · exact h.splits
  · exact h.list
  · exact h.free
  · exact h.rest_goto hout fun j hji => Function.update_of_ne hji _ _

/-- A process gets an item that nobody has. -/
theorem vmalloc (h : Coupled mylist st M M' s u) {op : Op} {num : Int32} {slot : Slot Int32}
    (hin : ¬(s.pc i).Inside) (hown : (s.pc i).own = none)
    (hlinks : s.mem.links slot.item = none) (hdata : s.mem.data slot.item = none) :
    Coupled mylist (Function.update st slot.item (.owned i none)) M M'
      { s.goto i (.filling op num (some slot.item)) with
        mem := s.mem.vmalloc slot.item slot.links slot.data }
      (u.goto i (.lock op (.add num))) := by
  have hne : ∀ j nodo n, (s.pc j).own = some (nodo, n) → nodo ≠ slot.item := by
    rintro j nodo n hj rfl
    have hlive := (h.kept j _ n hj).links
    rw [hlinks] at hlive
    cases hlive
  have hout : ¬(Pc.filling op num (some slot.item)).Inside := by
    rintro ⟨op, rest, ⟨⟩⟩
  constructor
  · exact h.sp
  · exact h.view_goto i (.filling op num _) []
  · exact h.holder_goto hin hout
  · show Table _ fun j => (Function.update s.pc i _ j).own
    rw [own_update]
    apply h.table.acquire hown
    intro j n hj
    exact hne j _ n ((h.table j _ n).mp hj) rfl
  · intro j nodo n hj
    rcases eq_or_ne j i with rfl | hji
    · obtain ⟨rfl, rfl⟩ : slot.item = nodo ∧ none = n := by
        simpa [State.goto, Pc.own] using hj
      constructor
      · simp [Items.vmalloc]
      · simp [Items.vmalloc]
      · rintro n ⟨⟩
    · have hj : (s.pc j).own = some (nodo, n) := by simpa [State.goto, hji] using hj
      exact (h.kept j nodo n hj).congr (Function.update_of_ne (hne j nodo n hj) _ _)
        (Function.update_of_ne (hne j nodo n hj) _ _)
  · rw [hands_owned]
    exact h.splits.vmalloc hlinks hdata slot.links slot.data
  · exact h.list
  · exact h.free
  · exact h.rest_goto hout fun j hji => Function.update_of_ne hji _ _

/-- A process stores its number in its item. -/
theorem fill (h : Coupled mylist st M M' s u) {op : Op} {num : Int32} {nodo : Addr}
    {mem : Items Int32} (hpc : s.pc i = .filling op num (some nodo))
    (hmem : s.mem.setData nodo num = some mem) :
    Coupled mylist (Function.update st nodo (.owned i (some num))) M M'
      { s.goto i (.waiting op (.add num nodo)) with mem := mem } u := by
  have hown : (s.pc i).own = some (nodo, none) := by rw [hpc, Pc.own]
  obtain ⟨b, hb, rfl⟩ := Option.map_eq_some_iff.mp hmem
  have hin : ¬(s.pc i).Inside := by
    rintro ⟨op, rest, hrest⟩
    rw [hpc] at hrest
    cases hrest
  have hout : ¬(Pc.waiting op (.add num nodo)).Inside := by
    rintro ⟨op, rest, ⟨⟩⟩
  obtain ⟨buf, hu⟩ := h.pc i
  rw [hpc] at hu
  have hne : ∀ j ≠ i, ∀ a n, (s.pc j).own = some (a, n) → a ≠ nodo := by
    rintro j hji a n hj rfl
    exact hji (h.table.owner_unique hj hown)
  constructor
  · exact h.sp
  · intro j
    rcases eq_or_ne j i with rfl | hji
    · exact ⟨buf, by simpa [State.goto, Pc.view, Pass.job] using hu⟩
    · simpa [State.goto, hji] using h.pc j
  · exact h.holder_goto hin hout
  · show Table _ fun j => (Function.update s.pc i _ j).own
    rw [own_update]
    exact h.table.advance hown (some num)
  · intro j a n hj
    rcases eq_or_ne j i with rfl | hji
    · obtain ⟨rfl, rfl⟩ : nodo = a ∧ some num = n := by
        simpa [State.goto, Pc.own] using hj
      constructor
      · exact (h.kept j _ _ hown).links
      · simp
      · rintro n ⟨⟩
        simp
    · have hj : (s.pc j).own = some (a, n) := by simpa [State.goto, hji] using hj
      exact (h.kept j a n hj).congr rfl (Function.update_of_ne (hne j hji a n hj) _ _)
  · rw [hands_owned, Set.insert_eq_of_mem (h.table.mem_hands hown)]
    exact h.splits.store (h.table.mem_hands hown) _
  · exact h.list
  · exact h.free
  · exact h.rest_goto hout fun j _ => rfl

/-- A process takes `sp`, and with it the list as it is: `code` will make `M₂` of it. -/
theorem lock {M₁ M₂ : Items Int32} {st₁ : Addr → Status ι (Option Int32)} {nodes : List Addr}
    {mylist' : List Int32} {buf : List UInt8} {code : Code Int32 (List UInt8)} {op : Op}
    (h : Coupled mylist st M M' s u) (hsp : s.sp = none)
    (htable : Table st₁ (Function.update (fun j => (s.pc j).own) i none))
    (hsplits : s.mem.Splits (hands st₁) M₁) (hrun : code.run M₁ = some (M₂, buf))
    (hlist : M₂.Holds mylist nodes mylist') :
    Coupled mylist st₁ M₁ M₂ { s.goto i (.inside op code) with sp := some i }
      { u.goto i (.unlock op buf) with mylist := mylist', sp := some i } := by
  have hnone : ∀ j, ¬(s.pc j).Inside := by
    intro j hj
    have hheld := (h.holder j).mpr hj
    rw [hsp] at hheld
    cases hheld
  constructor
  · rfl
  · exact h.view_goto i (.inside op code) buf
  · intro j
    rcases eq_or_ne j i with rfl | hji
    · exact iff_of_true rfl ⟨op, code, Function.update_self ..⟩
    · simpa [State.goto, hji, hnone j] using hji.symm
  · show Table _ fun j => (Function.update s.pc i _ j).own
    rw [own_update]
    exact htable
  · intro j nodo num hj
    rcases eq_or_ne j i with rfl | hji
    · simp [State.goto, Pc.own] at hj
    · apply h.kept j nodo num
      simpa [State.goto, hji] using hj
  · exact hsplits
  · exact ⟨nodes, hlist⟩
  · rintro ⟨⟩
  · intro j op' rest buf' hj huj
    rcases eq_or_ne j i with rfl | hji
    · obtain ⟨-, rfl⟩ : op = op' ∧ code = rest := by simpa [State.goto] using hj
      obtain ⟨-, rfl⟩ : op = op' ∧ buf = buf' := by simpa [Modlist.State.goto] using huj
      exact hrun
    · exact absurd ⟨op', rest, by simpa [State.goto, hji] using hj⟩ (hnone j)

/-- The access that is next has its outcome, and the list will be as it was to be before. -/
theorem access (h : Coupled mylist st M M' s u) {op : Op} {a : Access Int32}
    {rest : a.Value → Code Int32 (List UInt8)} (hpc : s.pc i = .inside op (.op a rest)) :
    ∃ mem v M₁, ListHead.access a s.mem = some (mem, v) ∧ ListHead.access a M = some (M₁, v) ∧
      Coupled mylist st M₁ M' { s.goto i (.inside op (rest v)) with mem := mem } u := by
  have hsp : s.sp = some i := (h.holder i).mpr ⟨op, _, hpc⟩
  obtain ⟨buf, hu⟩ := h.pc i
  rw [hpc] at hu
  obtain ⟨M₁, v, haccess, hrest⟩ := Prog.eval_op_eq_some.mp (h.rest i op _ buf hpc hu)
  obtain ⟨mem, hmem, hsplits, hframe⟩ := h.splits.access haccess
  refine ⟨mem, v, M₁, hmem, haccess, ?_⟩
  constructor
  · exact h.sp
  · intro j
    rcases eq_or_ne j i with rfl | hji
    · exact ⟨buf, by simpa [State.goto, Pc.view] using hu⟩
    · simpa [State.goto, hji] using h.pc j
  · intro j
    rcases eq_or_ne j i with rfl | hji
    · exact iff_of_true hsp ⟨op, rest v, Function.update_self ..⟩
    · simpa [State.goto, hji] using h.holder j
  · show Table _ fun j => (Function.update s.pc i _ j).own
    rw [own_update]
    apply h.table.keep
    rw [hpc]
    rfl
  · intro j nodo num hj
    rcases eq_or_ne j i with rfl | hji
    · simp [State.goto, Pc.own] at hj
    · have hj : (s.pc j).own = some (nodo, num) := by simpa [State.goto, hji] using hj
      obtain ⟨hlinks, hdata⟩ := hframe nodo (h.table.mem_hands hj)
      exact (h.kept j nodo num hj).congr hlinks hdata
  · exact hsplits
  · exact h.list
  · intro hfree
    exact absurd (hsp.symm.trans hfree) (Option.some_ne_none i)
  · intro j op' rest' buf' hj huj
    have hji : j = i := by
      by_contra hne
      have hj : s.pc j = .inside op' rest' := by simpa [State.goto, hne] using hj
      exact hne (Option.some.inj (((h.holder j).mpr ⟨op', rest', hj⟩).symm.trans hsp))
    subst hji
    obtain ⟨-, rfl⟩ : op = op' ∧ rest v = rest' := by simpa [State.goto] using hj
    obtain ⟨-, rfl⟩ : op = op' ∧ buf = buf' := by simpa [hu, Pc.view] using huj
    exact hrest

/-- Where the code has come to its end, the list is as it was to be. -/
theorem unlock (h : Coupled mylist st M M' s u) {op : Op} {buf : List UInt8}
    (hpc : s.pc i = .inside op (.ret buf)) :
    u.pc i = .unlock op buf ∧
      Coupled mylist st M M' { s.goto i (.ret (finish buf op)) with sp := none }
        { u.goto i (.ret (finish buf op)) with sp := none } := by
  have hsp : s.sp = some i := (h.holder i).mpr ⟨op, _, hpc⟩
  obtain ⟨buf', hu⟩ := h.pc i
  rw [hpc] at hu
  have hend : (M, buf) = (M', buf') := Option.some.inj (h.rest i op _ buf' hpc hu)
  obtain ⟨rfl, rfl⟩ := Prod.mk.inj hend
  refine ⟨hu, ?_⟩
  have hnone : ∀ j, j ≠ i → ¬(s.pc j).Inside := by
    intro j hji hj
    exact hji (Option.some.inj (((h.holder j).mpr hj).symm.trans hsp))
  have hout : ¬(Pc.ret (finish buf op)).Inside := by
    rintro ⟨op, rest, ⟨⟩⟩
  constructor
  · rfl
  · exact h.view_goto i (.ret _) []
  · intro j
    apply iff_of_false
    · rintro ⟨⟩
    · rcases eq_or_ne j i with rfl | hji
      · simpa [State.goto] using hout
      · simpa [State.goto, hji] using hnone j hji
  · show Table _ fun j => (Function.update s.pc i _ j).own
    rw [own_update]
    apply h.table.keep
    rw [hpc]
    rfl
  · intro j nodo num hj
    rcases eq_or_ne j i with rfl | hji
    · simp [State.goto, Pc.own] at hj
    · apply h.kept j nodo num
      simpa [State.goto, hji] using hj
  · exact h.splits
  · exact h.list
  · exact fun _ => rfl
  · exact h.rest_goto hout fun j hji => Function.update_of_ne hji _ _

end Coupled

theorem length_critical_le (l : List Int32) (job : Job) :
    (critical l job).1.length ≤ l.length + 1 := by
  cases job with
  | read => exact Nat.le_succ _
  | add num => simp [critical, Modlist.modlistAdd]
  | remove num =>
    rw [critical, Modlist.modlistRemove_eq]
    exact (List.length_filter_le _ _).trans (Nat.le_succ _)
  | cleanup =>
    rw [critical, Modlist.modlistCleanup_eq]
    exact Nat.zero_le _

variable [DecidableEq ι] {a : Act}

/-- What the processes keep for themselves and the list, for some split of the memory. -/
def Refines (mylist : Addr) (s : State ι) (u : Modlist.State ι) : Prop :=
  ∃ st M M', Coupled mylist st M M' s u

/-- Where a process takes `sp`, its pass happens. -/
theorem Coupled.pass {st : Addr → Status ι (Option Int32)} {M M' : Items Int32}
    (h : Coupled mylist st M M' s u) (hfuel : u.mylist.length < fuel) {op : Op} {pass : Pass}
    (hpc : s.pc i = .waiting op pass) (hsp : s.sp = none) :
    Refines mylist { s.goto i (.inside op (pass.code fuel mylist)) with sp := some i }
      { u.goto i (.unlock op (critical u.mylist pass.job).2) with
        mylist := (critical u.mylist pass.job).1, sp := some i } := by
  obtain ⟨nodes, hlist⟩ := h.list
  obtain rfl := h.free hsp
  have hlen : nodes.length < fuel := by rwa [hlist.length]
  cases hown : (Pc.waiting op pass).own with
  | none =>
    obtain ⟨M₂, nodes', hrun, hlist'⟩ := run_code hlist hlen hown
    have htable : Table st (Function.update (fun j => (s.pc j).own) i none) := by
      apply h.table.keep
      rw [hpc, hown]
    exact ⟨st, M', M₂, h.lock hsp htable h.splits hrun hlist'⟩
  | some r =>
    cases pass with
    | read | remove | cleanup => cases hown
    | add num nodo =>
      -- the item changes hands: it was the process's own, and is on the list from here on
      have hi : (s.pc i).own = some (nodo, some num) := by rw [hpc, Pc.own]
      have hkept := h.kept i nodo (some num) hi
      obtain ⟨links, hlinks⟩ := Option.isSome_iff_exists.mp hkept.links
      obtain ⟨hnl, hnd⟩ := h.splits.apart nodo (h.table.mem_hands hi)
      obtain ⟨M₂, hrun, hlist'⟩ := @run_add fuel _ _ _ _ hlist nodo hnl hnd links num
      have hshared : ∀ j g, (Status.shared : Status ι (Option Int32)) ≠ .owned j g := by
        rintro j g ⟨⟩
      refine ⟨_, _, M₂, h.lock hsp (h.table.release hi hshared) ?_ hrun hlist'⟩
      rw [hands_of_not_owned st nodo hshared]
      exact h.splits.give hlinks (hkept.num num rfl)

theorem exec_step {u' : Modlist.State ι} {act : Modlist.Act} {es : List (Event Op Reply)}
    (h : Modlist.step u i act = some (u', es)) :
    (Modlist.machine ι).exec u [(i, act)] = some (u', es.map (Prod.mk i)) := by
  apply Machine.exec_single
  simp only [Modlist.machine, h, Option.map_some]

/-- What a process does outside leaves the list as it is, whoever has `sp`. -/
theorem Coupled.aside {st : Addr → Status ι (Option Int32)} {M M' : Items Int32}
    (h : Coupled mylist st M M' s u) (hout : (s.pc i).Outside) (hfresh : Fresh s (i, a))
    {es : List (Event Op Reply)} (hmoves : Moves fuel mylist s i a s' es) :
    ∃ st' bs u', (Modlist.machine ι).exec u bs = some (u', es.map (Prod.mk i)) ∧
      Coupled mylist st' M M' s' u' ∧ u'.mylist = u.mylist := by
  obtain ⟨buf, hu⟩ := h.pc i
  have hin := hout.not_inside
  cases hmoves with
  | @call op stack hpc =>
    rw [hpc] at hu
    refine ⟨st, [(i, .call op stack)], _, exec_step ?_, h.goto hin ?_ ?_ [], rfl⟩
    · simp only [Modlist.step, hu, Pc.view]
    all_goals simp [hpc, Pc.Inside, Pc.own]
  | @early op stack r hpc henter =>
    rw [hpc] at hu
    refine ⟨st, [(i, .run)], _, exec_step ?_, h.goto hin ?_ ?_ [], rfl⟩
    · simp only [Modlist.step, hu, Pc.view, henter]
    all_goals simp [hpc, Pc.Inside, Pc.own]
  | @arrive op stack pass hpc henter hown =>
    rw [hpc] at hu
    refine ⟨st, [(i, .run)], _, exec_step ?_, h.goto hin ?_ ?_ [], rfl⟩
    · simp only [Modlist.step, hu, Pc.view, henter]
    · simp [Pc.Inside]
    · rw [hown, hpc]
      rfl
  | @null op stack num hpc henter =>
    rw [hpc] at hu
    refine ⟨st, [(i, .run)], _, exec_step ?_, h.goto hin ?_ ?_ [], rfl⟩
    · simp only [Modlist.step, hu, Pc.view, henter]
    all_goals simp [hpc, Pc.Inside, Pc.own]
  | @vmalloc op stack num slot hpc henter =>
    rw [hpc] at hu
    obtain ⟨hlinks, hdata⟩ := hfresh
    refine ⟨_, [(i, .run)], _, exec_step ?_, h.vmalloc hin ?_ hlinks hdata, rfl⟩
    · simp only [Modlist.step, hu, Pc.view, henter]
    · rw [hpc, Pc.own]
      all_goals nofun
  | fill hpc hmem => exact ⟨_, [], u, rfl, h.fill hpc hmem, rfl⟩
  | @ret r hpc =>
    rw [hpc] at hu
    refine ⟨st, [(i, .run)], _, exec_step ?_, h.goto hin ?_ ?_ [], rfl⟩
    · simp only [Modlist.step, hu, Pc.view]
    all_goals simp [hpc, Pc.Inside, Pc.own]
  | lock hpc | access hpc | unlock hpc =>
    rw [hpc] at hout
    exact hout.elim

/-- A step is matched by a step of the machine that makes each pass in one go, or by none. -/
theorem Refines.step (h : Refines mylist s u) (hfuel : u.mylist.length < fuel)
    (hfresh : Fresh s (i, a)) {es : List (Event Op Reply)}
    (hmoves : Moves fuel mylist s i a s' es) :
    ∃ bs u', (Modlist.machine ι).exec u bs = some (u', es.map (Prod.mk i)) ∧
      Refines mylist s' u' ∧ u'.mylist.length ≤ u.mylist.length + 1 := by
  obtain ⟨st, M, M', h⟩ := h
  by_cases hout : (s.pc i).Outside
  · obtain ⟨st', bs, u', hexec, h', hlist⟩ := h.aside hout hfresh hmoves
    refine ⟨bs, u', hexec, ⟨st', M, M', h'⟩, ?_⟩
    rw [hlist]
    exact Nat.le_succ _
  · obtain ⟨buf, hu⟩ := h.pc i
    cases hmoves with
    | @lock op pass hpc hsp =>
      rw [hpc] at hu
      refine ⟨[(i, .run)], _, exec_step ?_, h.pass hfuel hpc hsp, length_critical_le _ _⟩
      simp only [Modlist.step, hu, Pc.view, h.sp, hsp, if_true]
    | access hpc hmem =>
      obtain ⟨mem, v, M₁, hmem', -, h'⟩ := h.access hpc
      obtain ⟨rfl, rfl⟩ := Prod.mk.inj (Option.some.inj (hmem'.symm.trans hmem))
      exact ⟨[], u, rfl, ⟨st, M₁, M', h'⟩, Nat.le_succ _⟩
    | @unlock op buf hpc =>
      obtain ⟨hu, h'⟩ := h.unlock hpc
      refine ⟨[(i, .run)], _, exec_step ?_, ⟨st, M, M', h'⟩, Nat.le_succ _⟩
      simp only [Modlist.step, hu]
    | call hpc | early hpc | arrive hpc | null hpc | vmalloc hpc | fill hpc | ret hpc =>
      rw [hpc] at hout
      exact absurd trivial hout

theorem refines_init : Refines mylist (machine ι fuel mylist).init (Modlist.machine ι).init := by
  have hhands : hands (fun _ : Addr => (Status.fresh : Status ι (Option Int32))) = ∅ := by
    simp [hands]
  refine ⟨fun _ => .fresh, Items.onlyHead mylist, Items.onlyHead mylist, ?_⟩
  constructor
  · rfl
  · exact fun _ => ⟨[], rfl⟩
  · intro i
    apply iff_of_false
    · rintro ⟨⟩
    · rintro ⟨op, rest, ⟨⟩⟩
  · intro i a g
    apply iff_of_false
    · rintro ⟨⟩
    · rintro ⟨⟩
  · rintro i nodo num ⟨⟩
  · rw [hhands]
    exact ⟨fun _ _ => rfl, fun _ _ => rfl, fun _ h => h.elim⟩
  · exact ⟨[], Items.holds_onlyHead mylist⟩
  · exact fun _ => rfl
  · rintro i op rest buf ⟨⟩

theorem Refines.exec (h : Refines mylist s u) {as : List (ι × Act)}
    (hfuel : u.mylist.length + as.length < fuel)
    (hfresh : (machine ι fuel mylist).Along Fresh s as) {tr : List (ι × Event Op Reply)}
    (hexec : (machine ι fuel mylist).exec s as = some (s', tr)) :
    ∃ bs u', (Modlist.machine ι).exec u bs = some (u', tr) ∧ Refines mylist s' u' := by
  induction as generalizing s u tr with
  | nil =>
    obtain ⟨rfl, rfl⟩ := Prod.mk.inj (Option.some.inj hexec)
    exact ⟨[], u, rfl, h⟩
  | cons ia as ih =>
    obtain ⟨i, a⟩ := ia
    rw [List.length_cons] at hfuel
    obtain ⟨s₁, es, t, hstep, hrest, rfl⟩ := Machine.exec_cons_eq_some.mp hexec
    obtain ⟨hia, has⟩ := (Machine.along_cons hstep as).mp hfresh
    obtain ⟨⟨s₁', evs⟩, hact, heq⟩ := Option.map_eq_some_iff.mp hstep
    cases heq
    obtain ⟨bs, u₁, hbs, h₁, hlen⟩ := h.step (by omega) hia (moves_of_step hact)
    obtain ⟨bs', u', hbs', h'⟩ := ih h₁ (by omega) has hrest
    exact ⟨bs ++ bs', u', Machine.exec_append_eq_some.mpr ⟨u₁, _, _, hbs, hbs', rfl⟩, h'⟩

theorem step_unlock {op : Op} {buf : List UInt8} (hpc : s.pc i = .inside op (.ret buf)) :
    (machine ι fuel mylist).step s (i, .run) =
      some ({ s.goto i (.ret (finish buf op)) with sp := none }, []) := by
  simp only [machine, step, hpc]
  rfl

theorem step_access {op : Op} {a : Access Int32} {rest : a.Value → Code Int32 (List UInt8)}
    {mem : Items Int32} {v : a.Value} (hpc : s.pc i = .inside op (.op a rest))
    (hmem : access a s.mem = some (mem, v)) :
    (machine ι fuel mylist).step s (i, .run) =
      some ({ s.goto i (.inside op (rest v)) with mem := mem }, []) := by
  simp only [machine, step, hpc, hmem]
  rfl

theorem step_fill {op : Op} {num : Int32} {nodo : Addr} {mem : Items Int32}
    (hpc : s.pc i = .filling op num (some nodo)) (hmem : s.mem.setData nodo num = some mem) :
    (machine ι fuel mylist).step s (i, .run) =
      some ({ s.goto i (.waiting op (.add num nodo)) with mem := mem }, []) := by
  simp only [machine, step, hpc, Option.bind_eq_bind, Option.bind_some, hmem]
  rfl

/-- The accesses that the pass of a process has left, with nobody else about. -/
def Pc.left (mem : Items Int32) : Pc → Nat
  | .inside _ rest => rest.steps ListHead.access mem
  | _ => 0

section Progress

variable {st : Addr → Status ι (Option Int32)} {M M' : Items Int32} {op : Op}
  {rest : Code Int32 (List UInt8)}

/-- Who holds `sp` has live memory before it at each access. -/
theorem Coupled.exists_step (h : Coupled mylist st M M' s u) (hpc : s.pc i = .inside op rest) :
    ∃ s', (machine ι fuel mylist).step s (i, .run) = some (s', []) := by
  cases rest with
  | ret buf => exact ⟨_, step_unlock hpc⟩
  | fail =>
    obtain ⟨buf, hu⟩ := h.pc i
    rw [hpc] at hu
    cases h.rest i op _ buf hpc hu
  | op a rest =>
    obtain ⟨mem, v, M₁, hmem, -, -⟩ := h.access hpc
    exact ⟨_, step_access hpc hmem⟩

theorem Coupled.exists_store (h : Coupled mylist st M M' s u) {num : Int32} {nodo : Addr}
    (hpc : s.pc i = .filling op num (some nodo)) :
    ∃ s', (machine ι fuel mylist).step s (i, .run) = some (s', []) := by
  obtain ⟨b, hb⟩ := Option.isSome_iff_exists.mp (h.kept i nodo none (by rw [hpc, Pc.own])).data
  have hmem : s.mem.setData nodo num =
      some { s.mem with data := Function.update s.mem.data nodo (some num) } := by
    rw [Items.setData, hb, Option.map_some]
  exact ⟨_, step_fill hpc hmem⟩

/-- What the others do leaves the holder of `sp` in its pass, and the list to it. -/
theorem Coupled.other {j : ι} (h : Coupled mylist st M M' s u) (hpc : s.pc i = .inside op rest)
    (hji : j ≠ i) (hfresh : Fresh s (j, a)) {es : List (Event Op Reply)}
    (hmoves : Moves fuel mylist s j a s' es) :
    ∃ st' u', Coupled mylist st' M M' s' u' ∧ s'.pc i = .inside op rest := by
  have hsp : s.sp = some i := (h.holder i).mpr ⟨op, rest, hpc⟩
  have hout : (s.pc j).Outside := by
    cases hmoves with
    | lock _ hfree => exact absurd (hsp.symm.trans hfree) (Option.some_ne_none i)
    | access hj | unlock hj =>
      have hheld := (h.holder j).mpr ⟨_, _, hj⟩
      exact absurd (Option.some.inj (hheld.symm.trans hsp)) hji
    | call hj | early hj | arrive hj | null hj | vmalloc hj | fill hj | ret hj =>
      rw [hj]
      trivial
  obtain ⟨st', bs, u', -, h', -⟩ := h.aside hout hfresh hmoves
  exact ⟨st', u', h', (pc_of_moves hmoves hji.symm).trans hpc⟩

/-- The holder of `sp` drops it with the step that follows the last access of its pass. The
induction is on the steps of all processes; each of the holder's own performs one access. -/
theorem Coupled.drops (h : Coupled mylist st M M' s u) (hpc : s.pc i = .inside op rest)
    {bs : List (ι × Act)} {tr : List (ι × Event Op Reply)}
    (hfresh : (machine ι fuel mylist).Along Fresh s bs)
    (hexec : (machine ι fuel mylist).exec s bs = some (s', tr))
    (hown : rest.steps ListHead.access M < bs.countP fun b => b.1 = i) :
    ∃ bs₁ s₁ tr₁, bs₁ <+: bs ∧ (machine ι fuel mylist).exec s bs₁ = some (s₁, tr₁) ∧
      s₁.sp = none := by
  induction bs generalizing s u st M rest tr with
  | nil => exact absurd hown (Nat.not_lt_zero _)
  | cons b bs ih =>
    obtain ⟨j, a⟩ := b
    obtain ⟨_, es, t, hstep, hrest, rfl⟩ := Machine.exec_cons_eq_some.mp hexec
    obtain ⟨hia, has⟩ := (Machine.along_cons hstep bs).mp hfresh
    obtain ⟨⟨s₂, evs⟩, hact, heq⟩ := Option.map_eq_some_iff.mp hstep
    cases heq
    have hmoves := moves_of_step hact
    -- the prefix that leads from the next state on to the drop
    have hlater : (∃ bs₁ s₁ tr₁, bs₁ <+: bs ∧
        (machine ι fuel mylist).exec s₂ bs₁ = some (s₁, tr₁) ∧ s₁.sp = none) →
        ∃ bs₁ s₁ tr₁, bs₁ <+: (j, a) :: bs ∧
          (machine ι fuel mylist).exec s bs₁ = some (s₁, tr₁) ∧ s₁.sp = none := by
      rintro ⟨bs₁, s₁, tr₁, hpre, hrun, hfree⟩
      exact ⟨(j, a) :: bs₁, s₁, _, List.cons_prefix_cons.mpr ⟨rfl, hpre⟩,
        Machine.exec_cons_eq_some.mpr ⟨_, _, _, hstep, hrun, rfl⟩, hfree⟩
    by_cases hji : j = i
    · subst hji
      rw [List.countP_cons_of_pos (by simp)] at hown
      cases hmoves with
      | unlock =>
        exact ⟨[(j, .run)], _, _, List.prefix_append _ bs, Machine.exec_single hstep, rfl⟩
      | access hpc' hmem =>
        obtain ⟨rfl, rfl⟩ := Pc.inside.inj (hpc.symm.trans hpc')
        obtain ⟨mem, v, M₁, hmem', hM₁, h₁⟩ := h.access hpc
        obtain ⟨rfl, rfl⟩ := Prod.mk.inj (Option.some.inj (hmem'.symm.trans hmem))
        rw [Prog.steps, hM₁, Option.elim_some] at hown
        exact hlater (ih h₁ (Function.update_self ..) has hrest (Nat.lt_of_succ_lt_succ hown))
      | call hj | early hj | arrive hj | null hj | vmalloc hj | fill hj | lock hj | ret hj =>
        cases hpc.symm.trans hj
    · rw [List.countP_cons_of_neg (by simpa using hji)] at hown
      obtain ⟨st', u', h₁, hpc₁⟩ := h.other hpc hji hia hmoves
      exact hlater (ih h₁ hpc₁ has hrest hown)

end Progress

variable {as : List (ι × Act)} {tr : List (ι × Event Op Reply)}

/-- However the accesses of the processes fall between each other, the calls are those of a shared
list, each at one instant, and where `sp` is free the memory is that list and the items that
processes have allocated for it, each its own. Each access to the list and each store in an item
has live memory before it, but for the store through a `NULL` from `vmalloc`, and a list whose
text has room in `modlistbuffer` is printed inside it. -/
theorem accesses_linearize (hfuel : as.length < fuel)
    (hfresh : (machine ι fuel mylist).Along Fresh (machine ι fuel mylist).init as)
    (h : (machine ι fuel mylist).Run as s tr) :
    ∃ l, (∃ bs f, (sharedList.machine ι).Run bs (l, f) tr) ∧
      (s.sp = none → ∃ M nodes, M.Holds mylist nodes l ∧
        s.mem.Splits {a | ∃ i num, (s.pc i).own = some (a, num)} M) ∧
      (∀ i j num num' a, (s.pc i).own = some (a, num) → (s.pc j).own = some (a, num') → i = j) ∧
      (∀ i op rest, s.pc i = .inside op rest →
        ∃ s', (machine ι fuel mylist).step s (i, .run) = some (s', [])) ∧
      (∀ i op num nodo, s.pc i = .filling op num (some nodo) →
        ∃ s', (machine ι fuel mylist).step s (i, .run) = some (s', [])) ∧
      ∀ i op buf, s.pc i = .inside op (.ret buf) → (rendering l).length ≤ 239 →
        buf.length < 240 := by
  obtain ⟨bs, u, hu, st, M, M', hcoupled⟩ :=
    refines_init.exec (by simpa [Modlist.machine] using hfuel) hfresh h
  refine ⟨u.mylist, linearizes bs u tr hu, ?_, ?_, ?_, ?_, ?_⟩
  · intro hsp
    obtain ⟨nodes, hlist⟩ := hcoupled.list
    have hhands : hands st = {a | ∃ i num, (s.pc i).own = some (a, num)} := by
      ext a
      exact exists_congr fun i => exists_congr fun num => hcoupled.table i a num
    rw [hcoupled.free hsp] at hlist
    exact ⟨M, nodes, hlist, hhands ▸ hcoupled.splits⟩
  · exact fun i j num num' a hi hj => hcoupled.table.owner_unique hi hj
  · exact fun i op rest hpc => hcoupled.exists_step hpc
  · exact fun i op num nodo hpc => hcoupled.exists_store hpc
  · intro i op buf hpc hlist
    exact (carries ⟨bs, tr, hu⟩).length_lt (hcoupled.unlock hpc).1 hlist

/-- A read is called before an item is added, and waits for `sp` meanwhile. -/
def readWaits : List (Bool × Act) :=
  [(false, .call (.write 0 (bytes "add 7\n") true) []), (true, .call (.read 0 9 true) []),
    (false, .vmalloc (some ⟨8192, ⟨0, 0⟩, 0⟩)), (false, .run), (false, .run), (true, .run)] ++
  List.replicate 6 (false, .run) ++ List.replicate 6 (true, .run) ++ [(false, .run)]

theorem accesses_linearize_overlap :
    ∃ s tr l bs f, (machine Bool 20 4096).Run readWaits s tr ∧
      (sharedList.machine Bool).Run bs (l, f) tr ∧
      tr = [(false, .invoked (.write 0 (bytes "add 7\n") true)), (true, .invoked (.read 0 9 true)),
        (true, .returned ⟨.done 2, bytes "7\n", 9⟩), (false, .returned ⟨.done 6, [], 6⟩)] := by
  have heval : ((machine Bool 20 4096).exec (machine Bool 20 4096).init readWaits).map
      (fun r => r.2) =
      some [(false, .invoked (.write 0 (bytes "add 7\n") true)),
        (true, .invoked (.read 0 9 true)), (true, .returned ⟨.done 2, bytes "7\n", 9⟩),
        (false, .returned ⟨.done 6, [], 6⟩)] := by decide +kernel
  obtain ⟨s, tr, hrun, htr⟩ := Machine.exists_run_of_eval heval
  obtain ⟨l, ⟨bs, f, hlinear⟩, -⟩ := accesses_linearize (by decide) (by decide +kernel) hrun
  exact ⟨s, tr, l, bs, f, hrun, hlinear, htr⟩

/-- The process that holds `sp` is alone in its pass, has live memory before it, and drops `sp` in
one step more than its pass has accesses left. Only its own steps count: between them the others
may do whatever they can. -/
theorem sp_comes_free (hfuel : as.length < fuel)
    (hfresh : (machine ι fuel mylist).Along Fresh (machine ι fuel mylist).init as)
    (h : (machine ι fuel mylist).Run as s tr) (hsp : s.sp = some i) :
    (∀ j, (s.pc j).Inside ↔ j = i) ∧
      (∃ s', (machine ι fuel mylist).step s (i, .run) = some (s', [])) ∧
      ∀ bs s' tr', (machine ι fuel mylist).Along Fresh s bs →
        (machine ι fuel mylist).exec s bs = some (s', tr') →
        (s.pc i).left s.mem < bs.countP (fun b => b.1 = i) →
        ∃ bs₁ s₁ tr₁, bs₁ <+: bs ∧ (machine ι fuel mylist).exec s bs₁ = some (s₁, tr₁) ∧
          s₁.sp = none := by
  obtain ⟨as', u, hu, st, M, M', hcoupled⟩ :=
    refines_init.exec (by simpa [Modlist.machine] using hfuel) hfresh h
  obtain ⟨op, rest, hpc⟩ := (hcoupled.holder i).mp hsp
  obtain ⟨buf, hview⟩ := hcoupled.pc i
  rw [hpc] at hview
  refine ⟨?_, hcoupled.exists_step hpc, ?_⟩
  · intro j
    rw [← hcoupled.holder j, hsp, Option.some_inj, eq_comm]
  · intro bs s' tr' hbs hexec hown
    rw [hpc, Pc.left, hcoupled.splits.steps_eq (hcoupled.rest i op rest buf hpc hview)] at hown
    exact hcoupled.drops hpc hbs hexec hown

/-- An item is being added. Another process gets one for itself meanwhile, stores in it, and finds
`sp` taken; a third one is refused its write. -/
theorem sp_comes_free_overlap :
    ∃ (as bs : List (Fin 3 × Act)) (s s' : State (Fin 3)) (tr tr' : List (Fin 3 × Event Op Reply)),
      (machine (Fin 3) 20 4096).Run as s tr ∧ s.sp = some 0 ∧
      (machine (Fin 3) 20 4096).exec s bs = some (s', tr') ∧
      ∃ bs₁ s₁ tr₁, bs₁ <+: bs ∧ (machine (Fin 3) 20 4096).exec s bs₁ = some (s₁, tr₁) ∧
        s₁.sp = none := by
  let M := machine (Fin 3) 20 4096
  let as : List (Fin 3 × Act) :=
    [(0, .call (.write 0 (bytes "add 7\n") true) []),
      (1, .call (.write 0 (bytes "add 8\n") true) []),
      (0, .vmalloc (some ⟨8192, ⟨0, 0⟩, 0⟩)), (0, .run), (0, .run), (0, .run)]
  let bs : List (Fin 3 × Act) :=
    [(1, .vmalloc (some ⟨16384, ⟨0, 0⟩, 0⟩)), (0, .run), (0, .run), (1, .run),
      (2, .call (.write 1 (bytes "cleanup\n") true) []), (2, .run), (0, .run), (0, .run),
      (2, .run), (0, .run)]
  have heval : (M.exec M.init (as ++ bs)).isSome := by decide +kernel
  have hhalf : (M.exec M.init as).map (fun r => (r.1.sp, (r.1.pc 0).left r.1.mem)) =
      some (some 0, 4) := by decide +kernel
  have hfresh : M.Along Fresh M.init (as ++ bs) := by decide +kernel
  obtain ⟨⟨s', tr⟩, hexec⟩ := Option.isSome_iff_exists.mp heval
  obtain ⟨s, tr₁, tr₂, hrun, hrest, -⟩ := Machine.exec_append_eq_some.mp hexec
  obtain ⟨has, hbs⟩ := (Machine.along_append hrun bs).mp hfresh
  rw [hrun] at hhalf
  obtain ⟨hsp, hleft⟩ := Prod.mk.inj (Option.some.inj hhalf)
  obtain ⟨-, -, hdrops⟩ := sp_comes_free (by decide) has hrun hsp
  refine ⟨as, bs, s, s', tr₁, tr₂, hrun, hsp, hrest, hdrops bs s' tr₂ hbs hrest ?_⟩
  rw [hleft]
  decide

end LinuxInternals.Modlist.Pointers
