import LinuxInternals.ListHead.Refinement

/-!
# Lists of items

A `struct list_item` has a datum beside its links, and is known by the address of these
(`list_entry` gives the one for the other). It is allocated by `vmalloc`, and the loops that
delete items run over the list with `list_for_each_safe`.
-/

namespace LinuxInternals.ListHead

open Links

structure Items (β : Type) where
  links : Heap
  data : Addr → Option β

/-- What `vmalloc` returns for a `struct list_item`, and what is in it. -/
structure Slot (β : Type) where
  item : Addr
  links : Link Addr
  data : β
deriving DecidableEq, Repr

namespace Items

variable {β : Type}

/-- A static head after `INIT_LIST_HEAD`, and no items. -/
def onlyHead (head : Addr) : Items β where
  links := Function.update (fun _ => none) head (some ⟨head, head⟩)
  data _ := none

/-- A new item at `item`, with what its memory held before. -/
def vmalloc (item : Addr) (links : Link Addr) (data : β) (m : Items β) : Items β where
  links := Function.update m.links item (some links)
  data := Function.update m.data item (some data)

def setData (item : Addr) (data : β) (m : Items β) : Option (Items β) :=
  (m.data item).map fun _ => { m with data := Function.update m.data item (some data) }

def vfree (item : Addr) (m : Items β) : Option (Items β) :=
  if (m.links item).isSome && (m.data item).isSome then
    some ⟨Function.update m.links item none, Function.update m.data item none⟩
  else none

def listAddTail (new head : Addr) (m : Items β) : Option (Items β) :=
  (ListHead.listAddTail new head m.links).map fun links => { m with links := links }

def listDel (entry : Addr) (m : Items β) : Option (Items β) :=
  (ListHead.listDel entry m.links).map fun links => { m with links := links }

/-- The memory is the list of `head`, of the items `nodes` with the data `l`, and nothing else. -/
structure Holds (m : Items β) (head : Addr) (nodes : List Addr) (l : List β) : Prop where
  links : ListHead.Holds m.links (Lists.empty.put head nodes) ∅
  data : nodes.map m.data = l.map some
  live : ∀ a, (m.data a).isSome ↔ a ∈ nodes

variable {m : Items β} {head item : Addr} {nodes xs ys : List Addr} {l as bs : List β} {b : β}

theorem initListHead_static (head : Addr) :
    initListHead head (Function.update (fun _ => none) head (some ⟨0, 0⟩)) =
      some (onlyHead head : Items β).links := by
  simp [initListHead, Links.setNext, Links.setPrev, onlyHead]

theorem holds_onlyHead (head : Addr) : (onlyHead head : Items β).Holds head [] [] := by
  have hout : head ∉ Lists.empty.nodes := holds_empty.notMem_nodes_iff.mpr rfl
  obtain ⟨links, hrun, h⟩ := (holds_empty.alloc hout ⟨0, 0⟩).initListHead
  obtain rfl := Option.some.inj ((@initListHead_static β head).symm.trans hrun)
  exact ⟨h, rfl, by simp [onlyHead]⟩

theorem Holds.ring (h : m.Holds head nodes l) : m.links.Ring (head :: nodes : List Addr) :=
  h.links.ring head nodes (Lists.entries_put_self _ _ _)

theorem Holds.length (h : m.Holds head nodes l) : nodes.length = l.length := by
  have hlen := congrArg List.length h.data
  rwa [List.length_map, List.length_map] at hlen

/-- The datum of a node in the middle of the list. -/
theorem Holds.data_split (h : m.Holds head (xs ++ item :: ys) (as ++ b :: bs))
    (hlen : ys.length = bs.length) :
    xs.map m.data = as.map some ∧ m.data item = some b ∧ ys.map m.data = bs.map some := by
  have hdata := h.data
  rw [List.map_append, List.map_append] at hdata
  obtain ⟨hxs, hrest⟩ := List.append_inj' hdata (by simp [hlen])
  rw [List.map_cons, List.map_cons, List.cons.injEq] at hrest
  exact ⟨hxs, hrest.1, hrest.2⟩

theorem Holds.addTail (h : m.Holds head nodes l) (hlinks : m.links item = none)
    (hdata : m.data item = none) (links : Link Addr) (garbage : β) :
    ∃ m₁ m', (m.vmalloc item links garbage).setData item b = some m₁ ∧
      m₁.listAddTail item head = some m' ∧ m'.Holds head (nodes ++ [item]) (l ++ [b]) := by
  obtain ⟨m', hrun, h'⟩ := (h.links.alloc (h.links.notMem_nodes_iff.mpr hlinks) links).listAddTail
    (Lists.entries_put_self _ _ _)
  refine ⟨⟨Function.update m.links item (some links), Function.update m.data item (some b)⟩,
    ⟨m', Function.update m.data item (some b)⟩, ?_, ?_, ?_⟩
  · simp only [setData, vmalloc, Function.update_self, Option.map_some, Function.update_idem]
  · simp only [listAddTail, hrun, Option.map_some]
  · have hnotin : item ∉ nodes := by
      intro hmem
      exact absurd ((h.live item).mpr hmem) (by simp [hdata])
    constructor
    · rwa [Lists.put_put] at h'
    · have hsame : nodes.map (Function.update m.data item (some b)) = nodes.map m.data := by
        apply List.map_congr_left
        intro x hx
        exact Function.update_of_ne (ne_of_mem_of_not_mem hx hnotin) _ _
      simp only [List.map_append, List.map_cons, List.map_nil, Function.update_self, hsame, h.data]
    · intro a
      by_cases ha : a = item
      · simp [ha]
      · simp [h.live a, ha]

theorem Holds.delete (h : m.Holds head (xs ++ item :: ys) (as ++ b :: bs))
    (hlen : ys.length = bs.length) :
    ∃ m₁ m', m.listDel item = some m₁ ∧ m₁.vfree item = some m' ∧
      m'.Holds head (xs ++ ys) (as ++ bs) := by
  obtain ⟨m', hrun, h'⟩ := h.links.listDel (Lists.entries_put_self _ _ _)
  obtain ⟨hsome, hfree⟩ := h'.free
  obtain ⟨hxs, hb, hys⟩ := h.data_split hlen
  have hout := h.ring.notMem
  have hupdate : ∀ zs : List Addr, (∀ x ∈ zs, x ∈ head :: (xs ++ ys)) →
      zs.map (Function.update m.data item none) = zs.map m.data := by
    intro zs hzs
    apply List.map_congr_left
    intro x hx
    exact Function.update_of_ne (ne_of_mem_of_not_mem (hzs x hx) hout) _ _
  refine ⟨⟨m', m.data⟩, ⟨Function.update m' item none, Function.update m.data item none⟩,
    ?_, ?_, ?_⟩
  · rw [listDel, hrun, Option.map_some]
  · simp [vfree, hsome, hb]
  · constructor
    · rwa [Lists.put_put] at hfree
    · rw [List.map_append, List.map_append, ← hxs, ← hys,
        hupdate xs (fun x hx => List.mem_cons_of_mem head (List.mem_append_left ys hx)),
        hupdate ys (fun x hx => List.mem_cons_of_mem head (List.mem_append_right xs hx))]
    · intro a
      by_cases ha : a = item
      · subst ha
        simpa using fun hmem => hout (List.mem_cons_of_mem head hmem)
      · have hlive := h.live a
        simpa [Function.update_of_ne ha, ha] using hlive

/-- A loop over the list that takes the items whose datum `p` marks out of the list and frees
them, and leaves the others alone. -/
theorem Holds.sweep (h : m.Holds head nodes l) (p : β → Bool)
    (body : Addr → Items β → Option (Items β))
    (hbody : ∀ pos m b, m.data pos = some b →
      body pos m = if p b then (m.listDel pos).bind (·.vfree pos) else some m)
    {fuel : Nat} (hfuel : nodes.length < fuel) :
    ∃ m' nodes', listForEachSafe Items.links body head fuel m = some m' ∧
      m'.Holds head nodes' (l.filter fun b => !p b) ∧ nodes'.Sublist nodes := by
  let I : List Addr → Items β → Prop := fun todo m' =>
    ∃ kept done bs, m'.Holds head (kept ++ todo) (done.filter (fun b => !p b) ++ bs) ∧
      l = done ++ bs ∧ todo.length = bs.length ∧ (kept ++ todo).Sublist nodes
  have hstart : I nodes m := ⟨[], [], l, h, rfl, h.length, List.Sublist.refl nodes⟩
  have hring : ∀ todo m', I todo m' →
      ∃ seen, m'.links.Ring (head :: (seen ++ todo) : List Addr) := by
    rintro todo m' ⟨kept, done, bs, hm, -⟩
    exact ⟨kept, hm.ring⟩
  have hstep : ∀ pos todo m', I (pos :: todo) m' → ∃ m'', body pos m' = some m'' ∧ I todo m'' := by
    rintro pos todo m' ⟨kept, done, bs, hm, hl, hlen, hsub⟩
    obtain ⟨b, bs, rfl⟩ := List.exists_cons_of_length_eq_add_one hlen.symm
    have hlen : todo.length = bs.length := Nat.succ_inj.mp hlen
    have hdata := (hm.data_split hlen).2.1
    have hdone : l = (done ++ [b]) ++ bs := by rw [hl, List.append_cons]
    rw [hbody pos m' b hdata]
    cases hp : p b with
    | true =>
      obtain ⟨m₁, m'', hdel, hfree, hm''⟩ := hm.delete hlen
      refine ⟨m'', by simp [hdel, hfree], kept, done ++ [b], bs, ?_, hdone, hlen, ?_⟩
      · simpa [hp] using hm''
      · exact ((List.sublist_cons_self pos todo).append_left kept).trans hsub
    | false =>
      refine ⟨m', rfl, kept ++ [pos], done ++ [b], bs, ?_, hdone, hlen, ?_⟩
      · simpa [hp] using hm
      · rwa [← List.append_cons]
  obtain ⟨m', hrun, kept, done, bs, hm, hl, hlen, hsub⟩ :=
    listForEachSafe_rule hring hstep h.ring hstart hfuel
  obtain rfl := List.eq_nil_of_length_eq_zero hlen.symm
  rw [List.append_nil] at hm hl hsub
  rw [List.append_nil] at hm
  exact ⟨m', kept, hrun, hl ▸ hm, hsub⟩

end Items

end LinuxInternals.ListHead
