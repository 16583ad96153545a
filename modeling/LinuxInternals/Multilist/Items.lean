import LinuxInternals.Multilist.Steps

/-!
# The items of the lists

An item is in the list of one entry, or on its way into it. The loops that delete items look at an
item's neighbours, and never at an item that they have freed.
-/

namespace LinuxInternals.Multilist

open Text Lifetime

section DeleteLoop

variable {m h : Obj → Stage}

theorem exec_touch_list {os : List Obj} (hos : ∀ o ∈ os, (h o).Alive) :
    (pool m).exec h (touches os) = some (h, touches os) := exec_touches hos

/-- What a deleting loop does to the objects: it leaves the kept items alive and all other objects
alone. -/
theorem exec_deleteLoop (del : Int32 → Bool) (head prev : Obj) {l : List (Addr × Int32)}
    (hhead : (h head).Alive) (hprev : (h prev).Alive)
    (hlive : ∀ x ∈ l.map Prod.fst, h (.item x) = .live) (hnodup : (l.map Prod.fst).Nodup)
    (hheadne : ∀ x ∈ l.map Prod.fst, head ≠ .item x)
    (hprevne : ∀ x ∈ l.map Prod.fst, prev ≠ .item x) :
    ∃ h', (pool m).exec h (deleteLoop del head prev l).2 =
        some (h', (deleteLoop del head prev l).2) ∧
      (∀ o, (∀ x ∈ l.map Prod.fst, o ≠ .item x) → h' o = h o) ∧
      ∀ x ∈ (deleteLoop del head prev l).1.map Prod.fst, h' (.item x) = .live := by
  induction l generalizing h prev with
  | nil => exact ⟨h, rfl, fun _ _ => rfl, fun x hx => absurd hx (by simp [deleteLoop])⟩
  | cons y l ih =>
    obtain ⟨x, data⟩ := y
    simp only [List.map_cons, List.forall_mem_cons, List.nodup_cons] at hlive hnodup hheadne hprevne
    obtain ⟨hx, hlive⟩ := hlive
    obtain ⟨hxl, hnodup⟩ := hnodup
    have hlive' : (h (.item x)).Alive := by rw [hx]; exact Stage.alive_live
    have hne : ∀ z ∈ l.map Prod.fst, Obj.item x ≠ .item z := by
      rintro z hz heq
      cases heq
      exact hxl hz
    rw [deleteLoop]
    split
    · -- the item goes, and what comes after it is looked at before that
      have hnext : (h ((l.head?.map fun y => Obj.item y.1).getD head)).Alive := by
        cases l with
        | nil => exact hhead
        | cons z l =>
          have hz : h (.item z.1) = .live := hlive z.1 (by simp)
          show (h (.item z.1)).Alive
          rw [hz]
          exact Stage.alive_live
      set h₁ := Function.update h (.item x) Stage.unlinked with hh₁
      set h₂ := Function.update h₁ (.item x) Stage.freed with hh₂
      have hsame : ∀ o, o ≠ .item x → h₂ o = h o := by
        intro o ho
        rw [hh₂, hh₁, Function.update_of_ne ho, Function.update_of_ne ho]
      obtain ⟨h', hexec, hframe, hkept⟩ := ih (h := h₂) prev
        (by rw [hsame _ hheadne.1]; exact hhead) (by rw [hsame _ hprevne.1]; exact hprev)
        (fun z hz => by rw [hsame _ (hne z hz).symm]; exact hlive z hz) hnodup hheadne.2 hprevne.2
      refine ⟨h', ?_, fun o ho => ?_, hkept⟩
      · refine exec_append (exec_touch_list ?_) ?_
        · simp only [List.forall_mem_cons]
          exact ⟨hlive', hprev, hnext, nofun⟩
        · apply exec_cons (g := .unlinked) (by rw [hx]; rfl)
          apply exec_cons (g := .freed) (by rw [Function.update_self]; rfl)
          exact hexec
      · simp only [List.map_cons, List.forall_mem_cons] at ho
        rw [hframe o ho.2, hsame o ho.1]
    · obtain ⟨h', hexec, hframe, hkept⟩ := ih (h := h) (.item x) hhead hlive' hlive hnodup
        hheadne.2 hne
      refine ⟨h', ?_, fun o ho => ?_, ?_⟩
      · apply exec_cons (next_touch hlive')
        rw [Function.update_eq_self]
        exact hexec
      · simp only [List.map_cons, List.forall_mem_cons] at ho
        exact hframe o ho.2
      · simp only [List.map_cons, List.forall_mem_cons]
        refine ⟨?_, hkept⟩
        rw [hframe _ hne]
        exact hx

theorem deleteLoop_eq (del : Int32 → Bool) (head prev : Obj) (l : List (Addr × Int32)) :
    (deleteLoop del head prev l).1 = l.filter fun y => !del y.2 := by
  induction l generalizing prev with
  | nil => rfl
  | cons y l ih =>
    rw [deleteLoop]
    cases hdel : del y.2 with
    | true => simp [hdel, ih]
    | false => simp [hdel, ih]

/-- The items that the loop of `modlist_read` comes to are in the list. -/
theorem readLoop_subset {len : Nat} {fault : Option Nat} {l : List (Addr × Int32)}
    {out : List UInt8} {x : Addr} (hx : x ∈ (readLoop len fault l out).2.2) :
    x ∈ l.map Prod.fst := by
  induction l generalizing fault out with
  | nil => cases hx
  | cons y l ih =>
    rw [readLoop] at hx
    rw [List.map_cons]
    split at hx
    · exact List.mem_cons.mpr (.inl (List.mem_singleton.mp hx))
    · split at hx
      · exact List.mem_cons.mpr (.inl (List.mem_singleton.mp hx))
      · rcases List.mem_cons.mp hx with hx | hx
        · exact List.mem_cons.mpr (.inl hx)
        · exact List.mem_cons_of_mem _ (ih hx)

end DeleteLoop

section Items

variable {ι : Type} [DecidableEq ι] {s s' : State ι} {i : ι} {act : Act} {es : List Event}
  {it it' : Addr → Stage}

/-- The item that the process has allocated and not yet added to a list. -/
def Pc.item : Pc → Option Addr
  | .write _ _ (.lock (.add x _)) => some x
  | _ => none

def State.items (s : State ι) (a : Addr) : List Addr := (s.node a).list.map Prod.fst

/-- Every item that can be reached is alive, and there is one way to it. -/
structure Items (s : State ι) (it : Addr → Stage) : Prop where
  fresh : ∀ x, s.nextItem ≤ x → it x = .fresh
  mine : ∀ i x, (s.pc i).item = some x → it x = .live
  unique : ∀ i j x, (s.pc i).item = some x → (s.pc j).item = some x → i = j
  unlisted : ∀ i x, (s.pc i).item = some x → ∀ a, x ∉ s.items a
  live : ∀ a, ∀ x ∈ s.items a, it x = .live
  nodup : ∀ a, (s.items a).Nodup
  disjoint : ∀ a b x, x ∈ s.items a → x ∈ s.items b → a = b

omit [DecidableEq ι] in
/-- Lists that only lose items, and processes that only give items up. -/
theorem Items.shrink (h : Items s it) (hnext : s'.nextItem = s.nextItem)
    (hpc : ∀ j x, (s'.pc j).item = some x → (s.pc j).item = some x)
    (hitems : ∀ a, List.Sublist (s'.items a) (s.items a))
    (hfresh : ∀ x, it x = .fresh → it' x = .fresh)
    (hmine : ∀ j x, (s.pc j).item = some x → it' x = .live)
    (hlive : ∀ a, ∀ x ∈ s'.items a, it' x = .live) : Items s' it' where
  fresh x hx := hfresh x (h.fresh x (hnext ▸ hx))
  mine j x hx := hmine j x (hpc j x hx)
  unique j k x hj hk := h.unique j k x (hpc j x hj) (hpc k x hk)
  unlisted j x hx a hxa := h.unlisted j x (hpc j x hx) a ((hitems a).mem hxa)
  live := hlive
  nodup a := (h.nodup a).sublist (hitems a)
  disjoint a b x ha hb := h.disjoint a b x ((hitems a).mem ha) ((hitems b).mem hb)

theorem item_of_moves (hmoves : Moves s i act s' es) (hpc : (s'.pc i).item = none) {j : ι}
    {x : Addr} (hx : (s'.pc j).item = some x) : j ≠ i ∧ (s.pc j).item = some x := by
  have hji : j ≠ i := by
    rintro rfl
    rw [hpc] at hx
    cases hx
  rw [pc_of_ne hmoves hji] at hx
  exact ⟨hji, hx⟩

theorem Items.keep (h : Items s it) (hmoves : Moves s i act s' es)
    (hnext : s'.nextItem = s.nextItem) (hpc : (s'.pc i).item = none)
    (hitems : ∀ a, List.Sublist (s'.items a) (s.items a)) : Items s' it := by
  apply h.shrink hnext _ hitems (fun _ => id) h.mine
  · intro a x hx
    exact h.live a x ((hitems a).mem hx)
  · intro j x hx
    exact (item_of_moves hmoves hpc hx).2

end Items

section Heap

variable {ι : Type} [DecidableEq ι] {s s' : State ι} {i : ι} {act : Act} {es : List Event}
  {m : Obj → Stage} {nodes it : Addr → Stage} {a : Addr}

/-- The stages of all the objects. -/
def heap (nodes it : Addr → Stage) : Obj → Stage
  | .node a => nodes a
  | .item x => it x

theorem heap_update_node (nodes it : Addr → Stage) (a : Addr) (g : Stage) :
    Function.update (heap nodes it) (.node a) g = heap (Function.update nodes a g) it := by
  funext o
  cases o with
  | node b =>
    rcases eq_or_ne b a with rfl | hba
    · simp [heap]
    · simp [heap, hba]
  | item x => simp [heap]

theorem heap_update_item (nodes it : Addr → Stage) (x : Addr) (g : Stage) :
    Function.update (heap nodes it) (.item x) g = heap nodes (Function.update it x g) := by
  funext o
  cases o with
  | node b => simp [heap]
  | item y =>
    rcases eq_or_ne y x with rfl | hyx
    · simp [heap]
    · simp [heap, hyx]

omit [DecidableEq ι] in
theorem Items.exec_delete (h : Items s it) (ha : (nodes a).Alive) (del : Int32 → Bool) :
    ∃ it', (pool m).exec (heap nodes it)
        (deleteLoop del (.node a) (.node a) (s.node a).list).2 =
          some (heap nodes it', (deleteLoop del (.node a) (.node a) (s.node a).list).2) ∧
      (∀ x, x ∉ s.items a → it' x = it x) ∧
      ∀ x ∈ (deleteLoop del (.node a) (.node a) (s.node a).list).1.map Prod.fst,
        it' x = .live := by
  obtain ⟨h', hexec, hframe, hkept⟩ := exec_deleteLoop (m := m) (h := heap nodes it) del
    (.node a) (.node a) ha ha (h.live a) (h.nodup a) (by simp) (by simp)
  refine ⟨fun x => h' (.item x), ?_, fun x hx => ?_, hkept⟩
  · have heq : h' = heap nodes fun x => h' (.item x) := by
      funext o
      cases o with
      | node b => exact hframe _ (by simp)
      | item x => rfl
    rw [← heq]
    exact hexec
  · apply hframe _
    rintro y hy heq
    cases heq
    exact hx hy

theorem Items.delete (h : Items s it) (hmoves : Moves s i act s' es) {del : Int32 → Bool}
    {it' : Addr → Stage} (hnext : s'.nextItem = s.nextItem) (hpc : (s'.pc i).item = none)
    (hitems : s'.items = Function.update s.items a
      ((deleteLoop del (.node a) (.node a) (s.node a).list).1.map Prod.fst))
    (hframe : ∀ x, x ∉ s.items a → it' x = it x)
    (hkept : ∀ x ∈ (deleteLoop del (.node a) (.node a) (s.node a).list).1.map Prod.fst,
      it' x = .live) : Items s' it' := by
  have hsub : List.Sublist
      ((deleteLoop del (.node a) (.node a) (s.node a).list).1.map Prod.fst) (s.items a) := by
    rw [deleteLoop_eq]
    exact List.filter_sublist.map _
  refine h.shrink hnext (fun j x hx => ?_) (fun b => ?_) (fun x hx => ?_) (fun j x hx => ?_)
    (fun b x hx => ?_)
  · exact (item_of_moves hmoves hpc hx).2
  · rw [hitems]
    rcases eq_or_ne b a with rfl | hba
    · rwa [Function.update_self]
    · rw [Function.update_of_ne hba]
  · rw [hframe x, hx]
    intro hxa
    rw [h.live a x hxa] at hx
    cases hx
  · rw [hframe x (h.unlisted j x hx a), h.mine j x hx]
  · rw [hitems] at hx
    rcases eq_or_ne b a with rfl | hba
    · rw [Function.update_self] at hx
      exact hkept x hx
    · rw [Function.update_of_ne hba] at hx
      rw [hframe x fun hxa => hba (h.disjoint b a x hx hxa), h.live b x hx]

theorem Items.newItem (h : Items s it) {w : Write} {num : Int32}
    (hpc : s.pc i = .write a w (.vmalloc num)) :
    Items { s.goto i (.write a w (.lock (.add s.nextItem num))) with nextItem := s.nextItem + 1 }
      (Function.update it s.nextItem .live) := by
  have hfresh := h.fresh s.nextItem le_rfl
  have hlisted : ∀ b, s.nextItem ∉ s.items b := by
    intro b hb
    rw [h.live b _ hb] at hfresh
    cases hfresh
  have hmine : ∀ j, (s.pc j).item ≠ some s.nextItem := by
    intro j hj
    rw [h.mine j _ hj] at hfresh
    cases hfresh
  have hitem : ∀ j x, (Function.update s.pc i (.write a w (.lock (.add s.nextItem num))) j).item =
      some x → (j = i ∧ x = s.nextItem) ∨ (j ≠ i ∧ x ≠ s.nextItem ∧ (s.pc j).item = some x) := by
    intro j x hx
    rcases eq_or_ne j i with rfl | hji
    · rw [Function.update_self] at hx
      cases hx
      exact .inl ⟨rfl, rfl⟩
    · rw [Function.update_of_ne hji] at hx
      refine .inr ⟨hji, ?_, hx⟩
      rintro rfl
      exact hmine j hx
  refine ⟨fun x hx => ?_, fun j x hx => ?_, fun j k x hj hk => ?_, fun j x hx b hxb => ?_,
    fun b x hx => ?_, h.nodup, h.disjoint⟩
  · have hlt : s.nextItem < x := hx
    rw [Function.update_of_ne hlt.ne']
    exact h.fresh x hlt.le
  · rcases hitem j x hx with ⟨-, rfl⟩ | ⟨-, hne, hj⟩
    · exact Function.update_self ..
    · rw [Function.update_of_ne hne]
      exact h.mine j x hj
  · rcases hitem j x hj with ⟨rfl, rfl⟩ | ⟨-, hne, hj⟩ <;>
      rcases hitem k _ hk with ⟨rfl, heq⟩ | ⟨-, hne', hk⟩
    · rfl
    · exact absurd rfl hne'
    · exact absurd heq hne
    · exact h.unique j k x hj hk
  · rcases hitem j x hx with ⟨-, rfl⟩ | ⟨-, -, hj⟩
    · exact hlisted b hxb
    · exact h.unlisted j x hj b hxb
  · have hne : x ≠ s.nextItem := by
      rintro rfl
      exact hlisted b hx
    rw [Function.update_of_ne hne]
    exact h.live b x hx

theorem Items.add (h : Items s it) (hmoves : Moves s i act s' es) {x : Addr}
    (hmine : (s.pc i).item = some x) (hnext : s'.nextItem = s.nextItem)
    (hpc : (s'.pc i).item = none)
    (hitems : s'.items = Function.update s.items a (s.items a ++ [x])) : Items s' it := by
  have hx := h.unlisted i x hmine
  have hmem : ∀ b y, y ∈ s'.items b → y ∈ s.items b ∨ (b = a ∧ y = x) := by
    intro b y hy
    rw [hitems] at hy
    rcases eq_or_ne b a with rfl | hba
    · rw [Function.update_self] at hy
      exact (List.mem_append.mp hy).imp_right fun hy => ⟨rfl, List.mem_singleton.mp hy⟩
    · rw [Function.update_of_ne hba] at hy
      exact .inl hy
  have hitem {j : ι} {y : Addr} (hy : (s'.pc j).item = some y) := item_of_moves hmoves hpc hy
  refine ⟨fun y hy => h.fresh y (hnext ▸ hy), fun j y hy => h.mine j y (hitem hy).2,
    fun j k y hj hk => h.unique j k y (hitem hj).2 (hitem hk).2, ?_, ?_, ?_, ?_⟩
  · intro j y hy b hyb
    obtain ⟨hji, hj⟩ := hitem hy
    rcases hmem b y hyb with hyb | ⟨-, rfl⟩
    · exact h.unlisted j y hj b hyb
    · exact hji (h.unique j i y hj hmine)
  · intro b y hy
    rcases hmem b y hy with hy | ⟨-, rfl⟩
    · exact h.live b y hy
    · exact h.mine i y hmine
  · intro b
    rw [hitems]
    rcases eq_or_ne b a with rfl | hba
    · rw [Function.update_self]
      exact List.nodup_append.mpr ⟨h.nodup b, List.nodup_singleton x, by
        rintro y hy z hz rfl
        rw [List.mem_singleton.mp hz] at hy
        exact hx b hy⟩
    · rw [Function.update_of_ne hba]
      exact h.nodup b
  · intro b c y hb hc
    rcases hmem b y hb with hb | ⟨rfl, rfl⟩ <;> rcases hmem c _ hc with hc | ⟨rfl, hyx⟩
    · exact h.disjoint b c y hb hc
    · subst hyx
      exact absurd hb (hx b)
    · exact absurd hc (hx c)
    · rfl

omit [DecidableEq ι] in
theorem items_of_node {n : Node ι} (hnode : s'.node = Function.update s.node a n) :
    s'.items = Function.update s.items a (n.list.map Prod.fst) := by
  have hitems (u : State ι) : u.items = (fun n => n.list.map Prod.fst) ∘ u.node := rfl
  rw [hitems, hnode, Function.comp_update, hitems]

/-- A step runs the loop and leaves what it has kept in the list. -/
theorem Items.run_delete (h : Items s it) (ha : (nodes a).Alive) {del : Int32 → Bool} {pc : Pc}
    {n : Node ι} (hpc : pc.item = none)
    (hn : n.list = (deleteLoop del (.node a) (.node a) (s.node a).list).1)
    (hmoves : Moves s i act ((s.goto i pc).setNode a n) es) :
    ∃ it', (pool m).exec (heap nodes it)
        (deleteLoop del (.node a) (.node a) (s.node a).list).2 =
          some (heap nodes it', (deleteLoop del (.node a) (.node a) (s.node a).list).2) ∧
      Items ((s.goto i pc).setNode a n) it' := by
  obtain ⟨it', hexec, hframe, hkept⟩ := h.exec_delete (m := m) ha del
  refine ⟨it', hexec, h.delete hmoves rfl ?_ ?_ hframe hkept⟩
  · simp [State.goto, State.setNode, hpc]
  · rw [← hn]
    exact items_of_node rfl

/-- What `modlist_write` does to the objects with `sp` in its hands. -/
theorem Items.run_job (h : Items s it) (ha : (nodes a).Alive) {w : Write} {job : Job}
    (hpc : s.pc i = .write a w (.lock job)) {n : Node ι}
    (hn : n.list = (job.run a (s.node a).list).1)
    (hmoves : Moves s i act ((s.goto i (.write a w .unlock)).setNode a n) es) :
    ∃ it', (pool m).exec (heap nodes it) (job.run a (s.node a).list).2 =
        some (heap nodes it', (job.run a (s.node a).list).2) ∧
      Items ((s.goto i (.write a w .unlock)).setNode a n) it' := by
  cases job with
  | remove | cleanup => exact h.run_delete ha rfl hn hmoves
  | add x num =>
    have hmine : (s.pc i).item = some x := by rw [hpc]; rfl
    refine ⟨it, exec_touch_list ?_, h.add (a := a) hmoves hmine rfl ?_ ?_⟩
    · intro o ho
      have halive {y : Addr} (hy : it y = .live) : (heap nodes it (.item y)).Alive := by
        rw [heap, hy]
        exact Stage.alive_live
      rcases List.mem_append.mp ho with ho | ho
      · obtain ⟨y, hy, rfl⟩ := Option.map_eq_some_iff.mp (Option.mem_toList.mp ho)
        exact halive (h.live a _ (List.mem_map_of_mem (List.mem_of_mem_getLast? hy)))
      · rw [List.mem_singleton.mp ho]
        exact halive (h.mine i x hmine)
    · simp [State.goto, State.setNode, Pc.item]
    · refine (items_of_node (s := s) rfl).trans ?_
      rw [hn]
      simp [Job.run, State.items]

/-- The process is about to allocate, add or delete items. -/
def Pc.usesItems : Pc → Bool
  | .write _ _ (.vmalloc _) | .write _ _ (.lock _) | .remove _ _ .lock => true
  | _ => false

theorem Items.step (h : Items s it) (hmoves : Moves s i act s' es)
    (hquiet : (s.pc i).usesItems = false) : Items s' it := by
  have hset {b : Addr} {n : Node ι} (hnode : s'.node = Function.update s.node b n)
      (hlist : List.Sublist n.list (s.node b).list) :
      ∀ a, List.Sublist (s'.items a) (s.items a) := by
    intro a
    rw [items_of_node hnode]
    rcases eq_or_ne a b with rfl | hab
    · rw [Function.update_self]
      exact hlist.map _
    · rw [Function.update_of_ne hab]
  have hm := hmoves
  cases hmoves with
  | newItem hpc | writeLock hpc | cleanup hpc => simp [hpc, Pc.usesItems] at hquiet
  | spinLists | spin => exact h
  | vmalloc =>
    refine h.keep hm rfl ?_ (hset rfl (List.nil_sublist _))
    simp [State.goto, State.setNode, Pc.item]
  | isMarked | claim | readLock | unlockMarked | unlockClaimed | unlockEmpty | readUnlock
  | writeUnlock =>
    refine h.keep hm rfl ?_ (hset rfl (List.Sublist.refl _))
    simp [State.goto, State.setNode, State.unlock, Pc.item]
  | @callWrite _ _ _ p _ _ hstarts =>
    refine h.keep hm rfl ?_ fun _ => List.Sublist.refl _
    simp only [State.goto, Function.update_self]
    cases p with
    | vmalloc | unlock => rfl
    | lock job => cases job <;> first | rfl | cases hstarts
  | @vfree k =>
    refine h.keep hm rfl ?_ fun _ => List.Sublist.refl _
    cases k <;> simp [State.goto, Caller.pc, Pc.item]
  | _ =>
    refine h.keep hm rfl ?_ fun _ => List.Sublist.refl _
    simp [State.goto, State.unlockLists, Pc.item]

end Heap

end LinuxInternals.Multilist
