import LinuxInternals.Lib.CData
import LinuxInternals.Modlist.Guard
import LinuxInternals.Multilist.Commands

/-!
# Reading an entry

`modlist_read` copies one line after another as long as they fit what the user asked for. A call
that has copied something moves the offset, and every call from such an offset on returns
nothing: a program that reads up to the end gets the lines of its first call.
-/

namespace LinuxInternals.Multilist

open Text CData Relation
open Modlist (rendering length_rendering_cons)

/-- What the loop has done: whether no copy has failed, the text that the user has got, `ret`, its
values at the comparisons, and the places in `int_buf` stored to. -/
structure Loop where
  copied : Bool
  out : List UInt8
  ret : Int
  compared : List Int
  stores : List Nat
deriving DecidableEq, Repr

/-- The loop of `modlist_read` with its types: `ret` is an `int`, and `len-ret` a `size_t`. -/
def loop (len : Nat) : Option Nat → List Int32 → Int → List UInt8 → Loop
  | _, [], ret, out => ⟨true, out, ret, [], []⟩
  | fault, data :: list, ret, out =>
    let nbytes := i32 (line data).length
    let stores := List.range ((line data).length + 1)
    if u64 (len - u64 ret) < u64 nbytes then ⟨true, out, ret, [ret], stores⟩
    else if fault = some 0 then ⟨false, out, ret, [ret], stores⟩
    else
      let r := loop len (fault.map Nat.pred) list (i32 (ret + nbytes)) (out ++ line data)
      { r with compared := ret :: r.compared, stores := stores ++ r.stores }

def modlistRead (q : Read) (list : List Int32) : Reply :=
  if 0 < q.off then ⟨.done 0, [], q.off⟩
  else
    let r := loop q.len q.fault list 0 []
    if r.copied then ⟨.done r.ret.toNat, r.out, q.off + r.ret.toNat⟩
    else ⟨.error .efault, r.out, q.off⟩

section Loop

variable {len : Nat}

/-- The subtraction of the comparison comes to what it says. -/
def Exact (len : Nat) (ret : Int) : Prop := (u64 (len - u64 ret) : Int) = len - ret

theorem exact_natCast (hlen : len < 18446744073709551616) {n : Nat} (h : n ≤ len) :
    Exact len n := by
  rw [Exact, u64_natCast (by omega), ← Nat.cast_sub h, u64_natCast (by omega)]

/-- With room for what is copied in an `int`, the loop is the one that counts without bound. -/
theorem loop_eq_readLoop (hlen : len < 18446744073709551616) (fault : Option Nat)
    (list : List (Addr × Int32)) (out : List UInt8) (hout : out.length ≤ len)
    (hbound : out.length + (rendering (list.map Prod.snd)).length < 2147483648 ∨
      len < 2147483648) :
    let r := loop len fault (list.map Prod.snd) out.length out
    (r.copied = (readLoop len fault list out).1 ∧ r.out = (readLoop len fault list out).2.1 ∧
      r.ret = r.out.length) ∧
    (∀ ret ∈ r.compared, Exact len ret) ∧ ∀ i ∈ r.stores, i < 20 := by
  induction list generalizing fault out with
  | nil => exact ⟨⟨rfl, rfl, rfl⟩, List.forall_mem_nil _, List.forall_mem_nil _⟩
  | cons e list ih =>
    obtain ⟨x, data⟩ := e
    have hline := length_line_le data
    have hstores : ∀ i ∈ List.range ((line data).length + 1), i < 20 := by
      intro i hi
      have hlt := List.mem_range.mp hi
      omega
    have hexact : Exact len (out.length : Int) := exact_natCast hlen hout
    have hroom : u64 (len - u64 (out.length : Int)) = len - out.length := by
      rw [Exact] at hexact
      omega
    have hnbytes : i32 ((line data).length : Int) = (line data).length :=
      i32_of_range (by omega) (by omega)
    simp only [List.map_cons, length_rendering_cons] at hbound
    simp only [List.map_cons, loop, readLoop, hroom, hnbytes, u64_natCast
      (show (line data).length < 18446744073709551616 by omega)]
    by_cases hstop : len - out.length < (line data).length
    · simp only [if_pos hstop]
      exact ⟨⟨trivial, trivial, trivial⟩, by simpa using hexact, hstores⟩
    simp only [if_neg hstop]
    by_cases hfault : fault = some 0
    · simp only [if_pos hfault]
      exact ⟨⟨trivial, trivial, trivial⟩, by simpa using hexact, hstores⟩
    simp only [if_neg hfault]
    have hret : i32 ((out.length : Int) + (line data).length) = (out ++ line data).length := by
      rw [List.length_append, Nat.cast_add, i32_of_range (by omega) (by omega)]
    have hnext := ih (fault.map Nat.pred) (out ++ line data)
      (by rw [List.length_append]; omega) (by rw [List.length_append]; omega)
    rw [hret]
    exact ⟨hnext.1, List.forall_mem_cons.mpr ⟨hexact, hnext.2.1⟩,
      List.forall_mem_append.mpr ⟨hstores, hnext.2.2⟩⟩

theorem loop_start (hlen : len < 18446744073709551616) (fault : Option Nat)
    (items : List (Addr × Int32))
    (hbound : (rendering (items.map Prod.snd)).length < 2147483648 ∨ len < 2147483648) :
    let r := loop len fault (items.map Prod.snd) 0 []
    (r.copied = (readLoop len fault items []).1 ∧ r.out = (readLoop len fault items []).2.1 ∧
      r.ret = r.out.length) ∧
    (∀ ret ∈ r.compared, Exact len ret) ∧ ∀ i ∈ r.stores, i < 20 :=
  loop_eq_readLoop hlen fault items [] (Nat.zero_le _) (by simpa using hbound)

/-- The numbers of a list stand in some items. -/
theorem exists_items (list : List Int32) :
    ∃ items : List (Addr × Int32), items.map Prod.snd = list :=
  ⟨list.map (Prod.mk 0), by simp⟩

/-- Without a fault the loop copies whole lines up to the first that does not fit. -/
theorem readLoop_take (list : List (Addr × Int32)) (out : List UInt8) (hout : out.length ≤ len) :
    ∃ k ≤ list.length, (readLoop len none list out).1 = true ∧
      (readLoop len none list out).2.1 = out ++ rendering ((list.map Prod.snd).take k) ∧
      out.length + (rendering ((list.map Prod.snd).take k)).length ≤ len ∧
      (k < list.length →
        len < out.length + (rendering ((list.map Prod.snd).take (k + 1))).length) := by
  induction list generalizing out with
  | nil => exact ⟨0, le_refl 0, rfl, (List.append_nil out).symm, hout, fun h => absurd h (by simp)⟩
  | cons e list ih =>
    obtain ⟨x, data⟩ := e
    rw [readLoop]
    by_cases hstop : len - out.length < (line data).length
    · rw [if_pos hstop]
      refine ⟨0, Nat.zero_le _, rfl, (List.append_nil out).symm, hout, fun _ => ?_⟩
      simp only [List.map_cons, List.take_succ_cons, length_rendering_cons]
      omega
    · rw [if_neg hstop, if_neg (by simp)]
      obtain ⟨k, hk, hcopied, htext, hfits, hnext⟩ := ih (out ++ line data)
        (by rw [List.length_append]; omega)
      rw [List.length_append] at hfits hnext
      refine ⟨k + 1, Nat.succ_le_succ hk, hcopied, ?_, ?_, ?_⟩
      · simp only [Option.map_none]
        rw [htext, List.map_cons, List.take_succ_cons, List.append_assoc, rendering, rendering,
          List.flatMap_cons]
      · simp only [List.map_cons, List.take_succ_cons, length_rendering_cons]
        omega
      · intro hlt
        rw [List.map_cons, List.take_succ_cons, length_rendering_cons, ← Nat.add_assoc]
        exact hnext (Nat.lt_of_succ_lt_succ hlt)

theorem length_rendering_take_le (l : List Int32) {i j : Nat} (h : i ≤ j) :
    (rendering (l.take i)).length ≤ (rendering (l.take j)).length := by
  obtain ⟨rest, hrest⟩ := List.take_prefix_take_left (l := l) h
  rw [← hrest, rendering, rendering, List.flatMap_append, List.length_append]
  exact Nat.le_add_right _ _

/-- A read that may copy everything, from the start of the file. -/
theorem modlistRead_take (hlen : len < 18446744073709551616) (list : List Int32)
    (hbound : (rendering list).length < 2147483648 ∨ len < 2147483648) :
    ∃ k ≤ list.length,
      modlistRead ⟨0, len, none⟩ list =
        ⟨.done (rendering (list.take k)).length, rendering (list.take k),
          (rendering (list.take k)).length⟩ ∧
      (rendering (list.take k)).length ≤ len ∧
      (k < list.length → len < (rendering (list.take (k + 1))).length) := by
  obtain ⟨items, rfl⟩ := exists_items list
  obtain ⟨⟨hcopied', hout, hret⟩, -, -⟩ := loop_start hlen none items hbound
  obtain ⟨k, hk, hcopied, htext, hfits, hnext⟩ := readLoop_take items [] (Nat.zero_le len)
  rw [List.nil_append] at htext
  rw [List.length_nil, Nat.zero_add] at hfits
  rw [List.length_map]
  refine ⟨k, hk, ?_, hfits, by simpa using hnext⟩
  rw [modlistRead, if_neg (lt_irrefl 0)]
  dsimp only
  rw [hcopied', hcopied, if_pos rfl, hret, hout, htext, Int.toNat_natCast, Nat.zero_add]

end Loop

section Call

variable {ι : Type} [DecidableEq ι] [Fintype ι] {s : State ι} {i : ι} {a : Addr}

/-- Nobody else is at work: the call returns what `modlistRead` makes of the list. -/
theorem read_returns (hpc : s.pc i = .user) (ha : a ∈ s.procs.map Prod.snd)
    (hlists : s.spLists = none) (hsp : (s.node a).sp = none) {len : Nat}
    (hlen : len < 18446744073709551616)
    (hbound : (rendering (s.listing a)).length < 2147483648 ∨ len < 2147483648) :
    ∃ s', Returns s i (.read a ⟨0, len, none⟩) s' (modlistRead ⟨0, len, none⟩ (s.listing a)) ∧
      s'.listing = s.listing := by
  let q : Read := ⟨0, len, none⟩
  have hreply : q.reply (readLoop len none (s.node a).list []) = modlistRead q (s.listing a) := by
    obtain ⟨⟨hcopied, hout, hret⟩, -, -⟩ := loop_start hlen none (s.node a).list hbound
    rw [Read.reply, modlistRead, if_neg (lt_irrefl 0)]
    dsimp only [q]
    rw [State.listing, hcopied, hret, hout, Int.toNat_natCast]
  have hgoto (t : State ι) (pc : Pc) : (t.goto i pc).pc i = pc := Function.update_self ..
  let t := s.goto i (.read a q .lockLists)
  let u := { t.goto i (.read a q .lock) with spLists := some i }
  let v := (u.goto i (.read a q (.unlock (modlistRead q (s.listing a))))).setNode a
    { s.node a with sp := some i }
  let w := (v.goto i (.read a q (.unlockLists (modlistRead q (s.listing a))))).unlock a
  have hcall : step s i (.call (.read a q)) = some (t, []) := by
    simp only [step, hpc, State.call, if_pos ha]
    rfl
  have hu : Runs i t u := by
    refine ⟨[], ?_⟩
    simp only [step, t, hgoto, State.read, State.lockLists]
    exact if_pos hlists
  have hv : Runs i u v := by
    refine ⟨(.node a, .touch) :: touches ((readLoop len none (s.node a).list []).2.2.map .item), ?_⟩
    have hpcu : u.pc i = .read a q .lock := hgoto t _
    have hnode : u.node = s.node := rfl
    simp only [step, hpcu, State.read, State.lock, hnode, if_pos hsp]
    rw [show q.len = len from rfl, show q.fault = none from rfl, hreply]
  have hw : Runs i v w := by
    refine ⟨[(.node a, .touch)], ?_⟩
    have hpcv : v.pc i = .read a q (.unlock (modlistRead q (s.listing a))) := hgoto u _
    simp only [step, hpcv, State.read]
    rfl
  have hend :
      Runs i w ((w.goto i (.ret (.entry a) (modlistRead q (s.listing a)))).unlockLists) := by
    refine ⟨[], ?_⟩
    have hpcw : w.pc i = .read a q (.unlockLists (modlistRead q (s.listing a))) := hgoto v _
    simp only [step, hpcw, State.read]
  refine ⟨_, ⟨t, [], .entry a, hcall, (((ReflTransGen.single hu).tail hv).tail hw).tail hend,
    hgoto w _⟩, ?_⟩
  have hlisting : w.listing = s.listing := by
    have hat : (v.node a).list = (s.node a).list := by
      simp [v, State.setNode]
    rw [show w = (v.goto i _).unlock a from rfl, State.unlock, listing_setNode]
    change Function.update v.listing a ((v.node a).list.map Prod.snd) = _
    rw [hat, listing_setNode, Function.update_idem]
    exact Function.update_eq_self a s.listing
  exact hlisting

/-- A read gives the user the longest run of whole lines that fits, subtracts without wrapping,
keeps to `int_buf`, and leaves the list as it is. -/
theorem modlist_read_longest (list : List Int32) (len : Nat)
    (hlen : len < 18446744073709551616) (htotal : (rendering list).length < 2147483648) :
    (∃ k ≤ list.length,
      modlistRead ⟨0, len, none⟩ list =
        ⟨.done (rendering (list.take k)).length, rendering (list.take k),
          (rendering (list.take k)).length⟩ ∧
      (rendering (list.take k)).length ≤ len ∧
      ∀ j ≤ list.length, (rendering (list.take j)).length ≤ len → j ≤ k) ∧
    (∀ ret ∈ (loop len none list 0 []).compared, Exact len ret) ∧
    (∀ j ∈ (loop len none list 0 []).stores, j < 20) ∧
    ∀ (s : State ι) (i : ι) (a : Addr), s.pc i = .user → a ∈ s.procs.map Prod.snd →
      s.spLists = none → (s.node a).sp = none → s.listing a = list →
      ∃ s', Returns s i (.read a ⟨0, len, none⟩) s' (modlistRead ⟨0, len, none⟩ list) ∧
        s'.listing = s.listing := by
  have hloop : (∀ ret ∈ (loop len none list 0 []).compared, Exact len ret) ∧
      ∀ j ∈ (loop len none list 0 []).stores, j < 20 := by
    obtain ⟨items, rfl⟩ := exists_items list
    exact (loop_start hlen none items (.inl htotal)).2
  refine ⟨?_, hloop.1, hloop.2, ?_⟩
  · obtain ⟨k, hk, hreply, hfits, hnext⟩ := modlistRead_take hlen list (.inl htotal)
    refine ⟨k, hk, hreply, hfits, fun j hj hjfits => ?_⟩
    by_contra hlt
    have hmore := length_rendering_take_le list (show k + 1 ≤ j by omega)
    have hover := hnext (by omega)
    omega
  · rintro s i a hpc ha hlists hsp rfl
    exact read_returns hpc ha hlists hsp hlen (.inl htotal)

/-- Three items are added to the first entry. -/
def threeItems : List (Unit × Act) :=
  [bytes "add 7", bytes "add -1", bytes "add 20"].flatMap fun text =>
    ((), .call (.write 0 0 text true text)) :: List.replicate 4 ((), .run)

/-- Five bytes have room for `7` and `-1`, but not for `20`. -/
theorem modlist_read_longest_five :
    ∃ s tr, (machine Unit).Run threeItems s tr ∧ s.listing 0 = [7, -1, 20] ∧
      (∃ k ≤ 3, modlistRead ⟨0, 5, none⟩ [7, -1, 20] =
        ⟨.done (rendering ([7, -1, 20].take k)).length, rendering ([7, -1, 20].take k),
          (rendering ([7, -1, 20].take k)).length⟩ ∧
        (rendering ([7, -1, 20].take k)).length ≤ 5 ∧
        ∀ j ≤ 3, (rendering ([7, -1, 20].take j)).length ≤ 5 → j ≤ k) ∧
      ∃ s', Returns s () (.read 0 ⟨0, 5, none⟩) s' (modlistRead ⟨0, 5, none⟩ [7, -1, 20]) ∧
        s'.listing = s.listing := by
  have heval : ((machine Unit).exec (machine Unit).init threeItems).map (fun r =>
      decide (r.1.pc () = .user ∧ 0 ∈ r.1.procs.map Prod.snd ∧ r.1.spLists = none ∧
        (r.1.node 0).sp = none ∧ r.1.listing 0 = [7, -1, 20])) = some true := by
    decide +kernel
  obtain ⟨s, tr, hrun, hs⟩ := Machine.exists_run_of_eval heval
  obtain ⟨hpc, hprocs, hlists, hsp, hlisting⟩ := of_decide_eq_true hs
  have hall := modlist_read_longest (ι := Unit) [7, -1, 20] 5 (by decide) (by decide)
  exact ⟨s, tr, hrun, hlisting, hall.1, hall.2.2.2 s () 0 hpc hprocs hlists hsp hlisting⟩

end Call

section Session

/-- The offset of an open file before the `k`th of its reads, whose sizes are given. -/
def offsetAt (list : List Int32) (sizes : Nat → Nat) : Nat → Nat
  | 0 => 0
  | k + 1 => (modlistRead ⟨offsetAt list sizes k, sizes k, none⟩ list).off

def replyAt (list : List Int32) (sizes : Nat → Nat) (k : Nat) : Reply :=
  modlistRead ⟨offsetAt list sizes k, sizes k, none⟩ list

/-- The `k`th read is the first to return 0. -/
def EndsAt (list : List Int32) (sizes : Nat → Nat) (k : Nat) : Prop :=
  (replyAt list sizes k).ret = .done 0 ∧ ∀ j < k, (replyAt list sizes j).ret ≠ .done 0

/-- What the reads before the `k`th have given the user. -/
def gathered (list : List Int32) (sizes : Nat → Nat) (k : Nat) : List UInt8 :=
  (List.range k).flatMap fun j => (replyAt list sizes j).out

variable (list : List Int32) (sizes : Nat → Nat)

/-- The first read takes the longest run of lines that fits, and no later one takes any. -/
theorem session_ends (hsize : sizes 0 < 18446744073709551616)
    (hbound : (rendering list).length < 2147483648 ∨ sizes 0 < 2147483648) :
    ∃ k ≤ list.length, (rendering (list.take k)).length ≤ sizes 0 ∧
      (k < list.length → sizes 0 < (rendering (list.take (k + 1))).length) ∧
      ∃ n, EndsAt list sizes n ∧ gathered list sizes n = rendering (list.take k) := by
  obtain ⟨k, hk, hreply, hfits, hnext⟩ := modlistRead_take hsize list hbound
  refine ⟨k, hk, hfits, hnext, ?_⟩
  have hfirst : replyAt list sizes 0 = _ := hreply
  by_cases hnil : rendering (list.take k) = []
  · refine ⟨0, ⟨?_, fun j hj => absurd hj (Nat.not_lt_zero j)⟩, hnil.symm⟩
    rw [hfirst, hnil]
    rfl
  · have hpos : 0 < (rendering (list.take k)).length := List.length_pos_of_ne_nil hnil
    refine ⟨1, ⟨?_, ?_⟩, ?_⟩
    · have hoff : offsetAt list sizes 1 = (rendering (list.take k)).length :=
        congrArg Reply.off hfirst
      rw [replyAt, modlistRead, hoff, if_pos hpos]
    · intro j hj
      obtain rfl : j = 0 := by omega
      rw [hfirst]
      simpa using hnil
    · exact (List.append_nil _).trans (congrArg Reply.out hfirst)

/-- A program that reads up to the end gets the whole list exactly when its first read asks for
that much. -/
theorem session_whole_iff (hsize : sizes 0 < 18446744073709551616)
    (hbound : (rendering list).length < 2147483648 ∨ sizes 0 < 2147483648) :
    ∃ n, EndsAt list sizes n ∧
      (gathered list sizes n = rendering list ↔ (rendering list).length ≤ sizes 0) := by
  obtain ⟨k, hk, hfits, hnext, n, hends, hgathered⟩ := session_ends list sizes hsize hbound
  refine ⟨n, hends, ?_⟩
  rw [hgathered]
  constructor
  · intro hwhole
    rwa [hwhole] at hfits
  · intro hle
    have hall : k = list.length := by
      by_contra hne
      have hover := hnext (by omega)
      have hmore := length_rendering_take_le list (show k + 1 ≤ list.length by omega)
      rw [List.take_length] at hmore
      omega
    rw [hall, List.take_length]

theorem session_whole_iff_two :
    ∃ n, EndsAt [7, -1] (fun _ => 12) n ∧
      gathered [7, -1] (fun _ => 12) n = rendering [7, -1] := by
  obtain ⟨n, hends, hiff⟩ := session_whole_iff [7, -1] (fun _ => 12) (by decide)
    (.inl (by decide))
  exact ⟨n, hends, hiff.mpr (by decide)⟩

/-- Seven numbers of one digit, read twelve bytes at a time: the last one is lost. -/
theorem sevenNumbers_cut :
    EndsAt [1, 2, 3, 4, 5, 6, 7] (fun _ => 12) 1 ∧
      gathered [1, 2, 3, 4, 5, 6, 7] (fun _ => 12) 1 = rendering [1, 2, 3, 4, 5, 6] ∧
      gathered [1, 2, 3, 4, 5, 6, 7] (fun _ => 12) 1 ≠ rendering [1, 2, 3, 4, 5, 6, 7] := by
  have hfirst : replyAt [1, 2, 3, 4, 5, 6, 7] (fun _ => 12) 0 =
      ⟨.done 12, rendering [1, 2, 3, 4, 5, 6], 12⟩ := by
    decide +kernel
  have hgathered : gathered [1, 2, 3, 4, 5, 6, 7] (fun _ => 12) 1 =
      rendering [1, 2, 3, 4, 5, 6] :=
    (List.append_nil _).trans (congrArg Reply.out hfirst)
  refine ⟨⟨?_, ?_⟩, hgathered, ?_⟩
  · have hoff : offsetAt [1, 2, 3, 4, 5, 6, 7] (fun _ => 12) 1 = 12 := congrArg Reply.off hfirst
    rw [replyAt, hoff]
    rfl
  · intro j hj
    obtain rfl : j = 0 := by omega
    rw [hfirst]
    decide
  · rw [hgathered]
    decide +kernel

end Session

end LinuxInternals.Multilist
