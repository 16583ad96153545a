import LinuxInternals.Clipboard.Bounds

/-!
# What is written is read

A write that runs through, and after it a read that runs through, hand the text over, in
whatever state the other processes have left the page and wherever they are.
-/

namespace LinuxInternals.Clipboard

open Text
open Modlist (Errno Ret Reply)

variable {ι : Type} [DecidableEq ι] {s : State ι} {i j : ι}

/-- The actions of a write of `buf` that nothing interrupts. -/
def writeThrough (i : ι) (buf : List UInt8) : List (ι × Act) :=
  (i, .call (.write 0 buf none)) :: List.replicate buf.length (i, .run) ++ [(i, .run), (i, .run)]

/-- The actions of a read that finds a string of `n` bytes. -/
def readThrough (i : ι) (len n : Nat) : List (ι × Act) :=
  (i, .call (.read 0 len none)) :: List.replicate n (i, .run) ++ [(i, .run)] ++
    List.replicate n (i, .run) ++ [(i, .run), (i, .run)]

theorem set_take_append_drop {buf c : List UInt8} {k : Nat} (hk : k < buf.length)
    (hc : buf.length ≤ c.length) :
    (buf.take k ++ c.drop k).set k (buf.getD k 0) = buf.take (k + 1) ++ c.drop (k + 1) := by
  have hlen : (buf.take k).length = k := List.length_take_of_le (Nat.le_of_lt hk)
  rw [List.set_append_right _ _ (by rw [hlen]), hlen, Nat.sub_self,
    List.drop_eq_getElem_cons (Nat.lt_of_lt_of_le hk hc), List.set_cons_zero,
    List.getD_eq_getElem?_getD, List.getElem?_eq_getElem hk, Option.getD_some,
    List.take_add_one, List.getElem?_eq_getElem hk, Option.toList_some, List.append_assoc,
    List.singleton_append]

/-- The write stores its bytes in order. -/
theorem exec_copy {buf : List UInt8} (hbuf : buf.length < s.clipboard.length) (off : Nat) :
    ∃ es, (machine ι).exec (s.goto i (.copying off buf none 0))
        (List.replicate buf.length (i, .run)) =
      some (⟨buf ++ s.clipboard.drop buf.length,
        Function.update s.pc i (.copying off buf none buf.length)⟩, es) := by
  have hrun := Machine.exec_replicate (M := machine ι) (a := (i, .run)) (n := buf.length)
    (f := fun k => (⟨buf.take k ++ s.clipboard.drop k,
      Function.update s.pc i (.copying off buf none k)⟩ : State ι)) (fun k hk => ?_)
  · simpa [State.goto] using hrun
  · refine ⟨[.touched i k], ?_⟩
    have hset := set_take_append_drop hk (Nat.le_of_lt hbuf)
    simp [machine, step, hk, State.goto, State.store, copied, ← hset]

theorem exec_writeThrough {buf : List UInt8} (hs : s.clipboard.length = BUFFER_LENGTH)
    (hpc : s.pc i = .user) (hbuf : buf.length < BUFFER_LENGTH) :
    ∃ es, (machine ι).exec s (writeThrough i buf) =
      some (⟨buf ++ 0 :: s.clipboard.drop (buf.length + 1), s.pc⟩,
        es ++ [.returned i ⟨.done buf.length, [], buf.length⟩]) := by
  have hcall : (machine ι).step s (i, .call (.write 0 buf none)) =
      some (s.goto i (.copying 0 buf none 0), [.invoked i (.write 0 buf none)]) := by
    have hfits : ¬BUFFER_LENGTH - 1 < buf.length := Nat.not_lt.mpr (Nat.le_of_lt_succ hbuf)
    simp only [machine, step, hpc, clipboardWrite, Nat.lt_irrefl, if_false, if_neg hfits]
  have hlen : buf.length < s.clipboard.length := hs ▸ hbuf
  obtain ⟨es, hcopy⟩ := exec_copy (i := i) hlen 0
  have hclose : (machine ι).exec ⟨buf ++ s.clipboard.drop buf.length,
        Function.update s.pc i (.copying 0 buf none buf.length)⟩ [(i, .run), (i, .run)] =
      some (⟨buf ++ 0 :: s.clipboard.drop (buf.length + 1), s.pc⟩,
        [.touched i buf.length, .returned i ⟨.done buf.length, [], buf.length⟩]) := by
    have hset : (buf ++ s.clipboard.drop buf.length).set buf.length 0 =
        buf ++ 0 :: s.clipboard.drop (buf.length + 1) := by
      rw [List.drop_eq_getElem_cons hlen, List.set_append_right _ _ (Nat.le_refl _), Nat.sub_self,
        List.set_cons_zero]
    have hback : Function.update s.pc i .user = s.pc := by
      rw [← hpc, Function.update_eq_self]
    simp [Machine.exec, machine, step, State.goto, State.store, hset, hback]
  refine ⟨.invoked i (.write 0 buf none) :: es ++ [.touched i buf.length], ?_⟩
  rw [writeThrough]
  apply Machine.exec_append_eq_some.mpr
  refine ⟨_, .invoked i (.write 0 buf none) :: es, _, ?_, hclose, by simp⟩
  rw [Machine.exec_cons hcall, hcopy]
  rfl

/-- `strlen` stops at the first zero. -/
theorem exec_measure {rest : List UInt8} {str : List UInt8} (hs : s.clipboard = str ++ 0 :: rest)
    (hstr : 0 ∉ str) (off len : Nat) :
    ∃ es, (machine ι).exec (s.goto i (.measuring off len none 0))
        (List.replicate str.length (i, .run)) =
      some (s.goto i (.measuring off len none str.length), es) := by
  apply Machine.exec_replicate (M := machine ι) (a := (i, .run)) (n := str.length)
    (f := fun k => s.goto i (.measuring off len none k))
  intro k hk
  refine ⟨[.touched i k], ?_⟩
  have hload : s.load k ≠ 0 := by
    rw [State.load, hs, List.getD_eq_getElem?_getD, List.getElem?_append_left hk,
      List.getElem?_eq_getElem hk, Option.getD_some]
    exact ne_of_mem_of_not_mem (List.getElem_mem hk) hstr
  have hload' : (s.goto i (.measuring off len none k)).load k ≠ 0 := hload
  have hpc : (s.goto i (.measuring off len none k)).pc i = .measuring off len none k :=
    Function.update_self ..
  simp only [machine, step, hpc, if_neg hload', Option.some.injEq, Prod.mk.injEq, and_true]
  simp [State.goto]

/-- The copy to the user hands out the string. -/
theorem exec_send {rest : List UInt8} {str : List UInt8} (hs : s.clipboard = str ++ 0 :: rest)
    (off len : Nat) :
    ∃ es, (machine ι).exec (s.goto i (.sending off len none str.length []))
        (List.replicate str.length (i, .run)) =
      some (s.goto i (.sending off len none str.length str), es) := by
  have hrun := Machine.exec_replicate (M := machine ι) (a := (i, .run)) (n := str.length)
    (f := fun k => s.goto i (.sending off len none str.length (str.take k))) (fun k hk => ?_)
  · simpa using hrun
  · refine ⟨[.touched i k], ?_⟩
    have hlen : (str.take k).length = k := List.length_take_of_le (Nat.le_of_lt hk)
    have hload : s.load k = str.get ⟨k, hk⟩ := by
      rw [State.load, hs, List.getD_eq_getElem?_getD, List.getElem?_append_left hk,
        List.getElem?_eq_getElem hk, Option.getD_some, List.get_eq_getElem]
    have htake : str.take k ++ [s.load k] = str.take (k + 1) := by
      rw [hload, List.take_add_one, List.getElem?_eq_getElem hk]
      rfl
    have hpc : (s.goto i (.sending off len none str.length (str.take k))).pc i =
        .sending off len none str.length (str.take k) := Function.update_self ..
    have hload' : (s.goto i (.sending off len none str.length (str.take k))).load k = s.load k :=
      rfl
    simp only [machine, step, hpc, hlen, if_neg (Nat.not_le.mpr hk), Option.any_none,
      Bool.false_eq_true, if_false, hload', htake, Option.some.injEq, Prod.mk.injEq, and_true]
    simp [State.goto]

theorem exec_readThrough {rest : List UInt8} {str : List UInt8} {len : Nat}
    (hs : s.clipboard = str ++ 0 :: rest) (hstr : 0 ∉ str) (hlen : str.length ≤ len)
    (hpc : s.pc i = .user) :
    ∃ es, (machine ι).exec s (readThrough i len str.length) =
      some (s, es ++ [.returned i ⟨.done str.length, str, len⟩]) := by
  have hcall : (machine ι).step s (i, .call (.read 0 len none)) =
      some (s.goto i (.measuring 0 len none 0), [.invoked i (.read 0 len none)]) := by
    simp only [machine, step, hpc, clipboardRead, Nat.lt_irrefl, if_false]
  obtain ⟨es₁, hmeasure⟩ := exec_measure (i := i) hs hstr 0 len
  have hend : (machine ι).exec (s.goto i (.measuring 0 len none str.length)) [(i, .run)] =
      some (s.goto i (.sending 0 len none str.length []), [.touched i str.length]) := by
    have hload : (s.goto i (.measuring 0 len none str.length)).load str.length = 0 := by
      rw [State.load, State.goto, hs, List.getD_eq_getElem?_getD,
        List.getElem?_append_right (Nat.le_refl _), Nat.sub_self]
      rfl
    have hat : (s.goto i (.measuring 0 len none str.length)).pc i =
        .measuring 0 len none str.length := Function.update_self ..
    apply Machine.exec_single
    simp only [machine, step, hat, if_pos hload, if_neg (Nat.not_lt.mpr hlen), Option.some.injEq,
      Prod.mk.injEq, and_true]
    simp [State.goto]
  obtain ⟨es₂, hsend⟩ := exec_send (i := i) hs 0 len
  have hreturn : (machine ι).exec (s.goto i (.sending 0 len none str.length str))
      [(i, .run), (i, .run)] = some (s, [.returned i ⟨.done str.length, str, len⟩]) := by
    have hback : Function.update s.pc i .user = s.pc := by
      rw [← hpc, Function.update_eq_self]
    simp [Machine.exec, machine, step, State.goto, hback]
  refine ⟨(.invoked i (.read 0 len none) :: es₁ ++ [.touched i str.length]) ++ es₂, ?_⟩
  rw [readThrough]
  apply Machine.exec_append_eq_some.mpr
  refine ⟨_, (.invoked i (.read 0 len none) :: es₁ ++ [.touched i str.length]) ++ es₂, _, ?_,
    hreturn, rfl⟩
  apply Machine.exec_append_eq_some.mpr
  refine ⟨_, .invoked i (.read 0 len none) :: es₁ ++ [.touched i str.length], _, ?_, hsend, rfl⟩
  apply Machine.exec_append_eq_some.mpr
  refine ⟨_, .invoked i (.read 0 len none) :: es₁, _, ?_, hend, rfl⟩
  rw [Machine.exec_cons hcall, hmeasure]
  rfl

theorem exists_cstring_split {c : List UInt8} (h : 0 ∈ c) :
    ∃ rest, c = cstring c ++ 0 :: rest := by
  induction c with
  | nil => exact absurd h List.not_mem_nil
  | cons b c ih =>
    by_cases hb : b = 0
    · exact ⟨c, by simp [cstring, hb]⟩
    · obtain ⟨rest, hrest⟩ := ih ((List.mem_cons.mp h).resolve_left (Ne.symm hb))
      refine ⟨rest, ?_⟩
      rw [cstring, List.takeWhile_cons, if_pos (by simpa using hb), List.cons_append]
      exact congrArg (b :: ·) hrest

/-- From any state that the overlapping calls of any processes lead to, a write of at most 4095
bytes that runs through is accepted, and a read after it gets its text up to the first zero. -/
theorem write_then_read {buf : List UInt8} {len : Nat} (hs : (machine ι).Reachable s)
    (hi : s.pc i = .user) (hj : s.pc j = .user) (hbuf : buf.length < BUFFER_LENGTH)
    (hlen : (cstring buf).length ≤ len) :
    ∃ s' es es', (machine ι).exec s (writeThrough i buf ++ readThrough j len (cstring buf).length) =
      some (s', es ++ [.returned i ⟨.done buf.length, [], buf.length⟩] ++
        (es' ++ [.returned j ⟨.done (cstring buf).length, cstring buf, len⟩])) := by
  obtain ⟨as, tr, hrun⟩ := hs
  obtain ⟨es, hwrite⟩ := exec_writeThrough (inv_of_run hrun).length hi hbuf
  have hzero : (0 : UInt8) ∈ buf ++ 0 :: s.clipboard.drop (buf.length + 1) :=
    List.mem_append_right buf List.mem_cons_self
  obtain ⟨rest, hsplit⟩ := exists_cstring_split hzero
  rw [cstring_append_zero] at hsplit
  obtain ⟨es', hread⟩ := exec_readThrough
    (s := ⟨buf ++ 0 :: s.clipboard.drop (buf.length + 1), s.pc⟩) hsplit
    (zero_not_mem_cstring buf) hlen hj
  exact ⟨_, es, es', Machine.exec_append_eq_some.mpr ⟨_, _, _, hwrite, hread, rfl⟩⟩

/-- While another process has stopped in the middle of its write. -/
theorem write_then_read_paused :
    ∃ (s s' : State Bool) (es es' : List (Event Bool)), s.pc true = .copying 0 [97, 98] none 1 ∧
      (machine Bool).exec s (writeThrough false [99] ++ readThrough false 9 1) =
        some (s', es ++ [.returned false ⟨.done 1, [], 1⟩] ++
          (es' ++ [.returned false ⟨.done 1, [99], 9⟩])) := by
  have heval : ((machine Bool).exec (machine Bool).init
      [(true, .call (.write 0 [97, 98] none)), (true, .run)]).map
        (fun r => (r.1.pc true, r.1.pc false)) =
      some (.copying 0 [97, 98] none 1, .user) := by decide +kernel
  obtain ⟨s, tr, hrun, hpc⟩ := Machine.exists_run_of_eval heval
  obtain ⟨htrue, hfalse⟩ := Prod.mk.inj hpc
  obtain ⟨s', es, es', h⟩ := write_then_read hrun.reachable hfalse hfalse
    (show [99].length < BUFFER_LENGTH by decide) (show (cstring [99]).length ≤ 9 by decide)
  exact ⟨s, s', es, es', htrue, h⟩

end LinuxInternals.Clipboard
