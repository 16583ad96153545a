import LinuxInternals.Clipboard.Basic

/-!
# The page stays a string

No call stores a byte other than zero at the end of the page, so that `strlen` ends in it,
whatever other calls do meanwhile.
-/

namespace LinuxInternals.Clipboard

open Modlist (Errno Ret Reply)

variable {ι : Type} {s s' : State ι} {i : ι} {a : Act} {es tr : List (Event ι)}

/-- The last call of `i` is a write of `buf` from the start. -/
def Writing (tr : List (Event ι)) (i : ι) (buf : List UInt8) (fault : Option Nat) : Prop :=
  ∃ before after, tr = before ++ .invoked i (.write 0 buf fault) :: after ∧
    ∀ op, .invoked i op ∉ after

/-- The copy of a write that the module has accepted has put the byte `b` of its text at the place
`p`: it has got that far, and before its fault if it has one. -/
def Stored (tr : List (Event ι)) (p : Nat) (b : UInt8) : Prop :=
  ∃ i buf fault before after, tr = before ++ .touched i p :: after ∧
    Writing before i buf fault ∧ buf.length < BUFFER_LENGTH ∧ (∀ f ∈ fault, p < f) ∧
    buf[p]? = some b

/-- Each byte is zero, or has been stored at its place. -/
def Known (tr : List (Event ι)) (bs : List UInt8) : Prop :=
  ∀ p b, bs[p]? = some b → b = 0 ∨ Stored tr p b

def Pc.Sound (tr : List (Event ι)) (i : ι) : Pc → Prop
  | .user => True
  | .copying _ buf fault k => buf.length < BUFFER_LENGTH ∧ k ≤ buf.length ∧ Writing tr i buf fault
  | .measuring _ _ _ k => k < BUFFER_LENGTH
  | .sending _ len _ nr_bytes out => nr_bytes < BUFFER_LENGTH ∧ nr_bytes ≤ len ∧
      out.length ≤ nr_bytes ∧ Known tr out
  | .ret r => r.out.length < BUFFER_LENGTH ∧ Known tr r.out

def Event.Sound (tr : List (Event ι)) : Event ι → Prop
  | .invoked _ _ => True
  | .touched _ index => index < BUFFER_LENGTH
  | .returned _ r => r.out.length < BUFFER_LENGTH ∧ Known tr r.out

structure Inv (s : State ι) (tr : List (Event ι)) : Prop where
  length : s.clipboard.length = BUFFER_LENGTH
  last : s.clipboard[BUFFER_LENGTH - 1]? = some 0
  known : Known tr s.clipboard
  pc : ∀ i, (s.pc i).Sound tr i
  events : ∀ e ∈ tr, e.Sound tr

theorem Writing.append {buf : List UInt8} {fault : Option Nat} (h : Writing tr i buf fault)
    (hes : ∀ op, .invoked i op ∉ es) : Writing (tr ++ es) i buf fault := by
  obtain ⟨before, after, rfl, hafter⟩ := h
  refine ⟨before, after ++ es, by simp, fun op hop => ?_⟩
  cases List.mem_append.mp hop with
  | inl hop => exact hafter op hop
  | inr hop => exact hes op hop

theorem Stored.mono {p : Nat} {b : UInt8} (h : Stored tr p b) (es : List (Event ι)) :
    Stored (tr ++ es) p b := by
  obtain ⟨i, buf, fault, before, after, rfl, h⟩ := h
  exact ⟨i, buf, fault, before, after ++ es, by simp, h⟩

theorem Known.mono {bs : List UInt8} (h : Known tr bs) (es : List (Event ι)) :
    Known (tr ++ es) bs :=
  fun p b hb => (h p b hb).imp_right fun ho => ho.mono es

/-- What `i` relies on stays while it makes no other call. -/
theorem Pc.Sound.append {pc : Pc} (h : pc.Sound tr i) (hes : ∀ op, .invoked i op ∉ es) :
    pc.Sound (tr ++ es) i := by
  cases pc with
  | user => trivial
  | copying off buf fault k => exact ⟨h.1, h.2.1, h.2.2.append hes⟩
  | measuring off len fault k => exact h
  | sending off len fault nr_bytes out => exact ⟨h.1, h.2.1, h.2.2.1, h.2.2.2.mono es⟩
  | ret r => exact ⟨h.1, h.2.mono es⟩

theorem Event.Sound.mono {e : Event ι} (h : e.Sound tr) (es : List (Event ι)) :
    e.Sound (tr ++ es) := by
  cases e with
  | invoked i op => trivial
  | touched i index => exact h
  | returned i r => exact ⟨h.1, h.2.mono es⟩

theorem Known.nil : Known tr [] := by
  intro p b hb
  exact absurd hb (by simp)

theorem Known.set {bs : List UInt8} (h : Known tr bs) {k : Nat} {b : UInt8}
    (hb : b = 0 ∨ Stored tr k b) : Known tr (bs.set k b) := by
  intro p c hc
  by_cases hp : p = k
  · subst hp
    rw [List.getElem?_set_self'] at hc
    obtain ⟨_, -, rfl⟩ := Option.map_eq_some_iff.mp hc
    exact hb
  · rw [List.getElem?_set_ne (Ne.symm hp)] at hc
    exact h p c hc

theorem Known.concat {bs : List UInt8} (h : Known tr bs) {b : UInt8}
    (hb : b = 0 ∨ Stored tr bs.length b) : Known tr (bs ++ [b]) := by
  intro p c hc
  by_cases hp : p < bs.length
  · rw [List.getElem?_append_left hp] at hc
    exact h p c hc
  · rw [List.getElem?_append_right (Nat.not_lt.mp hp)] at hc
    have hzero : p - bs.length = 0 := by
      by_contra hne
      obtain ⟨n, hn⟩ := Nat.exists_eq_succ_of_ne_zero hne
      simp [hn] at hc
    have hpe : p = bs.length := by omega
    subst hpe
    simp only [Nat.sub_self, List.getElem?_cons_zero, Option.some.injEq] at hc
    exact hc ▸ hb

theorem Known.load (h : Known tr s.clipboard) (k : Nat) :
    s.load k = 0 ∨ Stored tr k (s.load k) := by
  rw [State.load, List.getD_eq_getElem?_getD]
  cases hk : s.clipboard[k]? with
  | none => exact Or.inl rfl
  | some b => exact h k b hk

/-- The copy of a write stores a byte of its text, or a zero behind its fault. -/
theorem stored_copied {buf : List UInt8} {fault : Option Nat} (h : Writing tr i buf fault)
    (hlen : buf.length < BUFFER_LENGTH) (k : Nat) :
    copied buf fault k = 0 ∨ Stored (tr ++ [.touched i k]) k (copied buf fault k) := by
  unfold copied
  split_ifs with hfault
  · exact Or.inl rfl
  · rw [List.getD_eq_getElem?_getD]
    cases hk : buf[k]? with
    | none => exact Or.inl rfl
    | some b =>
      refine Or.inr ⟨i, buf, fault, tr, [], rfl, h, hlen, ?_, hk⟩
      rintro f hf
      rw [Option.mem_def.mp hf] at hfault
      simpa using hfault

theorem last_set {page : List UInt8} (hpage : page.length = BUFFER_LENGTH)
    (h : page[BUFFER_LENGTH - 1]? = some 0) {k : Nat} {b : UInt8}
    (hlast : k = BUFFER_LENGTH - 1 → b = 0) : (page.set k b)[BUFFER_LENGTH - 1]? = some 0 := by
  by_cases hk : k = BUFFER_LENGTH - 1
  · rw [hlast hk, hk]
    apply List.getElem?_set_self
    rw [hpage]
    decide
  · rw [List.getElem?_set_ne hk]
    exact h

theorem touched_sound {k : Nat} (hk : k < BUFFER_LENGTH) :
    ∀ e ∈ [Event.touched i k], e.Sound tr := by
  intro e he
  rw [List.mem_singleton.mp he]
  exact hk

theorem ret_sound (ret : Ret) (off : Nat) : Pc.Sound tr i (.ret ⟨ret, [], off⟩) :=
  ⟨Nat.zero_lt_succ _, Known.nil⟩

variable [DecidableEq ι]

/-- What a step does. -/
inductive Moves (s : State ι) (i : ι) : Act → State ι → List (Event ι) → Prop where
  | write {off : Nat} {buf : List UInt8} {fault : Option Nat} : s.pc i = .user →
      Moves s i (.call (.write off buf fault)) (s.goto i (clipboardWrite off buf fault))
        [.invoked i (.write off buf fault)]
  | read {off len : Nat} {fault : Option Nat} : s.pc i = .user →
      Moves s i (.call (.read off len fault)) (s.goto i (clipboardRead off len fault))
        [.invoked i (.read off len fault)]
  | copy {off : Nat} {buf : List UInt8} {fault : Option Nat} {k : Nat} :
      s.pc i = .copying off buf fault k → k < buf.length →
      Moves s i .run ((s.store k (copied buf fault k)).goto i (.copying off buf fault (k + 1)))
        [.touched i k]
  | fault {off : Nat} {buf : List UInt8} {fault : Option Nat} {k : Nat} :
      s.pc i = .copying off buf fault k → ¬k < buf.length →
      Moves s i .run (s.goto i (.ret ⟨.error .efault, [], off⟩)) []
  | close {off : Nat} {buf : List UInt8} {fault : Option Nat} {k : Nat} :
      s.pc i = .copying off buf fault k → ¬k < buf.length →
      Moves s i .run
        ((s.store buf.length 0).goto i (.ret ⟨.done buf.length, [], off + buf.length⟩))
        [.touched i buf.length]
  | short {off len : Nat} {fault : Option Nat} {k : Nat} :
      s.pc i = .measuring off len fault k →
      Moves s i .run (s.goto i (.ret ⟨.error .enospc, [], off⟩)) [.touched i k]
  | measured {off len : Nat} {fault : Option Nat} {k : Nat} :
      s.pc i = .measuring off len fault k → ¬len < k →
      Moves s i .run (s.goto i (.sending off len fault k [])) [.touched i k]
  | measure {off len : Nat} {fault : Option Nat} {k : Nat} :
      s.pc i = .measuring off len fault k → s.load k ≠ 0 →
      Moves s i .run (s.goto i (.measuring off len fault (k + 1))) [.touched i k]
  | sent {off len : Nat} {fault : Option Nat} {nr_bytes : Nat} {out : List UInt8} :
      s.pc i = .sending off len fault nr_bytes out → nr_bytes ≤ out.length →
      Moves s i .run (s.goto i (.ret ⟨.done nr_bytes, out, off + len⟩)) []
  | unsent {off len : Nat} {fault : Option Nat} {nr_bytes : Nat} {out : List UInt8} :
      s.pc i = .sending off len fault nr_bytes out →
      Moves s i .run (s.goto i (.ret ⟨.error .einval, out, off⟩)) []
  | send {off len : Nat} {fault : Option Nat} {nr_bytes : Nat} {out : List UInt8} :
      s.pc i = .sending off len fault nr_bytes out → ¬nr_bytes ≤ out.length →
      Moves s i .run
        (s.goto i (.sending off len fault nr_bytes (out ++ [s.load out.length])))
        [.touched i out.length]
  | ret {r : Reply} : s.pc i = .ret r → Moves s i .run (s.goto i .user) [.returned i r]

theorem moves_of_step (h : step s i a = some (s', es)) : Moves s i a s' es := by
  unfold step at h
  split at h
  · rename_i hpc
    cases h
    exact .write hpc
  · rename_i hpc
    cases h
    exact .read hpc
  · rename_i hpc
    split at h
    · rename_i hk
      cases h
      exact .copy hpc hk
    · rename_i hk
      split at h
      · cases h
        exact .fault hpc hk
      · cases h
        exact .close hpc hk
  · rename_i hpc
    split at h
    · split at h
      · cases h
        exact .short hpc
      · rename_i hlen
        cases h
        exact .measured hpc hlen
    · rename_i hload
      cases h
      exact .measure hpc hload
  · rename_i hpc
    split at h
    · rename_i hnr
      cases h
      exact .sent hpc hnr
    · rename_i hnr
      split at h
      · cases h
        exact .unsent hpc
      · cases h
        exact .send hpc hnr
  · rename_i hpc
    cases h
    exact .ret hpc
  · cases h

/-- Every event of a step is the caller's own. -/
theorem Moves.invoked_own (hm : Moves s i a s' es) {j : ι} (hj : j ≠ i) (op : Op) :
    .invoked j op ∉ es := by
  cases hm <;> simp [hj]

/-- The page has changed, and `i` has moved on. -/
theorem Inv.move (h : Inv s tr) {page : List UInt8} (hlength : page.length = BUFFER_LENGTH)
    (hlast : page[BUFFER_LENGTH - 1]? = some 0) (hknown : Known (tr ++ es) page) {pc : Pc}
    (hpc : pc.Sound (tr ++ es) i) (hown : ∀ j, j ≠ i → ∀ op, .invoked j op ∉ es)
    (hes : ∀ e ∈ es, e.Sound (tr ++ es)) :
    Inv ⟨page, Function.update s.pc i pc⟩ (tr ++ es) where
  length := hlength
  last := hlast
  known := hknown
  pc j := by
    change (Function.update s.pc i pc j).Sound (tr ++ es) j
    by_cases hj : j = i
    · subst hj
      simpa using hpc
    · rw [Function.update_of_ne hj]
      exact (h.pc j).append (hown j hj)
  events e he := by
    cases List.mem_append.mp he with
    | inl he => exact (h.events e he).mono es
    | inr he => exact hes e he

theorem Inv.goto (h : Inv s tr) {pc : Pc} (hpc : pc.Sound (tr ++ es) i)
    (hown : ∀ j, j ≠ i → ∀ op, .invoked j op ∉ es) (hes : ∀ e ∈ es, e.Sound (tr ++ es)) :
    Inv (s.goto i pc) (tr ++ es) :=
  h.move h.length h.last (h.known.mono es) hpc hown hes

theorem Inv.store (h : Inv s tr) {k : Nat} {b : UInt8} (hb : b = 0 ∨ Stored (tr ++ es) k b)
    (hlast : k = BUFFER_LENGTH - 1 → b = 0) {pc : Pc} (hpc : pc.Sound (tr ++ es) i)
    (hown : ∀ j, j ≠ i → ∀ op, .invoked j op ∉ es) (hes : ∀ e ∈ es, e.Sound (tr ++ es)) :
    Inv ((s.store k b).goto i pc) (tr ++ es) :=
  h.move ((List.length_set ..).trans h.length) (last_set h.length h.last hlast)
    ((h.known.mono es).set hb) hpc hown hes

theorem inv_of_moves (h : Inv s tr) (hm : Moves s i a s' es) : Inv s' (tr ++ es) := by
  have hi := h.pc i
  have hown : ∀ j, j ≠ i → ∀ op, .invoked j op ∉ es := fun j hj op => hm.invoked_own hj op
  cases hm with
  | @write off buf fault hpc =>
    refine h.goto ?_ hown ?_
    · unfold clipboardWrite
      split_ifs with hoff hlen
      · exact ret_sound _ _
      · exact ret_sound _ _
      · have hlen : buf.length < BUFFER_LENGTH := Nat.lt_succ_of_le (Nat.not_lt.mp hlen)
        obtain rfl := Nat.eq_zero_of_not_pos hoff
        exact ⟨hlen, Nat.zero_le _, tr, [], rfl, fun op => List.not_mem_nil⟩
    · intro e he
      rw [List.mem_singleton.mp he]
      trivial
  | @read off len fault hpc =>
    refine h.goto ?_ hown ?_
    · unfold clipboardRead
      split_ifs with hoff
      · exact ret_sound _ _
      · exact Nat.zero_lt_succ _
    · intro e he
      rw [List.mem_singleton.mp he]
      trivial
  | @copy off buf fault k hpc hk =>
    rw [hpc] at hi
    obtain ⟨hlen, -, hwriting⟩ := hi
    have hplace : k ≠ BUFFER_LENGTH - 1 := by omega
    refine h.store (stored_copied hwriting hlen k) (fun he => absurd he hplace) ?_ hown ?_
    · exact ⟨hlen, hk, hwriting.append (by simp)⟩
    · exact touched_sound (hk.trans hlen)
  | fault hpc hk =>
    refine h.goto ?_ hown ?_
    · exact ret_sound _ _
    · exact List.forall_mem_nil _
  | close hpc hk =>
    rw [hpc] at hi
    refine h.store (Or.inl rfl) (fun _ => rfl) ?_ hown ?_
    · exact ret_sound _ _
    · exact touched_sound hi.1
  | short hpc =>
    rw [hpc] at hi
    refine h.goto ?_ hown ?_
    · exact ret_sound _ _
    · exact touched_sound hi
  | measured hpc hlen =>
    rw [hpc] at hi
    refine h.goto ?_ hown ?_
    · exact ⟨hi, Nat.not_lt.mp hlen, Nat.zero_le _, Known.nil⟩
    · exact touched_sound hi
  | @measure off len fault k hpc hload =>
    rw [hpc] at hi
    refine h.goto ?_ hown ?_
    · -- the last byte is zero, so that the scan has not come to it
      have hplace : k ≠ BUFFER_LENGTH - 1 := by
        rintro rfl
        apply hload
        rw [State.load, List.getD_eq_getElem?_getD, h.last]
        rfl
      show k + 1 < BUFFER_LENGTH
      have hk : k < BUFFER_LENGTH := hi
      omega
    · exact touched_sound hi
  | sent hpc hnr =>
    rw [hpc] at hi
    obtain ⟨hlen, -, hout, hknown⟩ := hi
    refine h.goto ?_ hown ?_
    · exact ⟨Nat.lt_of_le_of_lt hout hlen, hknown.mono _⟩
    · exact List.forall_mem_nil _
  | unsent hpc =>
    rw [hpc] at hi
    obtain ⟨hlen, -, hout, hknown⟩ := hi
    refine h.goto ?_ hown ?_
    · exact ⟨Nat.lt_of_le_of_lt hout hlen, hknown.mono _⟩
    · exact List.forall_mem_nil _
  | @send off len fault nr_bytes out hpc hnr =>
    rw [hpc] at hi
    obtain ⟨hlen, hfits, hout, hknown⟩ := hi
    refine h.goto ?_ hown ?_
    · refine ⟨hlen, hfits, ?_, (hknown.concat (h.known.load out.length)).mono _⟩
      rw [List.length_append, List.length_singleton]
      omega
    · exact touched_sound (Nat.lt_of_le_of_lt hout hlen)
  | @ret r hpc =>
    rw [hpc] at hi
    refine h.goto ?_ hown ?_
    · trivial
    · intro e he
      rw [List.mem_singleton.mp he]
      exact ⟨hi.1, hi.2.mono _⟩

theorem inv_init : Inv (machine ι).init [] where
  length := List.length_replicate
  last := by
    rw [machine, List.getElem?_replicate]
    rfl
  known p b hb := Or.inl (List.eq_of_mem_replicate (List.mem_of_getElem? hb))
  pc _ := trivial
  events := List.forall_mem_nil _

theorem inv_of_run {as : List (ι × Act)} (h : (machine ι).Run as s tr) : Inv s tr :=
  h.invariant (C := fun _ _ => True) inv_init
    (fun _ _ a _ _ hI _ hstep => inv_of_moves hI (moves_of_step (i := a.1) (a := a.2) hstep))
    (Machine.along_true _ _)

/-- However the calls overlap, each load and store is in the page, the page ends in a zero, and
each byte that a read hands out is a zero, or the copy of a write that the module accepted has put
it into its place. -/
theorem clipboard_bytes {as : List (ι × Act)} (h : (machine ι).Run as s tr) :
    s.clipboard.length = BUFFER_LENGTH ∧ s.clipboard[BUFFER_LENGTH - 1]? = some 0 ∧
      (∀ i k, .touched i k ∈ tr → k < BUFFER_LENGTH) ∧
      ∀ i r, .returned i r ∈ tr → r.out.length < BUFFER_LENGTH ∧
        ∀ p b, r.out[p]? = some b → b = 0 ∨ Stored tr p b := by
  have hI := inv_of_run h
  exact ⟨hI.length, hI.last, fun i k hk => hI.events _ hk, fun i r hr => hI.events _ hr⟩

/-- A read that overlaps a write gets what the write has stored so far. The write that comes with
an offset has stored nothing. -/
theorem clipboard_bytes_overlap :
    ∃ s tr, (machine Bool).Run [(true, .call (.write 1 [99] none)), (true, .run),
        (false, .call (.write 0 [97, 98] (some 1))), (false, .run),
        (true, .call (.read 0 9 none)), (true, .run), (true, .run), (true, .run), (true, .run),
        (true, .run), (false, .run), (false, .run)] s tr ∧
      .returned true ⟨.done 1, [97], 9⟩ ∈ tr ∧ Stored tr 0 97 := by
  have heval : ((machine Bool).exec (machine Bool).init
      [(true, .call (.write 1 [99] none)), (true, .run),
        (false, .call (.write 0 [97, 98] (some 1))), (false, .run),
        (true, .call (.read 0 9 none)), (true, .run), (true, .run), (true, .run), (true, .run),
        (true, .run), (false, .run), (false, .run)]).map
          (fun r => decide (.returned true ⟨.done 1, [97], 9⟩ ∈ r.2)) =
      some true := by decide +kernel
  obtain ⟨s, tr, hrun, hmem⟩ := Machine.exists_run_of_eval heval
  have hmem := of_decide_eq_true hmem
  have hbyte := ((clipboard_bytes hrun).2.2.2 true _ hmem).2 0 97 rfl
  exact ⟨s, tr, hrun, hmem, hbyte.resolve_left (by decide)⟩

end LinuxInternals.Clipboard
