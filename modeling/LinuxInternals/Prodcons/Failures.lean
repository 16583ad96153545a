import LinuxInternals.Prodcons.Calls
import LinuxInternals.Lib.Population

/-!
# Calls of `/proc/prodcons` that fail

What it means for a failed call to have changed nothing, read off the events of a run, and the
life of an item in the hands of a process: a writer allocates it and has it until it is in the
buffer or freed, a reader takes it out, frees it and hands its text to the user. As long as
every process keeps to that, no failed call loses an item or leaves one behind.
-/

namespace LinuxInternals.Prodcons

open Text

def allocated : Event → List Int32
  | .alloc item => [item]
  | _ => []

def freed : Event → List Int32
  | .free item => [item]
  | _ => []

/-- The text of a read that has returned one. -/
def returned : Event → List (List UInt8)
  | .read (.done n) out _ => if n = 0 then [] else [out]
  | _ => []

/-- The event is the end of a call. -/
def Event.ends : Event → Bool
  | .wrote _ _ | .read _ _ _ => true
  | _ => false

variable {ι : Type} [DecidableEq ι]

def logged {β : Type} (f : Event → List β) (tr : List (ι × Event)) : List β :=
  tr.flatMap fun e => f e.2

/-- The events of the call that `i` is in. -/
def currentCall (i : ι) (tr : List (ι × Event)) : List Event :=
  tr.foldl (fun call je => if je.1 = i then if je.2.ends then [] else call ++ [je.2] else call) []

/-- What the end of a write that succeeds says to be in the buffer. -/
def written (tr : List (ι × Event)) (i : ι) : Event → List Int32
  | .wrote (.done _) _ => (currentCall i tr).flatMap inserted
  | _ => []

def writtenAfter (tr : List (ι × Event)) : List (ι × Event) → List Int32
  | [] => []
  | (i, e) :: es => written tr i e ++ writtenAfter (tr ++ [(i, e)]) es

/-- The values of the writes that have succeeded. -/
def successes (tr : List (ι × Event)) : List Int32 := writtenAfter [] tr

/-- No read that fails has removed an item, and no write that fails has left one in the buffer or
in memory. While nobody is in a call, the items in memory are those in the buffer, and every
value that was written has been read or is still there. -/
structure Harmless (quiet : Prop) (contents : List Int32) (tr : List (ι × Event)) : Prop where
  reads : ∀ pre i e out off, pre ++ [(i, Event.read (.error e) out off)] <+: tr →
    (currentCall i pre).flatMap removed = []
  writes : ∀ pre i e off, pre ++ [(i, Event.wrote (.error e) off)] <+: tr →
    (currentCall i pre).flatMap inserted = [] ∧
      (currentCall i pre).flatMap allocated = (currentCall i pre).flatMap freed
  memory : quiet → (logged allocated tr).length = (logged freed tr).length + contents.length
  values : quiet →
    ((successes tr).map line).Perm (logged returned tr ++ contents.map line)

section Snoc

variable {β : Type} (f : Event → List β) (tr : List (ι × Event)) (i j : ι) (e : Event)

omit [DecidableEq ι] in
theorem logged_snoc : logged f (tr ++ [(i, e)]) = logged f tr ++ f e := by
  simp [logged]

omit [DecidableEq ι] in
theorem logged_append (es : List Event) :
    logged f (tr ++ es.map (Prod.mk i)) = logged f tr ++ es.flatMap f := by
  rw [logged, List.flatMap_append, List.flatMap_map, logged]

theorem currentCall_snoc :
    currentCall j (tr ++ [(i, e)]) =
      if i = j then if e.ends then [] else currentCall j tr ++ [e] else currentCall j tr := by
  rw [currentCall, List.foldl_append]
  rfl

theorem successes_snoc : successes (tr ++ [(i, e)]) = successes tr ++ written tr i e := by
  have hafter : ∀ past : List (ι × Event), writtenAfter past (tr ++ [(i, e)]) =
      writtenAfter past tr ++ written (past ++ tr) i e := by
    induction tr with
    | nil => intro past; simp [writtenAfter]
    | cons x tr ih =>
      intro past
      rw [List.cons_append, writtenAfter, ih, writtenAfter, List.append_assoc, List.append_assoc]
      rfl
  exact hafter []

end Snoc

section Hands

/-- What a process has to do with an item. -/
inductive Hand where
  | empty
  | holds (item : Int32)
  | dropped (item : Int32)
  | inserted (item : Int32)
  | taken (item : Int32)
  | spent (item : Int32)
deriving DecidableEq, Repr

inductive Hand.Next : Hand → Event → Hand → Prop where
  | refuseWrite {v off} : Next .empty (.wrote v off) .empty
  | refuseRead {e off} : Next .empty (.read (.error e) [] off) .empty
  | endOfFile {off} : Next .empty (.read (.done 0) [] off) .empty
  | alloc {item} : Next .empty (.alloc item) (.holds item)
  | drop {item} : Next (.holds item) (.free item) (.dropped item)
  | refuseDropped {item e off} : Next (.dropped item) (.wrote (.error e) off) .empty
  | insert {item} : Next (.holds item) (.insert item) (.inserted item)
  | wrote {item n off} : Next (.inserted item) (.wrote (.done n) off) .empty
  | remove {item} : Next .empty (.remove item) (.taken item)
  | free {item} : Next (.taken item) (.free item) (.spent item)
  | read {item n off} : n ≠ 0 → Next (.spent item) (.read (.done n) (line item) off) .empty

inductive Hand.Follows : Hand → List Event → Hand → Prop where
  | nil {h} : Follows h [] h
  | cons {h e h' es h''} : h.Next e h' → Follows h' es h'' → Follows h (e :: es) h''

theorem Hand.Next.follows {h h' : Hand} {e : Event} (hnext : h.Next e h') : h.Follows [e] h' :=
  .cons hnext .nil

/-- The end of a read that succeeds. -/
theorem follows_readTail {off len : Nat} {item : Int32} {copied : Bool}
    (h : (decide (len < (line item).length) || !copied) = false) :
    (Hand.taken item).Follows (readTail off len item copied) .empty := by
  obtain ⟨hlen, hcopied⟩ := Bool.or_eq_false_iff.mp h
  have hne : (line item).length ≠ 0 := by
    rw [line, List.length_append]
    exact Nat.succ_ne_zero _
  rw [readTail, if_neg (of_decide_eq_false hlen), if_neg (by rw [hcopied]; decide)]
  exact .cons .free (Hand.Next.read hne).follows

/-- The end of a read that fails. -/
theorem exists_readTail {off len : Nat} {item : Int32} {copied : Bool}
    (h : (decide (len < (line item).length) || !copied) = true) :
    ∃ e, readTail off len item copied = [.free item, .read (.error e) [] off] := by
  rw [readTail]
  by_cases hlen : len < (line item).length
  · exact ⟨.enospc, by rw [if_pos hlen]⟩
  · have hcopied : (!copied) = true := by simpa [hlen] using h
    exact ⟨.einval, by rw [if_neg hlen, if_pos hcopied]⟩

/-- The trace leaves the items in these hands. -/
inductive Hands : (ι → Hand) → List (ι × Event) → Prop where
  | nil : Hands (fun _ => .empty) []
  | snoc {hand tr i e h} : Hands hand tr → (hand i).Next e h →
      Hands (Function.update hand i h) (tr ++ [(i, e)])

variable {hand : ι → Hand} {tr : List (ι × Event)} {i : ι} {e : Event} {h : Hand}
  {item : Int32}

theorem Hands.follow {es : List Event} (hhand : Hands hand tr) (hes : (hand i).Follows es h) :
    Hands (Function.update hand i h) (tr ++ es.map (Prod.mk i)) := by
  induction es generalizing hand tr with
  | nil =>
    cases hes
    simpa using hhand
  | cons e es ih =>
    cases hes with
    | cons hnext hes =>
      have hrest := ih (hhand.snoc hnext) (by rwa [Function.update_self])
      rw [Function.update_idem, List.append_assoc] at hrest
      exact hrest

theorem Hands.of_snoc (hhand : Hands hand (tr ++ [(i, e)])) :
    ∃ hand₀ h, Hands hand₀ tr ∧ (hand₀ i).Next e h ∧ hand = Function.update hand₀ i h := by
  generalize htr : tr ++ [(i, e)] = t at hhand
  cases hhand with
  | nil => exact absurd htr (by simp)
  | snoc hhand hnext =>
    obtain ⟨rfl, hlast⟩ := List.append_inj' htr rfl
    cases hlast
    exact ⟨_, _, hhand, hnext, rfl⟩

theorem Hands.prefix_of {pre : List (ι × Event)} (hhand : Hands hand tr) (hpre : pre <+: tr) :
    ∃ hand₀, Hands hand₀ pre := by
  induction hhand with
  | nil =>
    rw [List.prefix_nil.mp hpre]
    exact ⟨_, .nil⟩
  | snoc hhand hnext ih =>
    rcases List.prefix_concat_iff.mp hpre with rfl | hpre
    · exact ⟨_, hhand.snoc hnext⟩
    · exact ih hpre

/-- What has happened in the call so far. -/
def Hand.call : Hand → List Event
  | .empty => []
  | .holds item => [.alloc item]
  | .dropped item => [.alloc item, .free item]
  | .inserted item => [.alloc item, .insert item]
  | .taken item => [.remove item]
  | .spent item => [.remove item, .free item]

theorem Hand.Next.call {h' : Hand} (hnext : h.Next e h') :
    h'.call = if e.ends then [] else h.call ++ [e] := by
  cases hnext <;> rfl

theorem Hands.call (hhand : Hands hand tr) (j : ι) : currentCall j tr = (hand j).call := by
  induction hhand with
  | nil => rfl
  | @snoc hand tr i e h _ hnext ih =>
    rw [currentCall_snoc]
    rcases eq_or_ne j i with rfl | hji
    · rw [Function.update_self, if_pos rfl, hnext.call, ih]
    · rw [Function.update_of_ne hji, if_neg hji.symm, ih]

/-- Every event goes on from what its process has done in the call. -/
theorem Hands.exists_next {pre : List (ι × Event)} (hhand : Hands hand tr)
    (hpre : pre ++ [(i, e)] <+: tr) : ∃ h₀ h : Hand, h₀.Next e h ∧ currentCall i pre = h₀.call := by
  obtain ⟨hand₁, hhand₁⟩ := hhand.prefix_of hpre
  obtain ⟨hand₀, h, hhand₀, hnext, -⟩ := hhand₁.of_snoc
  exact ⟨hand₀ i, h, hnext, hhand₀.call i⟩

end Hands

section Balance

variable [Fintype ι] {hand : ι → Hand} {tr : List (ι × Event)} {i : ι} {e : Event} {h : Hand}
  {item : Int32}

/-- What comes in goes out again, or is with the processes at `level`. -/
theorem Hands.balance {F G : List (ι × Event) → Nat} {level : Hand → Bool} (hnil : F [] = G [])
    (hempty : level .empty = false)
    (hstep : ∀ tr hand i e h, Hands hand tr → (hand i).Next e h → ∃ a b,
      F (tr ++ [(i, e)]) = F tr + a ∧ G (tr ++ [(i, e)]) = G tr + b ∧
        a + (level (hand i)).toNat = b + (level h).toNat)
    (hhand : Hands hand tr) : F tr = G tr + headcount level hand := by
  induction hhand with
  | nil => rw [hnil, headcount_const _ _ hempty, Nat.add_zero]
  | @snoc hand tr i e h hhand hnext ih =>
    obtain ⟨a, b, hF, hG, hlevel⟩ := hstep tr hand i e h hhand hnext
    have hcount := headcount_update level hand i h
    omega

/-- Has an item that is not in the buffer, and has not freed it. -/
def Hand.owns : Hand → Bool
  | .holds _ | .taken _ => true
  | _ => false

theorem Hands.memory (hhand : Hands hand tr) :
    (logged allocated tr).length + (logged removed tr).length =
      (logged freed tr).length + (logged inserted tr).length + headcount Hand.owns hand := by
  refine hhand.balance
    (F := fun tr => (logged allocated tr).length + (logged removed tr).length)
    (G := fun tr => (logged freed tr).length + (logged inserted tr).length) rfl rfl ?_
  intro tr hand i e h _ hnext
  refine ⟨(allocated e).length + (removed e).length, (freed e).length + (inserted e).length,
    ?_, ?_, ?_⟩
  · simp only [logged_snoc, List.length_append]
    omega
  · simp only [logged_snoc, List.length_append]
    omega
  · generalize hand i = h₀ at hnext ⊢
    cases hnext <;> rfl

theorem count_single {β : Type} [BEq β] [LawfulBEq β] (x y : β) : [x].count y = (x == y).toNat := by
  rw [List.count_singleton]
  cases x == y <;> rfl

/-- Has put the value into the buffer and not returned. -/
def Hand.writes (val : Int32) : Hand → Bool
  | .inserted item => item == val
  | _ => false

theorem Hands.successes (hhand : Hands hand tr) (val : Int32) :
    (logged inserted tr).count val =
      (successes tr).count val + headcount (Hand.writes val) hand := by
  refine hhand.balance (F := fun tr => (logged inserted tr).count val)
    (G := fun tr => (Prodcons.successes tr).count val) rfl rfl ?_
  intro tr hand i e h hhand hnext
  refine ⟨(inserted e).count val, (written tr i e).count val, ?_, ?_, ?_⟩
  · simp only [logged_snoc, List.count_append]
  · simp only [successes_snoc, List.count_append]
  · have hcall := hhand.call i
    generalize hand i = h₀ at hnext hcall ⊢
    cases hnext with
    | refuseWrite =>
      rename_i v off
      cases v <;> simp [written, hcall, Hand.call, Hand.writes, inserted]
    | wrote =>
      rename_i item n off
      simp [written, hcall, Hand.call, Hand.writes, inserted, count_single]
    | insert =>
      rename_i item
      simp [written, Hand.writes, inserted, count_single]
    | _ => rfl

/-- Has taken an item with this text and not returned. -/
def Hand.reads (text : List UInt8) : Hand → Bool
  | .taken item | .spent item => line item == text
  | _ => false

theorem Hands.returned (hhand : Hands hand tr) (text : List UInt8) :
    ((logged removed tr).map line).count text =
      (logged returned tr).count text + headcount (Hand.reads text) hand := by
  refine hhand.balance (F := fun tr => ((logged removed tr).map line).count text)
    (G := fun tr => (logged Prodcons.returned tr).count text) rfl rfl ?_
  intro tr hand i e h _ hnext
  refine ⟨((removed e).map line).count text, (Prodcons.returned e).count text, ?_, ?_, ?_⟩
  · simp only [logged_snoc, List.map_append, List.count_append]
  · simp only [logged_snoc, List.count_append]
  · generalize hand i = h₀ at hnext ⊢
    cases hnext with
    | remove =>
      rename_i item
      simp [Hand.reads, removed, Prodcons.returned, count_single]
    | read hn =>
      rename_i item n off
      simp [Hand.reads, removed, Prodcons.returned, hn, count_single]
    | _ => rfl

/-- Processes that keep to the life of an item fail without harm. -/
theorem Hands.harmless {quiet : Prop} {contents : List Int32} (hhand : Hands hand tr)
    (hqueue : logged inserted tr = logged removed tr ++ contents)
    (hquiet : quiet → ∀ i, hand i = .empty) : Harmless quiet contents tr := by
  have hzero {level : Hand → Bool} (hempty : level .empty = false) (h : quiet) :
      headcount level hand = 0 := by
    apply headcount_eq_zero_iff.mpr
    intro i
    rw [hquiet h i, hempty]
  constructor
  · intro pre i e out off hpre
    obtain ⟨h₀, h, hnext, hcall⟩ := hhand.exists_next hpre
    rw [hcall]
    cases hnext
    rfl
  · intro pre i e off hpre
    obtain ⟨h₀, h, hnext, hcall⟩ := hhand.exists_next hpre
    rw [hcall]
    cases hnext <;> exact ⟨rfl, rfl⟩
  · intro h
    have hmemory := hhand.memory
    rw [hzero rfl h, hqueue, List.length_append] at hmemory
    omega
  · intro h
    have hsuccesses : (Prodcons.successes tr).Perm (logged inserted tr) := by
      apply List.perm_iff_count.mpr
      intro val
      rw [hhand.successes val, hzero rfl h, Nat.add_zero]
    have hreturned : ((logged removed tr).map line).Perm (logged Prodcons.returned tr) := by
      apply List.perm_iff_count.mpr
      intro text
      rw [hhand.returned text, hzero rfl h, Nat.add_zero]
    refine (hsuccesses.map line).trans ?_
    rw [hqueue, List.map_append]
    exact hreturned.append_right _

omit [Fintype ι] in
/-- A write that fails with an item in its hands leaves it in memory. -/
theorem Hands.not_harmless_of_wrote {quiet : Prop} {contents : List Int32} {v : Errno}
    {off : Nat} (hhand : Hands hand tr) (hi : hand i = .holds item) :
    ¬Harmless quiet contents (tr ++ [(i, .wrote (.error v) off)]) := by
  intro h
  have hwrites := (h.writes tr i v off (List.prefix_refl _)).2
  rw [hhand.call i, hi] at hwrites
  cases hwrites

omit [Fintype ι] in
/-- A read that fails with an item in its hands has lost it. -/
theorem Hands.not_harmless_of_read {quiet : Prop} {contents : List Int32} {v : Errno}
    {out : List UInt8} {off : Nat} (hhand : Hands hand tr) (hi : hand i = .taken item) :
    ¬Harmless quiet contents (tr ++ [(i, .free item), (i, .read (.error v) out off)]) := by
  intro h
  have hreads := h.reads (tr ++ [(i, .free item)]) i v out off (by simp)
  rw [currentCall_snoc, if_pos rfl, hhand.call i, hi] at hreads
  cases hreads

end Balance

end LinuxInternals.Prodcons
