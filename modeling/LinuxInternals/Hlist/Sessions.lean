import LinuxInternals.Hlist.Chains
import LinuxInternals.Lib.Machine

/-!
# What the calls on hash chains mean

A memory consists of pieces: chains, and heads and nodes that are in none. A call takes some of the
pieces and gives others back. Whatever calls a program makes, each on pieces that it may be made on,
the memory is made of the pieces.
-/

namespace LinuxInternals.Hlist

open Separation

inductive Piece where
  | chain (h : Addr) (l : List Addr)
  | head (h : Addr) (first : Option Addr)
  | node (n : Addr) (next prev : Option Addr)
deriving DecidableEq, Repr

namespace Piece

def part : Piece → Assertion Addr (Option Addr)
  | .chain h l => Hlist.chain h l
  | .head h first => pointsTo h first
  | .node n next prev => Hlist.node n next prev

def cells : Piece → List Addr
  | .chain h l => h :: l.flatMap fun n => [pprev n, n]
  | .head h _ => [h]
  | .node n _ _ => [n, pprev n]

end Piece

def parts (s : List Piece) : Assertion Addr (Option Addr) := (s.map Piece.part).prod

def cells (s : List Piece) : List Addr := s.flatMap Piece.cells

inductive Op where
  | allocHead (h : Addr) (first : Option Addr)
  | allocNode (n : Addr) (next prev : Option Addr)
  | freeHead (h : Addr)
  | freeNode (n : Addr)
  | initHlistHead (ptr : Addr)
  | initHlistNode (ptr : Addr)
  | hlistUnhashed (h : Addr)
  | hlistEmpty (h : Addr)
  | hlistDel (n : Addr)
  | hlistDelInit (n : Addr)
  | hlistAddHead (n h : Addr)
  | hlistAddBefore (n next : Addr)
  | hlistAddAfter (n next : Addr)
  | hlistForEach (fuel : Nat) (head : Addr)
  | hlistForEachEntryContinue (fuel : Nat) (pos : Addr)
  | hlistForEachSafe (victims : List Addr) (fuel : Nat) (head : Addr)
deriving DecidableEq, Repr

inductive Answer where
  | nothing
  | truth (b : Bool)
  | nodes (l : List Addr)
deriving DecidableEq, Repr

namespace Op

def quiet (c : Code Unit) : Code Answer := do
  c
  return .nothing

def run : Op → Code Answer
  | .allocHead h first => quiet (alloc h first)
  | .allocNode n next prev => quiet (do alloc n next; alloc (pprev n) prev)
  | .freeHead h => quiet (free h)
  | .freeNode n => quiet (do free n; free (pprev n))
  | .initHlistHead ptr => quiet (Hlist.initHlistHead ptr)
  | .initHlistNode ptr => quiet (Hlist.initHlistNode ptr)
  | .hlistUnhashed h => do return .truth (← Hlist.hlistUnhashed h)
  | .hlistEmpty h => do return .truth (← Hlist.hlistEmpty h)
  | .hlistDel n => quiet (Hlist.hlistDel n)
  | .hlistDelInit n => quiet (Hlist.hlistDelInit n)
  | .hlistAddHead n h => quiet (Hlist.hlistAddHead n h)
  | .hlistAddBefore n next => quiet (Hlist.hlistAddBefore n next)
  | .hlistAddAfter n next => quiet (Hlist.hlistAddAfter n next)
  | .hlistForEach fuel head => do return .nodes (← Hlist.hlistForEach fuel head)
  | .hlistForEachEntryContinue fuel pos => do
    return .nodes (← Hlist.hlistForEachEntryContinue fuel pos)
  | .hlistForEachSafe victims fuel head => quiet (Hlist.hlistForEachSafe (delete victims) fuel head)

end Op

/-- The pieces that a call takes, those that it gives back, and its answer. -/
inductive Acts : Op → List Piece → List Piece → Answer → Prop where
  | freeHead (h : Addr) (first : Option Addr) : Acts (.freeHead h) [.head h first] [] .nothing
  | freeEmpty (h : Addr) : Acts (.freeHead h) [.chain h []] [] .nothing
  | freeNode (n : Addr) (next prev : Option Addr) :
    Acts (.freeNode n) [.node n next prev] [] .nothing
  | initHlistHead (ptr : Addr) (first : Option Addr) :
    Acts (.initHlistHead ptr) [.head ptr first] [.chain ptr []] .nothing
  | initHlistNode (ptr : Addr) (next prev : Option Addr) :
    Acts (.initHlistNode ptr) [.node ptr next prev] [.node ptr none none] .nothing
  | hashed (head : Addr) (xs : List Addr) (h : Addr) (ys : List Addr) :
    Acts (.hlistUnhashed h) [.chain head (xs ++ h :: ys)] [.chain head (xs ++ h :: ys)]
      (.truth false)
  | unhashed (h : Addr) (next prev : Option Addr) :
    Acts (.hlistUnhashed h) [.node h next prev] [.node h next prev] (.truth prev.isNone)
  | hlistEmpty (h : Addr) (l : List Addr) :
    Acts (.hlistEmpty h) [.chain h l] [.chain h l] (.truth l.isEmpty)
  | hlistDel (h : Addr) (xs : List Addr) (n : Addr) (ys : List Addr) :
    Acts (.hlistDel n) [.chain h (xs ++ n :: ys)]
      [.chain h (xs ++ ys), .node n LIST_POISON1 LIST_POISON2] .nothing
  | hlistDelInit (h : Addr) (xs : List Addr) (n : Addr) (ys : List Addr) :
    Acts (.hlistDelInit n) [.chain h (xs ++ n :: ys)]
      [.chain h (xs ++ ys), .node n none none] .nothing
  | hlistDelInitUnhashed (n : Addr) (next : Option Addr) :
    Acts (.hlistDelInit n) [.node n next none] [.node n next none] .nothing
  | hlistAddHead (n : Addr) (next prev : Option Addr) (h : Addr) (l : List Addr) :
    Acts (.hlistAddHead n h) [.chain h l, .node n next prev] [.chain h (n :: l)] .nothing
  | hlistAddBefore (n : Addr) (a b : Option Addr) (h : Addr) (xs : List Addr) (next : Addr)
      (ys : List Addr) :
    Acts (.hlistAddBefore n next) [.chain h (xs ++ next :: ys), .node n a b]
      [.chain h (xs ++ n :: next :: ys)] .nothing
  | hlistAddAfter (h : Addr) (xs : List Addr) (n : Addr) (ys : List Addr) (next : Addr)
      (a b : Option Addr) :
    Acts (.hlistAddAfter n next) [.chain h (xs ++ n :: ys), .node next a b]
      [.chain h (xs ++ n :: next :: ys)] .nothing
  | hlistForEach {fuel : Nat} (h : Addr) (l : List Addr) : l.length ≤ fuel →
    Acts (.hlistForEach fuel h) [.chain h l] [.chain h l] (.nodes l)
  | hlistForEachEntryContinue {fuel : Nat} (h : Addr) (xs : List Addr) (pos : Addr)
      (ys : List Addr) : ys.length ≤ fuel →
    Acts (.hlistForEachEntryContinue fuel pos) [.chain h (xs ++ pos :: ys)]
      [.chain h (xs ++ pos :: ys)] (.nodes ys)
  | hlistForEachSafe {fuel : Nat} (victims : List Addr) (h : Addr) (l : List Addr) :
    l.length ≤ fuel →
    Acts (.hlistForEachSafe victims fuel h) [.chain h l]
      (.chain h (l.filter (· ∉ victims)) ::
        (l.filter (· ∈ victims)).map fun n => .node n LIST_POISON1 LIST_POISON2) .nothing

/-- A call in a memory of the pieces `s`. What is allocated is new. -/
inductive Calls (s : List Piece) : Op → List Piece → Answer → Prop where
  | allocHead {h : Addr} (first : Option Addr) : h ∉ cells s →
    Calls s (.allocHead h first) (.head h first :: s) .nothing
  | allocNode {n : Addr} (next prev : Option Addr) : n ∉ cells s → pprev n ∉ cells s →
    Calls s (.allocNode n next prev) (.node n next prev :: s) .nothing
  | acts {op : Op} {taken given : List Piece} {a : Answer} (rest : List Piece) :
    s.Perm (taken ++ rest) → Acts op taken given a → Calls s op (given ++ rest) a

inductive Session : List Piece → List Op → List Piece → List Answer → Prop where
  | nil (s : List Piece) : Session s [] s []
  | cons {s s' s'' : List Piece} {op : Op} {ops : List Op} {a : Answer} {as : List Answer} :
    Calls s op s' a → Session s' ops s'' as → Session s (op :: ops) s'' (a :: as)

/-- The memory under the calls, empty at first. -/
def machine : Machine Memory Op Answer where
  init _ := none
  step m op := (op.run m).map fun r => (r.2, [r.1])

variable {s s' : List Piece} {m : Memory}

theorem parts_nil : parts [] = 1 := rfl

theorem parts_cons (p : Piece) (s : List Piece) : parts (p :: s) = p.part * parts s :=
  List.prod_cons

theorem parts_append (s s' : List Piece) : parts (s ++ s') = parts s * parts s' := by
  rw [parts, List.map_append, List.prod_append]
  rfl

theorem parts_perm (h : s.Perm s') : parts s = parts s' := (h.map Piece.part).prod_eq

theorem parts_singleton (p : Piece) : parts [p] = p.part := by
  rw [parts_cons]
  exact mul_one _

theorem covers_chain (p : Addr) (l : List Addr) :
    (chain p l).Covers (p :: l.flatMap fun n => [pprev n, n]) := by
  induction l generalizing p with
  | nil => exact covers_pointsTo p none
  | cons n l ih =>
    exact (covers_pointsTo p (some n)).mul ((covers_pointsTo (pprev n) (some p)).mul (ih n))

theorem covers_part (p : Piece) : p.part.Covers p.cells := by
  cases p with
  | chain h l => exact covers_chain h l
  | head h first => exact covers_pointsTo h first
  | node n next prev => exact (covers_pointsTo n next).mul (covers_pointsTo (pprev n) prev)

theorem covers_parts (s : List Piece) : (parts s).Covers (cells s) := by
  induction s with
  | nil => exact covers_one
  | cons p s ih => exact (covers_part p).mul ih

theorem Op.quiet_spec {P Q : Assertion Addr (Option Addr)} {c : Code Unit} (h : Triple P c () Q) :
    Triple P (quiet c) Answer.nothing Q :=
  h.bind (.ret Q Answer.nothing)

theorem Op.answer_spec {P Q : Assertion Addr (Option Addr)} {ρ : Type} {c : Code ρ} {r : ρ}
    (h : Triple P c r Q) (f : ρ → Answer) : Triple P (do return f (← c)) (f r) Q :=
  h.bind (.ret Q (f r))

/-- A call on a node in the middle of a chain. -/
theorem acts_within {op : Op} {a : Answer} {h : Addr} {xs l r : List Addr}
    {taken given : List Piece}
    (hop : Triple (chain (xs.getLastD h) l * parts taken) op.run a
      (chain (xs.getLastD h) r * parts given)) :
    Triple (parts (.chain h (xs ++ l) :: taken)) op.run a
      (parts (.chain h (xs ++ r) :: given)) := by
  rw [parts_cons, parts_cons]
  exact within hop

theorem parts_nodes (l : List Addr) (next prev : Option Addr) :
    parts (l.map fun n => .node n next prev) = (l.map fun n => node n next prev).prod := by
  rw [parts, List.map_map]
  rfl

theorem Acts.triple {op : Op} {taken given : List Piece} {a : Answer}
    (h : Acts op taken given a) : Triple (parts taken) op.run a (parts given) := by
  cases h with
  | freeHead h first | freeEmpty h =>
    rw [parts_singleton]
    exact Op.quiet_spec (.free h _)
  | freeNode n next prev =>
    rw [parts_singleton]
    apply Op.quiet_spec
    apply Triple.step (Triple.free n next) (pointsTo (pprev n) prev) rfl
    rw [one_mul]
    exact .free (pprev n) prev
  | initHlistHead ptr first =>
    rw [parts_singleton, parts_singleton]
    exact Op.quiet_spec (.store ptr first none)
  | initHlistNode ptr next prev =>
    rw [parts_singleton, parts_singleton]
    exact Op.quiet_spec (initHlistNode_spec ptr next prev)
  | hashed head xs h ys =>
    apply acts_within
    exact (Op.answer_spec (hlistUnhashed_chain _ h ys) .truth).frame 1
  | unhashed h next prev =>
    rw [parts_singleton]
    exact Op.answer_spec (hlistUnhashed_node h next prev) .truth
  | hlistEmpty h l =>
    rw [parts_singleton]
    exact Op.answer_spec (hlistEmpty_spec h l) .truth
  | hlistDel h xs n ys =>
    apply acts_within
    rw [parts_nil, mul_one, parts_singleton]
    exact Op.quiet_spec (hlistDel_spec _ n ys)
  | hlistDelInit h xs n ys =>
    apply acts_within
    rw [parts_nil, mul_one, parts_singleton]
    exact Op.quiet_spec (hlistDelInit_spec _ n ys)
  | hlistDelInitUnhashed n next =>
    rw [parts_singleton]
    exact Op.quiet_spec (hlistDelInit_unhashed n next)
  | hlistAddHead n next prev h l =>
    rw [parts_cons, parts_singleton, parts_singleton]
    exact Op.quiet_spec (hlistAddHead_spec h n l next prev)
  | hlistAddBefore n a b h xs next ys =>
    apply acts_within
    rw [parts_nil, mul_one, parts_singleton]
    exact Op.quiet_spec (hlistAddBefore_spec _ next n ys a b)
  | hlistAddAfter h xs n ys next a b =>
    apply acts_within
    rw [parts_nil, mul_one, parts_singleton, chain_cons, chain_cons]
    apply Triple.last (Op.quiet_spec (hlistAddAfter_spec n next ys a b))
      (pointsTo (xs.getLastD h) (some n) * pointsTo (pprev n) (some (xs.getLastD h)))
    · rw [Piece.part]
      ac_rfl
    · ac_rfl
  | hlistForEach h l hfuel =>
    rw [parts_singleton]
    exact Op.answer_spec (hlistForEach_spec h l hfuel) .nodes
  | hlistForEachEntryContinue h xs pos ys hfuel =>
    apply acts_within
    rw [parts_nil, mul_one, chain_cons]
    apply Triple.last (Op.answer_spec (hlistForEach_spec pos ys hfuel) .nodes)
      (pointsTo (xs.getLastD h) (some pos) * pointsTo (pprev pos) (some (xs.getLastD h)))
    · ac_rfl
    · ac_rfl
  | hlistForEachSafe victims h l hfuel =>
    rw [parts_singleton, parts_cons, parts_nodes]
    exact Op.quiet_spec (hlistForEachSafe_spec victims h l hfuel)

/-- The call has an outcome in memory, with the answer that the pieces give. -/
theorem Calls.outcome {op : Op} {a : Answer} (hc : Calls s op s' a) (hm : parts s m) :
    ∃ m', op.run m = some (a, m') ∧ parts s' m' := by
  cases hc with
  | @allocHead h first hh =>
    obtain ⟨m', hrun, hm'⟩ := run_alloc (covers_parts s) hh first hm
    refine ⟨m', ?_, by rwa [parts_cons]⟩
    change (alloc h first m).bind _ = _
    rw [hrun]
    rfl
  | @allocNode n next prev hn hprev =>
    obtain ⟨m₁, hnext, hm₁⟩ := run_alloc (covers_parts s) hn next hm
    have hout : pprev n ∉ [n] ++ cells s := by
      rw [List.singleton_append, List.mem_cons]
      rintro (heq | hmem)
      · exact absurd heq (Nat.ne_of_gt (Nat.lt_add_of_pos_right (by decide)))
      · exact hprev hmem
    obtain ⟨m', hrun, hm'⟩ :=
      run_alloc ((covers_pointsTo n next).mul (covers_parts s)) hout prev hm₁
    refine ⟨m', ?_, ?_⟩
    · change ((alloc n next m).bind fun r => alloc (pprev n) prev r.2).bind _ = _
      rw [hnext, Option.bind_some, hrun]
      rfl
    · rwa [parts_cons, Piece.part, node, mul_assoc, mul_left_comm]
  | acts rest hperm hacts =>
    rw [parts_perm hperm, parts_append] at hm
    rw [parts_append]
    exact hacts.triple (parts rest) m hm

theorem Session.outcome {ops : List Op} {answers : List Answer} (hs : Session s ops s' answers)
    (hm : parts s m) : ∃ m', machine.exec m ops = some (m', answers) ∧ parts s' m' := by
  induction hs generalizing m with
  | nil s => exact ⟨m, rfl, hm⟩
  | @cons s s₁ s' op ops a answers hcall _ ih =>
    obtain ⟨m₁, hrun, hm₁⟩ := hcall.outcome hm
    obtain ⟨m', hrest, hm'⟩ := ih hm₁
    refine ⟨m', ?_, hm'⟩
    have hstep : machine.step m op = some (m₁, [a]) := by
      simp only [machine, hrun, Option.map_some]
    rw [Machine.exec_cons hstep, hrest]
    rfl

/-- Whatever calls a program makes on hash chains, as long as each is made on pieces that it may be
made on, each has its outcome: no access goes to an address that is not allocated or through
`NULL`, the answers are those of the chains, and in the end the memory is made of the pieces, with
nothing else allocated. -/
theorem chains_run {ops : List Op} {answers : List Answer} (hs : Session [] ops s answers) :
    ∃ m, machine.Run ops m answers ∧ parts s m ∧ ∀ x, (m x).isSome ↔ x ∈ cells s := by
  obtain ⟨m, hrun, hm⟩ := hs.outcome (m := machine.init) (fun _ => rfl)
  exact ⟨m, hrun, hm, covers_parts s m hm⟩

/-- Two nodes are hashed; one is taken out, a safe walk deletes the other, and all is freed. -/
def twoNodes : List Op :=
  [.allocHead 8 (some 1), .initHlistHead 8, .allocNode 16 none (some 3), .hlistAddHead 16 8,
    .allocNode 32 (some 5) none, .hlistAddAfter 16 32, .hlistForEach 2 8, .hlistDelInit 16,
    .hlistUnhashed 16, .hlistForEachSafe [32] 1 8, .freeNode 32, .freeNode 16, .freeHead 8]

theorem chains_run_twoNodes : ∃ m, machine.Run twoNodes m [.nothing, .nothing, .nothing, .nothing,
    .nothing, .nothing, .nodes [16, 32], .nothing, .truth true, .nothing, .nothing, .nothing,
    .nothing] ∧ ∀ x, m x = none := by
  have hs : Session [] twoNodes [] [.nothing, .nothing, .nothing, .nothing, .nothing, .nothing,
      .nodes [16, 32], .nothing, .truth true, .nothing, .nothing, .nothing, .nothing] :=
    .cons (.allocHead (some 1) (by decide)) <|
    .cons (.acts [] (by decide) (.initHlistHead 8 (some 1))) <|
    .cons (.allocNode none (some 3) (by decide) (by decide)) <|
    .cons (.acts [] (by decide) (.hlistAddHead 16 none (some 3) 8 [])) <|
    .cons (.allocNode (some 5) none (by decide) (by decide)) <|
    .cons (.acts [] (by decide) (.hlistAddAfter 8 [] 16 [] 32 (some 5) none)) <|
    .cons (.acts [] (by decide) (.hlistForEach 8 [16, 32] (by decide))) <|
    .cons (.acts [] (by decide) (.hlistDelInit 8 [] 16 [32])) <|
    .cons (.acts [.chain 8 [32]] (by decide) (.unhashed 16 none none)) <|
    .cons (.acts [.node 16 none none] (by decide)
      (.hlistForEachSafe [32] 8 [32] (by decide))) <|
    .cons (.acts [.chain 8 [], .node 16 none none] (by decide)
      (.freeNode 32 LIST_POISON1 LIST_POISON2)) <|
    .cons (.acts [.chain 8 []] (by decide) (.freeNode 16 none none)) <|
    .cons (.acts [] (by decide) (.freeEmpty 8)) <| .nil []
  obtain ⟨m, hrun, -, hcells⟩ := chains_run hs
  refine ⟨m, hrun, fun x => ?_⟩
  rw [← Option.not_isSome_iff_eq_none, hcells x]
  exact List.not_mem_nil

end LinuxInternals.Hlist
