import LinuxInternals.Lib.Machine
import LinuxInternals.Lib.Text
import LinuxInternals.Modlist.Basic

/-!
# The module `clipboard`

One page of memory behind `/proc/clipboard`, without a lock: the calls of several processes go
on at the same time, byte by byte.
-/

namespace LinuxInternals.Clipboard

open Text
open Modlist (Errno Ret Reply)

abbrev BUFFER_LENGTH : Nat := 4096

/-- `fault` is the byte at which the copy from or to the user fails. -/
inductive Op where
  | read (off len : Nat) (fault : Option Nat)
  | write (off : Nat) (buf : List UInt8) (fault : Option Nat)
deriving DecidableEq, Repr

/-- Where a process is: in the copy of a write, at the byte `k`; in `strlen`, at the byte `k`; in
the copy of a read of `nr_bytes`, of which it has sent `out`. -/
inductive Pc where
  | user
  | copying (off : Nat) (buf : List UInt8) (fault : Option Nat) (k : Nat)
  | measuring (off len : Nat) (fault : Option Nat) (k : Nat)
  | sending (off len : Nat) (fault : Option Nat) (nr_bytes : Nat) (out : List UInt8)
  | ret (r : Reply)
deriving DecidableEq, Repr

inductive Event (ι : Type) where
  | invoked (i : ι) (op : Op)
  | touched (i : ι) (index : Nat)
  | returned (i : ι) (r : Reply)
deriving DecidableEq, Repr

inductive Act where
  | call (op : Op)
  | run
deriving DecidableEq, Repr

variable {ι : Type}

structure State (ι : Type) where
  clipboard : List UInt8
  pc : ι → Pc

variable [DecidableEq ι]

def State.goto (s : State ι) (i : ι) (pc : Pc) : State ι :=
  { s with pc := Function.update s.pc i pc }

/-- The byte at `k` is stored. -/
def State.store (s : State ι) (k : Nat) (b : UInt8) : State ι :=
  { s with clipboard := s.clipboard.set k b }

def State.load (s : State ι) (k : Nat) : UInt8 := s.clipboard.getD k 0

/-- `clipboard_write` up to its copy. -/
def clipboardWrite (off : Nat) (buf : List UInt8) (fault : Option Nat) : Pc :=
  if 0 < off then .ret ⟨.done 0, [], off⟩
  else if BUFFER_LENGTH - 1 < buf.length then .ret ⟨.error .enospc, [], off⟩
  else .copying off buf fault 0

/-- `clipboard_read` up to its `strlen`. -/
def clipboardRead (off len : Nat) (fault : Option Nat) : Pc :=
  if 0 < off then .ret ⟨.done 0, [], off⟩
  else .measuring off len fault 0

/-- The byte that `copy_from_user` stores at `k`: behind a fault it pads with zeros. -/
def copied (buf : List UInt8) (fault : Option Nat) (k : Nat) : UInt8 :=
  if fault.any (· ≤ k) then 0 else buf.getD k 0

def step (s : State ι) (i : ι) (a : Act) : Option (State ι × List (Event ι)) :=
  match s.pc i, a with
  | .user, .call (.write off buf fault) =>
    some (s.goto i (clipboardWrite off buf fault), [.invoked i (.write off buf fault)])
  | .user, .call (.read off len fault) =>
    some (s.goto i (clipboardRead off len fault), [.invoked i (.read off len fault)])
  | .copying off buf fault k, .run =>
    if k < buf.length then
      some ((s.store k (copied buf fault k)).goto i (.copying off buf fault (k + 1)),
        [.touched i k])
    else if fault.any (· < buf.length) then
      some (s.goto i (.ret ⟨.error .efault, [], off⟩), [])
    else
      some ((s.store buf.length 0).goto i (.ret ⟨.done buf.length, [], off + buf.length⟩),
        [.touched i buf.length])
  | .measuring off len fault k, .run =>
    if s.load k = 0 then
      -- `k` is the length of the string
      if len < k then some (s.goto i (.ret ⟨.error .enospc, [], off⟩), [.touched i k])
      else some (s.goto i (.sending off len fault k []), [.touched i k])
    else some (s.goto i (.measuring off len fault (k + 1)), [.touched i k])
  | .sending off len fault nr_bytes out, .run =>
    if nr_bytes ≤ out.length then
      some (s.goto i (.ret ⟨.done nr_bytes, out, off + len⟩), [])
    else if fault.any (· ≤ out.length) then
      some (s.goto i (.ret ⟨.error .einval, out, off⟩), [])
    else
      some (s.goto i (.sending off len fault nr_bytes (out ++ [s.load out.length])),
        [.touched i out.length])
  | .ret r, .run => some (s.goto i .user, [.returned i r])
  | _, _ => none

/-- `init_clipboard_module` clears the page. -/
def machine (ι : Type) [DecidableEq ι] : Machine (State ι) (ι × Act) (Event ι) where
  init := ⟨List.replicate BUFFER_LENGTH 0, fun _ => .user⟩
  step s a := step s a.1 a.2

end LinuxInternals.Clipboard
