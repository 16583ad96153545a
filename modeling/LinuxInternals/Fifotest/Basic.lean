import LinuxInternals.Fifoproc.Stream

/-!
# The programs of `fifotest.c`

`fifo_send` cuts its standard input into records and writes them to the FIFO;
`fifo_receive` reads records and prints them. Any number of either runs over the module of
`ParteB`; every process runs one program once. A program that exits, for whatever reason,
has its file closed by the kernel.
-/

namespace LinuxInternals.Fifotest

open CData SemMonitor Fifoproc

/-- `struct fifo_message`. -/
structure FifoMessage where
  nrBytes : Nat
  data : Nat → UInt8

namespace FifoMessage

/-- `sizeof(struct fifo_message)`. -/
def size : Nat := 36

/-- The memory of the structure; `unsigned int` is stored lowest byte first. -/
def bytes (m : FifoMessage) : List UInt8 :=
  (List.range 4).map (fun j => UInt8.ofNat (m.nrBytes / 256 ^ j)) ++ read m.data 32

def ofBytes (l : List UInt8) : FifoMessage where
  nrBytes := ((List.range 4).map fun j => (l.getD j 0).toNat * 256 ^ j).sum
  data i := l.getD (4 + i) 0

/-- The bytes that `fifo_receive` prints. -/
def payload (m : FifoMessage) : List UInt8 := read m.data m.nrBytes

/-- What `fifo_send` puts into a record. -/
def Proper (m : FifoMessage) : Prop := 1 ≤ m.nrBytes ∧ m.nrBytes ≤ 32

end FifoMessage

/-- Where a program is. `idle` is the head of its loop, `ready` the place where it holds a
message to pass on, and `calling` is inside `read` or `write` on the FIFO. The argument of
the last three says whether the exit status will be 0. -/
inductive Pc where
  | start
  | opening
  | idle
  | ready
  | calling
  | close (ok : Bool)
  | closing (ok : Bool)
  | exited (ok : Bool)
deriving DecidableEq, Repr

inductive Prog where
  | fifoSend (pc : Pc) (message : FifoMessage) (stdin : List UInt8)
  | fifoReceive (pc : Pc) (message : FifoMessage) (stdout : List UInt8)

namespace Prog

def call : Prog → Call → Option Prog
  | fifoSend .start m inp, .open mode =>
    if mode = .wronly then some (fifoSend .opening m inp) else none
  | fifoSend .ready m inp, .write buff =>
    if buff = m.bytes then some (fifoSend .calling m inp) else none
  | fifoSend (.close ok) m inp, .release => some (fifoSend (.closing ok) m inp)
  | fifoReceive .start m out, .open mode =>
    if mode = .rdonly then some (fifoReceive .opening m out) else none
  | fifoReceive .idle m out, .read len =>
    if len = FifoMessage.size then some (fifoReceive .calling m out) else none
  | fifoReceive (.close ok) m out, .release => some (fifoReceive (.closing ok) m out)
  | _, _ => none

def returned : Prog → Event → Prog
  | fifoSend .opening m inp, .ret .open v _ =>
    match v with
    | .done _ => fifoSend .idle m inp
    | .error _ => fifoSend (.exited false) m inp
  | fifoSend .calling m inp, .ret .write v _ =>
    match v with
    | .done n => if 0 < n ∧ n ≠ FifoMessage.size then fifoSend (.close false) m inp
      else fifoSend .idle m inp
    | .error _ => fifoSend (.close false) m inp
  | fifoSend (.closing ok) m inp, .ret .release _ _ => fifoSend (.exited ok) m inp
  | fifoReceive .opening m out, .ret .open v _ =>
    match v with
    | .done _ => fifoReceive .idle m out
    | .error _ => fifoReceive (.exited false) m out
  | fifoReceive .calling m out, .ret .read v data =>
    match v with
    | .done n => if n = FifoMessage.size then fifoReceive .ready (.ofBytes data) out
      else fifoReceive (.close (n = 0)) m out
    | .error _ => fifoReceive (.close false) m out
  | fifoReceive (.closing ok) m out, .ret .release _ _ => fifoReceive (.exited ok) m out
  | p, _ => p

/-- `read(0,message.data,MAX_MESSAGE_SIZE)` returns `k`, which is 0 at the end only. -/
def readStdin : Prog → Nat → Option Prog
  | fifoSend .idle m inp, k =>
    if k = 0 ∧ inp = [] then some (fifoSend (.close true) m inp)
    else if 1 ≤ k ∧ k ≤ 32 ∧ k ≤ inp.length then
      some (fifoSend .ready
        { nrBytes := k, data := memcpy m.data 0 (fun i => inp.getD i 0) 0 k } (inp.drop k))
    else none
  | _, _ => none

/-- `write(1,message.data,message.nr_bytes)` succeeds. -/
def writeStdout : Prog → Option Prog
  | fifoReceive .ready m out => some (fifoReceive .idle m (out ++ m.payload))
  | _ => none

/-- The program exits early: it is killed, or cannot read its input or write its output. -/
def fail : Prog → Option Prog
  | fifoSend .start m inp => some (fifoSend (.exited false) m inp)
  | fifoSend .idle m inp | fifoSend .ready m inp => some (fifoSend (.close false) m inp)
  | fifoReceive .start m out => some (fifoReceive (.exited false) m out)
  | fifoReceive .idle m out | fifoReceive .ready m out => some (fifoReceive (.close false) m out)
  | _ => none

def issue (p : Prog) : Act Call → Option Prog
  | .call c _ => p.call c
  | .run _ | .intr => some p

end Prog

inductive Move where
  | sys (a : Act Call)
  | stdin (k : Nat)
  | stdout
  | fail
deriving DecidableEq, Repr

structure World (ι : Type) where
  sys : State (Cbuffer UInt8) ι
  prog : ι → Prog

variable {ι : Type} [DecidableEq ι]

def World.set (w : World ι) (i : ι) (p : Prog) : World ι :=
  { w with prog := Function.update w.prog i p }

/-- The program that a process runs: `some` input for `fifo_send`, `none` for
`fifo_receive`. `stack` is what the program finds in `message`. -/
def startProg (stack : FifoMessage) : Option (List UInt8) → Prog
  | some inp => .fifoSend .start stack inp
  | none => .fifoReceive .start stack []

def world (vector : Nat → UInt8) (stack : ι → FifoMessage) (roles : ι → Option (List UInt8)) :
    Machine (World ι) (ι × Move) (ι × Event) where
  init :=
    { sys := (machine (parteB vector) ι).init
      prog := fun i => startProg (stack i) (roles i) }
  step w im :=
    match im.2 with
    | .sys a =>
      match (w.prog im.1).issue a, (machine (parteB vector) ι).step w.sys (im.1, a) with
      | some p, some (s, es) =>
        some ({ sys := s
                prog := Function.update w.prog im.1 ((es.map Prod.snd).foldl Prog.returned p) },
          es)
      | _, _ => none
    | .stdin k => ((w.prog im.1).readStdin k).map fun p => (w.set im.1 p, [])
    | .stdout => (w.prog im.1).writeStdout.map fun p => (w.set im.1 p, [])
    | .fail => (w.prog im.1).fail.map fun p => (w.set im.1 p, [])

def Move.copied : Move → Bool
  | .sys a => Fifoproc.copied a
  | _ => true

end LinuxInternals.Fifotest
