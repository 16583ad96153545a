import LinuxInternals.Lib.Machine
import LinuxInternals.Lib.Population

/-!
# Monitors made of counting semaphores

The idiom that stands in for condition variables where there are only semaphores:
`mtx` guards the shared data; to wait on queue `q` a process raises `nrWaiting q`,
gives up `mtx`, sleeps on `sem q` and takes `mtx` again; to wake somebody it tests
`nrWaiting q`, posts one unit to `sem q` and lowers `nrWaiting q` itself. Every wait may
be interrupted. A sleeper that is interrupted takes `mtx` uninterruptibly to lower
`nrWaiting q` and gives up.

A client supplies what happens between the semaphore operations. A step is one
semaphore operation together with the code that runs up to the next one.
-/

namespace LinuxInternals.SemMonitor

/-- The semaphore operation a process is about to perform. -/
inductive Stage (κ ρ : Type) where
  | lock
  | signal (q : κ)
  | wait (q : κ)
  | sleep (q : κ)
  | relock
  | abort (q : κ)
  | unlock (r : ρ)
deriving DecidableEq, Repr

inductive Proc (μ φ κ ρ : Type) where
  | user (x : μ)
  | inside (f : φ) (st : Stage κ ρ)

/-- The semaphore operations after which client code runs with `mtx` held. -/
inductive Point where
  | entered
  | signalled
  | relocked
deriving DecidableEq, Repr

inductive Next (κ ρ : Type) where
  | block (q : κ)
  | signal (q : κ)
  | unlock (r : ρ)
deriving DecidableEq, Repr

structure Segment (δ φ κ ρ ε : Type) where
  data : δ
  frame : φ
  next : Next κ ρ
  effects : List ε

/-- A system call either enters with a fresh frame or returns at once. -/
inductive Entry (μ φ ε : Type) where
  | enter (f : φ)
  | done (x : μ) (es : List ε)

/-- `Bool` arguments carry the outcome of a copy to or from the user's memory. -/
structure Client (δ κ φ μ γ ρ ε : Type) where
  data₀ : δ
  user₀ : μ
  syscall : μ → γ → Bool → Option (Entry μ φ ε)
  body : φ → Point → δ → (κ → Int) → Segment δ φ κ ρ ε
  eintr : ρ
  leave : φ → ρ → Bool → μ × List ε

structure Shared (δ κ : Type) where
  data : δ
  mtx : Nat
  sem : κ → Nat
  nrWaiting : κ → Int

inductive Act (γ : Type) where
  | call (c : γ) (copied : Bool)
  | run (copied : Bool)
  | intr
deriving DecidableEq, Repr

variable {δ κ φ μ γ ρ ε : Type}

def Next.stage : Next κ ρ → Stage κ ρ
  | .block q => .wait q
  | .signal q => .signal q
  | .unlock r => .unlock r

def Segment.proc (g : Segment δ φ κ ρ ε) : Proc μ φ κ ρ := .inside g.frame g.next.stage

variable [DecidableEq κ]

namespace Shared

def post (sh : Shared δ κ) (q : κ) : Shared δ κ :=
  { sh with sem := Function.update sh.sem q (sh.sem q + 1) }

def take (sh : Shared δ κ) (q : κ) : Shared δ κ :=
  { sh with sem := Function.update sh.sem q (sh.sem q - 1) }

def addWaiting (sh : Shared δ κ) (q : κ) (d : Int) : Shared δ κ :=
  { sh with nrWaiting := Function.update sh.nrWaiting q (sh.nrWaiting q + d) }

def up (sh : Shared δ κ) : Shared δ κ := { sh with mtx := sh.mtx + 1 }

def down (sh : Shared δ κ) : Shared δ κ := { sh with mtx := sh.mtx - 1 }

/-- Store what client code computed; a process about to wait announces itself. -/
def commit (sh : Shared δ κ) (g : Segment δ φ κ ρ ε) : Shared δ κ :=
  match g.next with
  | .block q => ({ sh with data := g.data } : Shared δ κ).addWaiting q 1
  | _ => { sh with data := g.data }

end Shared

namespace Client

variable (C : Client δ κ φ μ γ ρ ε)

abbrev Local (_ : Client δ κ φ μ γ ρ ε) := Proc μ φ κ ρ

def runBody (sh : Shared δ κ) (f : φ) (pt : Point) : Segment δ φ κ ρ ε :=
  C.body f pt sh.data sh.nrWaiting

def continueWith (sh : Shared δ κ) (g : Segment δ φ κ ρ ε) :
    Shared δ κ × Proc μ φ κ ρ × List ε :=
  (sh.commit g, g.proc, g.effects)

def quit (sh : Shared δ κ) (f : φ) (r : ρ) (copied : Bool) :
    Shared δ κ × Proc μ φ κ ρ × List ε :=
  let (x, es) := C.leave f r copied
  (sh, .user x, es)

def act (sh : Shared δ κ) : Proc μ φ κ ρ → Act γ → Option (Shared δ κ × Proc μ φ κ ρ × List ε)
  | .user x, .call c copied =>
    match C.syscall x c copied with
    | none => none
    | some (.enter f) => some (sh, .inside f .lock, [])
    | some (.done y es) => some (sh, .user y, es)
  -- if (down_interruptible(&mtx)) return -EINTR;
  | .inside f .lock, .run _ =>
    if 0 < sh.mtx then some (continueWith sh.down (C.runBody sh.down f .entered)) else none
  | .inside f .lock, .intr => some (C.quit sh f C.eintr true)
  -- up(&sem); nr_waiting--;
  | .inside f (.signal q), .run _ =>
    let sh' := (sh.post q).addWaiting q (-1)
    some (continueWith sh' (C.runBody sh' f .signalled))
  -- nr_waiting++ is done; up(&mtx);
  | .inside f (.wait q), .run _ => some (sh.up, .inside f (.sleep q), [])
  -- if (down_interruptible(&sem))
  | .inside f (.sleep q), .run _ =>
    if 0 < sh.sem q then some (sh.take q, .inside f .relock, []) else none
  | .inside f (.sleep q), .intr => some (sh, .inside f (.abort q), [])
  -- if (down_interruptible(&mtx)) return -EINTR;
  | .inside f .relock, .run _ =>
    if 0 < sh.mtx then some (continueWith sh.down (C.runBody sh.down f .relocked)) else none
  | .inside f .relock, .intr => some (C.quit sh f C.eintr true)
  -- down(&mtx); nr_waiting--;
  | .inside f (.abort q), .run _ =>
    if 0 < sh.mtx then
      some (sh.down.addWaiting q (-1), .inside f (.unlock C.eintr), [])
    else none
  -- up(&mtx); return
  | .inside f (.unlock r), .run copied => some (C.quit sh.up f r copied)
  | _, _ => none

inductive Moves (C : Client δ κ φ μ γ ρ ε) (sh : Shared δ κ) :
    Proc μ φ κ ρ → Act γ → Shared δ κ → Proc μ φ κ ρ → List ε → Prop where
  | enter {x c copied f} : C.syscall x c copied = some (.enter f) →
      Moves C sh (.user x) (.call c copied) sh (.inside f .lock) []
  | refuse {x c copied y es} : C.syscall x c copied = some (.done y es) →
      Moves C sh (.user x) (.call c copied) sh (.user y) es
  | lock {f copied g} : 0 < sh.mtx → C.runBody sh.down f .entered = g →
      Moves C sh (.inside f .lock) (.run copied) (sh.down.commit g) g.proc g.effects
  | relock {f copied g} : 0 < sh.mtx → C.runBody sh.down f .relocked = g →
      Moves C sh (.inside f .relock) (.run copied) (sh.down.commit g) g.proc g.effects
  | signal {f q copied g} : C.runBody ((sh.post q).addWaiting q (-1)) f .signalled = g →
      Moves C sh (.inside f (.signal q)) (.run copied)
        (((sh.post q).addWaiting q (-1)).commit g) g.proc g.effects
  | wait {f q copied} :
      Moves C sh (.inside f (.wait q)) (.run copied) sh.up (.inside f (.sleep q)) []
  | take {f q copied} : 0 < sh.sem q →
      Moves C sh (.inside f (.sleep q)) (.run copied) (sh.take q) (.inside f .relock) []
  | abort {f q copied} : 0 < sh.mtx →
      Moves C sh (.inside f (.abort q)) (.run copied) (sh.down.addWaiting q (-1))
        (.inside f (.unlock C.eintr)) []
  | unlock {f r copied x es} : C.leave f r copied = (x, es) →
      Moves C sh (.inside f (.unlock r)) (.run copied) sh.up (.user x) es
  | lockIntr {f x es} : C.leave f C.eintr true = (x, es) →
      Moves C sh (.inside f .lock) .intr sh (.user x) es
  | sleepIntr {f q} : Moves C sh (.inside f (.sleep q)) .intr sh (.inside f (.abort q)) []
  | relockIntr {f x es} : C.leave f C.eintr true = (x, es) →
      Moves C sh (.inside f .relock) .intr sh (.user x) es

theorem moves_of_act {C : Client δ κ φ μ γ ρ ε} {sh sh' : Shared δ κ} {p p' : Proc μ φ κ ρ}
    {a : Act γ} {es : List ε} (h : C.act sh p a = some (sh', p', es)) :
    Moves C sh p a sh' p' es := by
  cases p with
  | user x =>
    cases a with
    | call c copied =>
      simp only [act] at h
      split at h
      · cases h
      · cases h
        exact .enter ‹_›
      · cases h
        exact .refuse ‹_›
    | run copied => cases h
    | intr => cases h
  | inside f st =>
    cases st <;> cases a <;> simp only [act, Option.ite_none_right_eq_some, reduceCtorEq] at h
    case lock.run => obtain ⟨hm, h⟩ := h; cases h; exact .lock hm rfl
    case lock.intr => cases h; exact .lockIntr rfl
    case signal.run => cases h; exact .signal rfl
    case wait.run => cases h; exact .wait
    case sleep.run => obtain ⟨hs, h⟩ := h; cases h; exact .take hs
    case sleep.intr => cases h; exact .sleepIntr
    case relock.run => obtain ⟨hm, h⟩ := h; cases h; exact .relock hm rfl
    case relock.intr => cases h; exact .relockIntr rfl
    case abort.run => obtain ⟨hm, h⟩ := h; cases h; exact .abort hm
    case unlock.run => cases h; exact .unlock rfl

end Client

structure State (δ κ φ μ ρ ι : Type) extends Shared δ κ where
  proc : ι → Proc μ φ κ ρ

variable {ι : Type} [DecidableEq ι]

def machine (C : Client δ κ φ μ γ ρ ε) (ι : Type) [DecidableEq ι] :
    Machine (State δ κ φ μ ρ ι) (ι × Act γ) (ι × ε) where
  init :=
    { data := C.data₀, mtx := 1, sem := fun _ => 0, nrWaiting := fun _ => 0,
      proc := fun _ => .user C.user₀ }
  step s ia :=
    match C.act s.toShared (s.proc ia.1) ia.2 with
    | none => none
    | some (sh, p, es) =>
      some ({ sh with proc := Function.update s.proc ia.1 p }, es.map (Prod.mk ia.1))

theorem machine_step_iff {C : Client δ κ φ μ γ ρ ε} {s s' : State δ κ φ μ ρ ι} {i : ι}
    {a : Act γ} {tr : List (ι × ε)} :
    (machine C ι).step s (i, a) = some (s', tr) ↔
      ∃ sh p es, C.act s.toShared (s.proc i) a = some (sh, p, es) ∧
        s' = { sh with proc := Function.update s.proc i p } ∧ tr = es.map (Prod.mk i) := by
  simp only [machine]
  cases C.act s.toShared (s.proc i) a with
  | none => simp
  | some r =>
    obtain ⟨sh, p, es⟩ := r
    simp only [Option.some.injEq, Prod.mk.injEq]
    constructor
    · rintro ⟨rfl, rfl⟩
      exact ⟨sh, p, es, ⟨rfl, rfl, rfl⟩, rfl, rfl⟩
    · rintro ⟨_, _, _, ⟨rfl, rfl, rfl⟩, rfl, rfl⟩
      exact ⟨rfl, rfl⟩

theorem moves_of_step {C : Client δ κ φ μ γ ρ ε} {s s' : State δ κ φ μ ρ ι} {i : ι}
    {a : Act γ} {tr : List (ι × ε)} (h : (machine C ι).step s (i, a) = some (s', tr)) :
    ∃ es, C.Moves s.toShared (s.proc i) a s'.toShared (s'.proc i) es ∧
      s'.proc = Function.update s.proc i (s'.proc i) ∧ tr = es.map (Prod.mk i) := by
  obtain ⟨sh, p, es, hact, rfl, rfl⟩ := machine_step_iff.mp h
  refine ⟨es, ?_, ?_, rfl⟩
  · simpa using Client.moves_of_act hact
  · simp

end LinuxInternals.SemMonitor
