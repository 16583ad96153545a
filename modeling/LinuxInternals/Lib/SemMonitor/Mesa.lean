import LinuxInternals.Lib.SemMonitor.Conservation

/-!
# Monitors with condition variables

The monitor a semaphore client stands for. `cond_wait` gives up the lock and starts to
wait in one step, and may return without a signal; `cond_signal` wakes exactly one
waiter of its queue if there is one. A semaphore client that tests its counter wherever
the monitor signals is simulated by the monitor, whichever waiter takes which unit.
-/

namespace LinuxInternals.SemMonitor

/-- The monitor operation a process is about to perform, or `waiting` inside one. -/
inductive MesaStage (κ ρ : Type) where
  | lock
  | signal (q : κ)
  | wait (q : κ)
  | waiting (q : κ)
  | relock
  | unlock (r : ρ)
deriving DecidableEq, Repr

inductive MesaProc (μ φ κ ρ : Type) where
  | user (x : μ)
  | inside (f : φ) (st : MesaStage κ ρ)

/-- A client whose code signals without looking at a counter. -/
structure MesaClient (δ κ φ μ γ ρ ε : Type) where
  data₀ : δ
  user₀ : μ
  syscall : μ → γ → Bool → Option (Entry μ φ ε)
  body : φ → Point → δ → Segment δ φ κ ρ ε
  leave : φ → ρ → Bool → μ × List ε

inductive MesaAct (ι γ : Type) where
  | call (c : γ) (copied : Bool)
  | run (copied : Bool)
  | wake
  | notify (w : Option ι)

structure MesaState (δ κ φ μ ρ ι : Type) where
  data : δ
  locked : Bool
  proc : ι → MesaProc μ φ κ ρ

variable {δ κ φ μ γ ρ ε ε' ι : Type}

def Next.mesaStage : Next κ ρ → MesaStage κ ρ
  | .block q => .wait q
  | .signal q => .signal q
  | .unlock r => .unlock r

def MesaProc.waitsOn [DecidableEq κ] (q : κ) : MesaProc μ φ κ ρ → Bool
  | .inside _ (.waiting r) => r == q
  | _ => false

def MesaProc.woken : MesaProc μ φ κ ρ → MesaProc μ φ κ ρ
  | .inside f (.waiting _) => .inside f .relock
  | p => p

namespace MesaState

variable [DecidableEq ι]

def set (s : MesaState δ κ φ μ ρ ι) (i : ι) (p : MesaProc μ φ κ ρ) : MesaState δ κ φ μ ρ ι :=
  { s with proc := Function.update s.proc i p }

def commit (s : MesaState δ κ φ μ ρ ι) (i : ι) (g : Segment δ φ κ ρ ε) :
    MesaState δ κ φ μ ρ ι :=
  { s.set i (.inside g.frame g.next.mesaStage) with data := g.data, locked := true }

/-- Wake `w`, or nobody when nobody waits on `q`. -/
def notify [Fintype ι] [DecidableEq κ] (s : MesaState δ κ φ μ ρ ι) (q : κ) :
    Option ι → Option (MesaState δ κ φ μ ρ ι)
  | none => if ∀ j, (s.proc j).waitsOn q = false then some s else none
  | some w => if (s.proc w).waitsOn q then some (s.set w (s.proc w).woken) else none

end MesaState

variable [DecidableEq κ] [DecidableEq ι] [Fintype ι]

namespace MesaClient

variable (M : MesaClient δ κ φ μ γ ρ ε)

def step (s : MesaState δ κ φ μ ρ ι) (ia : ι × MesaAct ι γ) :
    Option (MesaState δ κ φ μ ρ ι × List (ι × ε)) :=
  let i := ia.1
  let emit := List.map (Prod.mk i)
  match s.proc i, ia.2 with
  | .user x, .call c copied =>
    match M.syscall x c copied with
    | none => none
    | some (.enter f) => some (s.set i (.inside f .lock), [])
    | some (.done y es) => some (s.set i (.user y), emit es)
  | .inside f .lock, .run _ =>
    if s.locked then none
    else
      let g := M.body f .entered s.data
      some (s.commit i g, emit g.effects)
  | .inside f .relock, .run _ =>
    if s.locked then none
    else
      let g := M.body f .relocked s.data
      some (s.commit i g, emit g.effects)
  | .inside f (.signal q), .notify w =>
    match s.notify q w with
    | none => none
    | some s =>
      let g := M.body f .signalled s.data
      some (s.commit i g, emit g.effects)
  | .inside f (.wait q), .run _ =>
    some ({ s.set i (.inside f (.waiting q)) with locked := false }, [])
  | .inside f (.waiting _), .wake => some (s.set i (.inside f .relock), [])
  | .inside f (.unlock r), .run copied =>
    let (x, es) := M.leave f r copied
    some ({ s.set i (.user x) with locked := false }, emit es)
  | _, _ => none

def machine (ι : Type) [DecidableEq ι] [Fintype ι] :
    Machine (MesaState δ κ φ μ ρ ι) (ι × MesaAct ι γ) (ι × ε) where
  init := { data := M.data₀, locked := false, proc := fun _ => .user M.user₀ }
  step := M.step

/-- The code of the monitor where a signal nobody waits for is skipped. -/
def emulated (f : φ) (pt : Point) (d : δ) (nr : κ → Int) : Segment δ φ κ ρ ε :=
  let g := M.body f pt d
  match g.next with
  | .signal q =>
    if 0 < nr q then g
    else
      let g' := M.body g.frame .signalled g.data
      { g' with effects := g.effects ++ g'.effects }
  | _ => g

end MesaClient

def Segment.map (view : ε → ε') (g : Segment δ φ κ ρ ε) : Segment δ φ κ ρ ε' :=
  { g with effects := g.effects.map view }

/-- `C` is the semaphore rendering of `M` for the system calls that `allowed` admits. -/
structure Emulates (C : Client δ κ φ μ γ ρ ε) (M : MesaClient δ κ φ μ γ ρ ε') (view : ε → ε')
    (allowed : γ → Bool) : Prop where
  data₀ : M.data₀ = C.data₀
  user₀ : M.user₀ = C.user₀
  enter : ∀ x c copied f, allowed c = true → C.syscall x c copied = some (.enter f) →
    M.syscall x c copied = some (.enter f)
  done : ∀ x c copied y es, allowed c = true → C.syscall x c copied = some (.done y es) →
    M.syscall x c copied = some (.done y (es.map view))
  body : ∀ f pt d nr, (C.body f pt d nr).map view = M.emulated f pt d nr
  quiet : ∀ f d q, (M.body f .signalled d).next ≠ .signal q
  exits : ∀ f pt d nr, (C.body f pt d nr).next ≠ .unlock C.eintr
  leave : ∀ f r copied, r ≠ C.eintr → M.leave f r copied =
    ((C.leave f r copied).1, (C.leave f r copied).2.map view)

/-- No step is an interruption, and every call is admitted. -/
def Uninterrupted (allowed : γ → Bool) : Act γ → Prop
  | .call c _ => allowed c = true
  | .run _ => True
  | .intr => False

instance (allowed : γ → Bool) : DecidablePred (Uninterrupted allowed)
  | .call c _ => inferInstanceAs (Decidable (allowed c = true))
  | .run _ => isTrue trivial
  | .intr => isFalse id

/-- A sleeper may already be awake in the monitor. -/
inductive Matches (eintr : ρ) : Proc μ φ κ ρ → MesaProc μ φ κ ρ → Prop where
  | user {x} : Matches eintr (.user x) (.user x)
  | lock {f} : Matches eintr (.inside f .lock) (.inside f .lock)
  | signal {f q} : Matches eintr (.inside f (.signal q)) (.inside f (.signal q))
  | wait {f q} : Matches eintr (.inside f (.wait q)) (.inside f (.wait q))
  | sleep {f q} : Matches eintr (.inside f (.sleep q)) (.inside f (.waiting q))
  | woken {f q} : Matches eintr (.inside f (.sleep q)) (.inside f .relock)
  | relock {f} : Matches eintr (.inside f .relock) (.inside f .relock)
  | unlock {f r} : r ≠ eintr → Matches eintr (.inside f (.unlock r)) (.inside f (.unlock r))

structure Simulates (eintr : ρ) (s : State δ κ φ μ ρ ι) (m : MesaState δ κ φ μ ρ ι) : Prop where
  data : m.data = s.data
  locked : m.locked = false ↔ 0 < s.mtx
  procs : ∀ i, Matches eintr (s.proc i) (m.proc i)

section Simulation

variable {C : Client δ κ φ μ γ ρ ε} {M : MesaClient δ κ φ μ γ ρ ε'} {view : ε → ε'}
  {allowed : γ → Bool} {m m' : MesaState δ κ φ μ ρ ι} {i : ι}

omit [DecidableEq κ] in
theorem matches_segment {eintr : ρ} (g : Segment δ φ κ ρ ε) (g' : Segment δ φ κ ρ ε')
    (hframe : g'.frame = g.frame) (hnext : g'.next = g.next) (hexit : g.next ≠ .unlock eintr) :
    Matches (μ := μ) eintr g.proc (.inside g'.frame g'.next.mesaStage) := by
  rw [hframe, hnext, Segment.proc]
  cases hg : g.next with
  | block => exact .wait
  | signal => exact .signal
  | unlock r => exact .unlock fun hr => hexit (by rw [hg, hr])

omit [DecidableEq κ] [Fintype ι] in
theorem matches_update {eintr : ρ} {proc : ι → Proc μ φ κ ρ} {mproc : ι → MesaProc μ φ κ ρ}
    {p : Proc μ φ κ ρ} {mp : MesaProc μ φ κ ρ} (h : ∀ j, Matches eintr (proc j) (mproc j))
    (hp : Matches eintr p mp) (i j : ι) :
    Matches eintr (Function.update proc i p j) (Function.update mproc i mp j) := by
  by_cases hj : j = i
  · subst hj
    rwa [Function.update_self, Function.update_self]
  · rw [Function.update_of_ne hj, Function.update_of_ne hj]
    exact h j

omit [DecidableEq κ] in
theorem matches_woken {eintr : ρ} {p : Proc μ φ κ ρ} {mp : MesaProc μ φ κ ρ}
    (h : Matches eintr p mp) : Matches eintr p mp.woken := by
  cases h with
  | sleep => exact .woken
  | user => exact .user
  | lock => exact .lock
  | signal => exact .signal
  | wait => exact .wait
  | woken => exact .woken
  | relock => exact .relock
  | unlock hr => exact .unlock hr

theorem exists_notify {eintr : ρ} (proc : ι → Proc μ φ κ ρ)
    (h : ∀ j, Matches eintr (proc j) (m.proc j)) (q : κ) :
    ∃ w m', m.notify q w = some m' ∧ m'.data = m.data ∧
      (∀ j, Matches eintr (proc j) (m'.proc j)) ∧
      ∀ j, (∀ f r, m.proc j ≠ .inside f (.waiting r)) → m'.proc j = m.proc j := by
  by_cases hnone : ∀ j, (m.proc j).waitsOn q = false
  · exact ⟨none, m, if_pos hnone, rfl, h, fun _ _ => rfl⟩
  · push Not at hnone
    obtain ⟨w, hw⟩ := hnone
    refine ⟨some w, m.set w (m.proc w).woken, if_pos (by simpa using hw), rfl, fun j => ?_,
      fun j hj => ?_⟩
    · have hupdate := matches_update h (matches_woken (h w)) w j
      rwa [Function.update_eq_self] at hupdate
    · refine Function.update_of_ne (fun hjw => ?_) _ _
      subst hjw
      unfold MesaProc.waitsOn at hw
      split at hw
      · exact hj _ _ ‹_›
      · exact hw rfl

/-- The monitor follows a piece of client code, delivering the signals the semaphore
version skips. -/
theorem exists_exec_segment (hE : Emulates C M view allowed) {f : φ} {pt : Point} {d : δ}
    {nr : κ → Int} {g : Segment δ φ κ ρ ε} (hg : C.body f pt d nr = g)
    (bs : List (ι × MesaAct ι γ))
    (hexec : (M.machine ι).exec m bs =
      some (m'.commit i (M.body f pt d), (M.body f pt d).effects.map (Prod.mk i)))
    {proc : ι → Proc μ φ κ ρ} (hprocs : ∀ j, Matches C.eintr (proc j) (m'.proc j)) :
    ∃ bs' u, (M.machine ι).exec m bs' = some (u, (g.effects.map view).map (Prod.mk i)) ∧
      u.data = g.data ∧ u.locked = true ∧
      ∀ j, Matches C.eintr (Function.update proc i g.proc j) (u.proc j) := by
  have hexit := hE.exits f pt d nr
  have hbody := hE.body f pt d nr
  rw [hg] at hexit
  rw [hg, MesaClient.emulated] at hbody
  have hsame (hbody : g.map view = M.body f pt d) :
      ∃ bs' u, (M.machine ι).exec m bs' = some (u, (g.effects.map view).map (Prod.mk i)) ∧
        u.data = g.data ∧ u.locked = true ∧
        ∀ j, Matches C.eintr (Function.update proc i g.proc j) (u.proc j) := by
    rw [← hbody] at hexec
    exact ⟨bs, _, hexec, rfl, rfl,
      matches_update hprocs (matches_segment g (g.map view) rfl rfl hexit) i⟩
  cases hnext : (M.body f pt d).next with
  | block q =>
    simp only [hnext] at hbody
    exact hsame hbody
  | unlock r =>
    simp only [hnext] at hbody
    exact hsame hbody
  | signal q =>
    simp only [hnext] at hbody
    split at hbody
    · exact hsame hbody
    · -- the code has found nobody to wake and went on at once
      obtain ⟨g₁, hg₁⟩ : ∃ g₁, M.body f pt d = g₁ := ⟨_, rfl⟩
      rw [hg₁] at hexec hbody hnext
      have hprocs₁ := matches_update hprocs (Matches.signal (f := g₁.frame) (q := q)) i
      obtain ⟨w, m₂, hnotify, hdata, hprocs₂, hkeep⟩ :=
        exists_notify (m := m'.commit i g₁) (Function.update proc i _)
          (by simpa only [MesaState.commit, MesaState.set, hnext, Next.mesaStage] using hprocs₁) q
      have hm₂ : m₂.proc i = .inside g₁.frame (.signal q) := by
        rw [hkeep i (fun f r => by simp [MesaState.commit, MesaState.set, hnext, Next.mesaStage])]
        simp [MesaState.commit, MesaState.set, hnext, Next.mesaStage]
      have hstep : (M.machine ι).step (m'.commit i g₁) (i, .notify w) =
          some (m₂.commit i (M.body g₁.frame .signalled g₁.data),
            (M.body g₁.frame .signalled g₁.data).effects.map (Prod.mk i)) := by
        have hi : (m'.commit i g₁).proc i = .inside g₁.frame (.signal q) := by
          simp [MesaState.commit, MesaState.set, hnext, Next.mesaStage]
        simp only [MesaClient.machine, MesaClient.step, hi, hnotify, hdata]
        rfl
      refine ⟨bs ++ [(i, .notify w)], _, Machine.exec_append_eq_some.mpr
        ⟨_, _, _, hexec, Machine.exec_single hstep, ?_⟩, ?_, rfl, fun j => ?_⟩
      · have heffects : g.effects.map view = _ := congrArg Segment.effects hbody
        rw [heffects, List.map_append]
      · exact (congrArg Segment.data hbody).symm
      · have hcommit := matches_update hprocs₂ (matches_segment (μ := μ) g
          (M.body g₁.frame .signalled g₁.data) (congrArg Segment.frame hbody).symm
          (congrArg Segment.next hbody).symm hexit) i j
        rwa [Function.update_idem] at hcommit

/-- Code that runs with the mutex held is matched by the code of the monitor. -/
theorem exists_exec_body (hE : Emulates C M view allowed) {sh : Shared δ κ} {f : φ} {pt : Point}
    {g : Segment δ φ κ ρ ε} (hg : C.runBody sh f pt = g) (hdata : m.data = sh.data)
    (hmtx : sh.mtx = 0) (b : MesaAct ι γ)
    (hstep : (M.machine ι).step m (i, b) =
      some (m'.commit i (M.body f pt m.data), (M.body f pt m.data).effects.map (Prod.mk i)))
    {proc : ι → Proc μ φ κ ρ} (hprocs : ∀ j, Matches C.eintr (proc j) (m'.proc j)) :
    ∃ bs u, (M.machine ι).exec m bs = some (u, (g.effects.map view).map (Prod.mk i)) ∧
      u.data = (sh.commit g).data ∧ (u.locked = false ↔ 0 < (sh.commit g).mtx) ∧
      ∀ j, Matches C.eintr (Function.update proc i g.proc j) (u.proc j) := by
  rw [Client.runBody, ← hdata] at hg
  obtain ⟨bs, u, hexec, hu, hulocked, huprocs⟩ :=
    exists_exec_segment hE hg [(i, b)] (Machine.exec_single hstep) hprocs
  refine ⟨bs, u, hexec, by rw [hu, Client.commit_data], ?_, huprocs⟩
  rw [hulocked, Client.commit_mtx, hmtx]
  simp

/-- One step of the semaphore monitor, matched by the monitor with condition variables.
Taking a unit of a queue's semaphore returns from `cond_wait`, spuriously if need be. -/
theorem Client.Moves.simulated (hE : Emulates C M view allowed) {sh sh' : Shared δ κ}
    {p p' : Proc μ φ κ ρ} {a : Act γ} {es : List ε} (h : C.Moves sh p a sh' p' es)
    (hok : Uninterrupted allowed a) {proc : ι → Proc μ φ κ ρ} (hp : proc i = p)
    (hdata : m.data = sh.data) (hlocked : m.locked = false ↔ 0 < sh.mtx)
    (hone : sh.mtx + p.holds.toNat ≤ 1) (hprocs : ∀ j, Matches C.eintr (proc j) (m.proc j)) :
    ∃ bs u, (M.machine ι).exec m bs = some (u, (es.map view).map (Prod.mk i)) ∧
      u.data = sh'.data ∧ (u.locked = false ↔ 0 < sh'.mtx) ∧
      ∀ j, Matches C.eintr (Function.update proc i p' j) (u.proc j) := by
  obtain ⟨mp, hmp⟩ : ∃ mp, m.proc i = mp := ⟨_, rfl⟩
  have hmatch := hprocs i
  rw [hp, hmp] at hmatch
  cases h with
  | @enter x c copied f hcall =>
    cases hmatch with
    | user =>
      have hcall' := hE.enter x c copied f hok hcall
      refine ⟨[(i, .call c copied)], m.set i (.inside f .lock), Machine.exec_single ?_, hdata,
        hlocked, matches_update hprocs .lock i⟩
      simp [MesaClient.machine, MesaClient.step, hmp, hcall']
  | @refuse x c copied y es hcall =>
    cases hmatch with
    | user =>
      have hcall' := hE.done x c copied y es hok hcall
      refine ⟨[(i, .call c copied)], m.set i (.user y), Machine.exec_single ?_, hdata,
        hlocked, matches_update hprocs .user i⟩
      simp [MesaClient.machine, MesaClient.step, hmp, hcall']
  | @lock f copied g hm hg =>
    cases hmatch with
    | lock =>
      have hfree : m.locked = false := hlocked.mpr hm
      simp only [Proc.holds, Bool.toNat_false] at hone
      apply exists_exec_body hE hg hdata (show sh.mtx - 1 = 0 by omega) (.run copied) ?_ hprocs
      simp [MesaClient.machine, MesaClient.step, hmp, hfree]
  | @relock f copied g hm hg =>
    cases hmatch with
    | relock =>
      have hfree : m.locked = false := hlocked.mpr hm
      simp only [Proc.holds, Bool.toNat_false] at hone
      apply exists_exec_body hE hg hdata (show sh.mtx - 1 = 0 by omega) (.run copied) ?_ hprocs
      simp [MesaClient.machine, MesaClient.step, hmp, hfree]
  | @signal f q copied g hg =>
    cases hmatch with
    | signal =>
      obtain ⟨w, m', hnotify, hdata', hprocs', -⟩ := exists_notify proc hprocs q
      simp only [Proc.holds, Bool.toNat_true] at hone
      apply exists_exec_body hE hg hdata (show sh.mtx = 0 by omega) (.notify w) ?_ hprocs'
      simp only [MesaClient.machine, MesaClient.step, hmp, hnotify, hdata']
  | @wait f q copied =>
    cases hmatch with
    | wait =>
      refine ⟨[(i, .run true)], { m.set i (.inside f (.waiting q)) with locked := false },
        Machine.exec_single ?_, hdata, by simp [Shared.up], matches_update hprocs .sleep i⟩
      simp [MesaClient.machine, MesaClient.step, hmp]
  | @take f q copied hs =>
    cases hmatch with
    | sleep =>
      refine ⟨[(i, .wake)], m.set i (.inside f .relock), Machine.exec_single ?_, hdata, hlocked,
        matches_update hprocs .relock i⟩
      simp [MesaClient.machine, MesaClient.step, hmp]
    | woken =>
      refine ⟨[], m, rfl, hdata, hlocked, fun j => ?_⟩
      have hupdate := matches_update hprocs (Matches.relock (f := f)) i j
      rwa [← hmp, Function.update_eq_self] at hupdate
  | abort => cases hmatch
  | @unlock f r copied x es hleave =>
    cases hmatch with
    | unlock hr =>
      have hleave' := hE.leave f r copied hr
      rw [hleave] at hleave'
      refine ⟨[(i, .run copied)], { m.set i (.user x) with locked := false },
        Machine.exec_single ?_, hdata, by simp [Shared.up], matches_update hprocs .user i⟩
      simp [MesaClient.machine, MesaClient.step, hmp, hleave']
  | lockIntr | sleepIntr | relockIntr => cases hok

/-- Runs without interruptions refine the monitor: same events, same data. -/
theorem refines_mesa (hE : Emulates C M view allowed) {as : List (ι × Act γ)}
    {s : State δ κ φ μ ρ ι} {tr : List (ι × ε)}
    (hok : (SemMonitor.machine C ι).Along (fun _ ia => Uninterrupted allowed ia.2)
      (SemMonitor.machine C ι).init as)
    (hrun : (SemMonitor.machine C ι).Run as s tr) :
    ∃ bs m, (M.machine ι).Run bs m (tr.map (Prod.map id view)) ∧ m.data = s.data := by
  have hsimulated : ∃ bs m, (M.machine ι).Run bs m (tr.map (Prod.map id view)) ∧
      Simulates C.eintr s m := by
    refine hrun.simulated (C := fun _ ia => Uninterrupted allowed ia.2) ?_ ?_ hok
    · refine ⟨hE.data₀, by simp [SemMonitor.machine, MesaClient.machine], fun i => ?_⟩
      change Matches C.eintr (.user C.user₀) (.user M.user₀)
      rw [hE.user₀]
      exact .user
    · rintro s m ⟨i, a⟩ s' es hs hsim hC hstep
      obtain ⟨es, hmoves, hproc, rfl⟩ := moves_of_step hstep
      have hone := mtx_conserved hs
      have hholds : (s.proc i).holds.toNat ≤ headcount Proc.holds s.proc := by
        cases hi : (s.proc i).holds with
        | false => exact Nat.zero_le _
        | true => exact headcount_pos i hi
      obtain ⟨bs, u, hexec, hu, hulocked, huprocs⟩ := hmoves.simulated hE hC rfl hsim.data
        hsim.locked (by omega) hsim.procs
      refine ⟨bs, u, ?_, hu, hulocked, ?_⟩
      · rw [hexec, List.map_map, List.map_map]
        rfl
      · rw [hproc]
        exact huprocs
  obtain ⟨bs, m, hm, hsim⟩ := hsimulated
  exact ⟨bs, m, hm, hsim.data⟩

end Simulation

end LinuxInternals.SemMonitor
