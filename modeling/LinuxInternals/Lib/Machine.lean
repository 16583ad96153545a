import Mathlib.Data.List.Induction

/-!
# Labelled machines and their runs

A machine is a partial step function on states, driven by a list of actions and
emitting a list of events. Nondeterminism lives in the choice of the actions.
The induction rules below are the only places where a run is taken apart:
`Run.invariant` for facts about states and traces (`exec_invariant` from any state on),
`Run.simulated` for forward simulations that match one step by any finite number of steps.
-/

namespace LinuxInternals

structure Machine (σ α ε : Type*) where
  init : σ
  step : σ → α → Option (σ × List ε)

namespace Machine

variable {σ α ε τ β δ : Type*} (M : Machine σ α ε)

def exec : σ → List α → Option (σ × List ε)
  | s, [] => some (s, [])
  | s, a :: as =>
    match M.step s a with
    | none => none
    | some (s', es) => (exec s' as).map fun r => (r.1, es ++ r.2)

/-- The actions `as` lead from the initial state to `s`, emitting `tr`. -/
def Run (as : List α) (s : σ) (tr : List ε) : Prop := M.exec M.init as = some (s, tr)

def Reachable (s : σ) : Prop := ∃ as tr, M.Run as s tr

/-- Every step of the execution of `as` from `s` is taken where `C` allows it. -/
def Along (C : σ → α → Prop) : σ → List α → Prop
  | _, [] => True
  | s, a :: as =>
    C s a ∧ match M.step s a with
      | none => True
      | some (s', _) => Along C s' as

instance Along.decidable (C : σ → α → Prop) [∀ s a, Decidable (C s a)] (s : σ) (as : List α) :
    Decidable (M.Along C s as) :=
  match as with
  | [] => isTrue trivial
  | a :: as =>
    match h : M.step s a with
    | none => decidable_of_iff (C s a) (by simp [Along, h])
    | some (s', es) =>
      have := Along.decidable C s' as
      decidable_of_iff (C s a ∧ M.Along C s' as) (by simp [Along, h])

/-- `P` holds of every state the run of `as` passes through, and of the trace up to it. -/
def Always (P : σ → List ε → Prop) (as : List α) : Prop :=
  ∀ pre, pre <+: as → ∀ s tr, M.Run pre s tr → P s tr

variable {M}

@[simp] theorem exec_nil (s : σ) : M.exec s [] = some (s, []) := rfl

theorem exec_cons {s s' : σ} {a : α} {es : List ε} (h : M.step s a = some (s', es))
    (as : List α) : M.exec s (a :: as) = (M.exec s' as).map fun r => (r.1, es ++ r.2) := by
  rw [exec, h]

theorem exec_cons_eq_some {s u : σ} {a : α} {as : List α} {tr : List ε} :
    M.exec s (a :: as) = some (u, tr) ↔
      ∃ s' es t, M.step s a = some (s', es) ∧ M.exec s' as = some (u, t) ∧ tr = es ++ t := by
  rw [exec]
  cases h : M.step s a with
  | none => simp
  | some r =>
    obtain ⟨s', es⟩ := r
    simp only [Option.map_eq_some_iff, Prod.exists, Prod.mk.injEq, Option.some.injEq]
    constructor
    · rintro ⟨v, t, hv, rfl, rfl⟩
      exact ⟨s', es, t, ⟨rfl, rfl⟩, hv, rfl⟩
    · rintro ⟨_, _, t, ⟨rfl, rfl⟩, hv, rfl⟩
      exact ⟨u, t, hv, rfl, rfl⟩

theorem exec_append_eq_some {s u : σ} {as bs : List α} {tr : List ε} :
    M.exec s (as ++ bs) = some (u, tr) ↔
      ∃ v t₁ t₂, M.exec s as = some (v, t₁) ∧ M.exec v bs = some (u, t₂) ∧ tr = t₁ ++ t₂ := by
  induction as generalizing s tr with
  | nil => simp
  | cons a as ih =>
    rw [List.cons_append, exec_cons_eq_some]
    constructor
    · rintro ⟨s', es, t, ha, ht, rfl⟩
      obtain ⟨v, t₁, t₂, h₁, h₂, rfl⟩ := ih.mp ht
      exact ⟨v, es ++ t₁, t₂, exec_cons_eq_some.mpr ⟨s', es, t₁, ha, h₁, rfl⟩, h₂,
        (List.append_assoc ..).symm⟩
    · rintro ⟨v, t₁, t₂, h₁, h₂, rfl⟩
      obtain ⟨s', es, t, ha, ht, rfl⟩ := exec_cons_eq_some.mp h₁
      exact ⟨s', es, t ++ t₂, ha, ih.mpr ⟨v, t, t₂, ht, h₂, rfl⟩, List.append_assoc ..⟩

theorem exec_single {s s' : σ} {a : α} {es : List ε} (h : M.step s a = some (s', es)) :
    M.exec s [a] = some (s', es) := by
  simp [exec_cons h]

/-- One action, taken again and again from `f 0` on. -/
theorem exec_replicate {f : Nat → σ} {a : α} {n : Nat}
    (h : ∀ k < n, ∃ es, M.step (f k) a = some (f (k + 1), es)) :
    ∃ es, M.exec (f 0) (List.replicate n a) = some (f n, es) := by
  induction n with
  | zero => exact ⟨[], rfl⟩
  | succ n ih =>
    obtain ⟨es, hes⟩ := ih fun k hk => h k (Nat.lt_succ_of_lt hk)
    obtain ⟨es', hes'⟩ := h n (Nat.lt_succ_self n)
    refine ⟨es ++ es', ?_⟩
    rw [List.replicate_succ']
    exact exec_append_eq_some.mpr ⟨f n, es, es', hes, exec_single hes', rfl⟩

theorem run_nil : M.Run [] M.init [] := rfl

theorem run_snoc_iff {as : List α} {a : α} {u : σ} {tr : List ε} :
    M.Run (as ++ [a]) u tr ↔
      ∃ s t es, M.Run as s t ∧ M.step s a = some (u, es) ∧ tr = t ++ es := by
  simp only [Run, exec_append_eq_some, exec_cons_eq_some, exec_nil, Option.some.injEq,
    Prod.mk.injEq]
  constructor
  · rintro ⟨s, t, _, h, ⟨_, es, _, ha, ⟨rfl, rfl⟩, rfl⟩, rfl⟩
    exact ⟨s, t, es, h, ha, by simp⟩
  · rintro ⟨s, t, es, h, ha, rfl⟩
    exact ⟨s, t, es, h, ⟨u, es, [], ha, ⟨rfl, rfl⟩, by simp⟩, rfl⟩

theorem exists_run_of_eval {θ : Type*} {as : List α} {f : σ × List ε → θ} {x : θ}
    (h : (M.exec M.init as).map f = some x) : ∃ s tr, M.Run as s tr ∧ f (s, tr) = x := by
  obtain ⟨⟨s, tr⟩, hrun, hx⟩ := Option.map_eq_some_iff.mp h
  exact ⟨s, tr, hrun, hx⟩

/-- Where every action is possible, every list of actions is a run. -/
theorem exists_run_of_total (htotal : ∀ s a, ∃ s' es, M.step s a = some (s', es)) (as : List α) :
    ∃ s tr, M.Run as s tr := by
  induction as using List.reverseRecOn with
  | nil => exact ⟨M.init, [], run_nil⟩
  | append_singleton as a ih =>
    obtain ⟨s, t, h⟩ := ih
    obtain ⟨s', es, ha⟩ := htotal s a
    exact ⟨s', t ++ es, run_snoc_iff.mpr ⟨s, t, es, h, ha, rfl⟩⟩

theorem Run.unique {as : List α} {s u : σ} {t v : List ε} (h : M.Run as s t)
    (h' : M.Run as u v) : u = s ∧ v = t := by
  have heq : some (u, v) = some (s, t) := h'.symm.trans h
  simpa using heq

theorem along_cons {C : σ → α → Prop} {s s' : σ} {a : α} {es : List ε}
    (h : M.step s a = some (s', es)) (as : List α) :
    M.Along C s (a :: as) ↔ C s a ∧ M.Along C s' as := by
  rw [Along, h]

theorem along_append {C : σ → α → Prop} {s u : σ} {as : List α} {t : List ε}
    (h : M.exec s as = some (u, t)) (bs : List α) :
    M.Along C s (as ++ bs) ↔ M.Along C s as ∧ M.Along C u bs := by
  induction as generalizing s t with
  | nil =>
    obtain ⟨rfl, -⟩ := Prod.mk.inj (Option.some.inj h)
    simp [Along]
  | cons a as ih =>
    obtain ⟨s', es, t, ha, ht, rfl⟩ := exec_cons_eq_some.mp h
    rw [List.cons_append, along_cons ha, along_cons ha, ih ht, and_assoc]

theorem along_snoc {C : σ → α → Prop} {as : List α} {s : σ} {t : List ε} (h : M.Run as s t)
    (a : α) : M.Along C M.init (as ++ [a]) ↔ M.Along C M.init as ∧ C s a := by
  rw [along_append h, Along]
  refine and_congr_right fun _ => and_iff_left ?_
  split <;> trivial

theorem Along.mono_of_reachable {C D : σ → α → Prop}
    (hCD : ∀ s a, M.Reachable s → C s a → D s a) {as : List α} {s : σ} {tr : List ε}
    (hrun : M.Run as s tr) (h : M.Along C M.init as) : M.Along D M.init as := by
  induction as using List.reverseRecOn generalizing s tr with
  | nil => trivial
  | append_singleton as a ih =>
    obtain ⟨u, t, es, hu, ha, rfl⟩ := run_snoc_iff.mp hrun
    obtain ⟨has, hCa⟩ := (along_snoc hu a).mp h
    exact (along_snoc hu a).mpr ⟨ih hu has, hCD u a ⟨as, t, hu⟩ hCa⟩

theorem along_of_forall {P : α → Prop} {as : List α} (h : ∀ a ∈ as, P a) (s : σ) :
    M.Along (fun _ a => P a) s as := by
  induction as generalizing s with
  | nil => trivial
  | cons a as ih =>
    obtain ⟨ha, has⟩ := List.forall_mem_cons.mp h
    refine ⟨ha, ?_⟩
    split
    · trivial
    · exact ih has _

theorem forall_of_along {P : α → Prop} {as : List α} {s u : σ} {tr : List ε}
    (h : M.exec s as = some (u, tr)) (hP : M.Along (fun _ a => P a) s as) : ∀ a ∈ as, P a := by
  induction as generalizing s tr with
  | nil => exact List.forall_mem_nil P
  | cons a as ih =>
    obtain ⟨s', es, t, ha, ht, rfl⟩ := exec_cons_eq_some.mp h
    obtain ⟨hPa, hPas⟩ := (along_cons ha as).mp hP
    exact List.forall_mem_cons.mpr ⟨hPa, ih ht hPas⟩

theorem along_true (s : σ) (as : List α) : M.Along (fun _ _ => True) s as :=
  along_of_forall (fun _ _ => trivial) s

/-- Induction over an execution that keeps to `C`, from any state. -/
theorem exec_invariant {C : σ → α → Prop} {I : σ → List ε → Prop}
    (hstep : ∀ s t a s' es, I s t → C s a → M.step s a = some (s', es) → I s' (t ++ es))
    {as : List α} {s u : σ} {t tr : List ε} (hI : I s t) (hC : M.Along C s as)
    (h : M.exec s as = some (u, tr)) : I u (t ++ tr) := by
  induction as generalizing s t tr with
  | nil =>
    obtain ⟨rfl, rfl⟩ := Prod.mk.inj (Option.some.inj h)
    rwa [List.append_nil]
  | cons a as ih =>
    obtain ⟨s', es, t', ha, ht, rfl⟩ := exec_cons_eq_some.mp h
    obtain ⟨hCa, hCas⟩ := (along_cons ha as).mp hC
    rw [← List.append_assoc]
    exact ih (hstep s t a s' es hI hCa ha) hCas ht

/-- What an invariant of the steps in `C` gives of a step, it gives of all of them. -/
theorem exec_along {C D : σ → α → Prop} {I : σ → Prop}
    (hstep : ∀ s a s' es, I s → C s a → M.step s a = some (s', es) → D s a ∧ I s')
    {as : List α} {s u : σ} {tr : List ε} (hI : I s) (hC : M.Along C s as)
    (h : M.exec s as = some (u, tr)) : M.Along D s as ∧ I u := by
  induction as generalizing s tr with
  | nil =>
    obtain ⟨rfl, -⟩ := Prod.mk.inj (Option.some.inj h)
    exact ⟨trivial, hI⟩
  | cons a as ih =>
    obtain ⟨s', es, t, ha, ht, rfl⟩ := exec_cons_eq_some.mp h
    obtain ⟨hCa, hCas⟩ := (along_cons ha as).mp hC
    obtain ⟨hD, hI'⟩ := hstep s a s' es hI hCa ha
    obtain ⟨hDs, hIu⟩ := ih hI' hCas ht
    exact ⟨(along_cons ha as).mpr ⟨hD, hDs⟩, hIu⟩

theorem along_and {C D : σ → α → Prop} {as : List α} {s : σ} (hC : M.Along C s as)
    (hD : M.Along D s as) : M.Along (fun s a => C s a ∧ D s a) s as := by
  induction as generalizing s with
  | nil => trivial
  | cons a as ih =>
    refine ⟨⟨hC.1, hD.1⟩, ?_⟩
    cases hstep : M.step s a with
    | none => trivial
    | some r =>
      obtain ⟨s', es⟩ := r
      exact ih ((along_cons hstep as).mp hC).2 ((along_cons hstep as).mp hD).2

theorem Run.invariant {C : σ → α → Prop} {I : σ → List ε → Prop} (hinit : I M.init [])
    (hstep : ∀ s t a s' es, I s t → C s a → M.step s a = some (s', es) → I s' (t ++ es))
    {as : List α} {s : σ} {tr : List ε} (hC : M.Along C M.init as) (h : M.Run as s tr) :
    I s tr :=
  exec_invariant hstep hinit hC h

theorem Run.reachable {as : List α} {s : σ} {tr : List ε} (h : M.Run as s tr) :
    M.Reachable s := ⟨as, tr, h⟩

theorem Reachable.exec {s u : σ} {as : List α} {tr : List ε} (h : M.Reachable s)
    (hexec : M.exec s as = some (u, tr)) : M.Reachable u := by
  obtain ⟨bs, t, h⟩ := h
  exact ⟨bs ++ as, t ++ tr, exec_append_eq_some.mpr ⟨s, t, tr, h, hexec, rfl⟩⟩

theorem Reachable.step {s s' : σ} {a : α} {es : List ε} (h : M.Reachable s)
    (ha : M.step s a = some (s', es)) : M.Reachable s' := h.exec (exec_single ha)

/-- A property holds along a run exactly when the run keeps to `C`, if an invariant of the steps
in `C` gives the property and a step outside `C` breaks it. -/
theorem Run.always_iff_along_of_invariant {C : σ → α → Prop} {I P : σ → List ε → Prop}
    (hinit : I M.init [])
    (hstep : ∀ s t a s' es, I s t → C s a → M.step s a = some (s', es) → I s' (t ++ es))
    (hP : ∀ s t, I s t → P s t)
    (hbreak : ∀ s t a s' es, I s t → ¬C s a → M.step s a = some (s', es) → ¬P s' (t ++ es))
    {as : List α} {s : σ} {tr : List ε} (h : M.Run as s tr) :
    M.Always P as ↔ M.Along C M.init as := by
  constructor
  · intro hall
    induction as using List.reverseRecOn generalizing s tr with
    | nil => trivial
    | append_singleton as a ih =>
      obtain ⟨v, t, es, hv, ha, rfl⟩ := run_snoc_iff.mp h
      have has := ih hv fun pre hpre => hall pre (hpre.trans (List.prefix_append _ _))
      refine (along_snoc hv a).mpr ⟨has, ?_⟩
      by_contra hCa
      exact hbreak v t a s es (hv.invariant hinit hstep has) hCa ha
        (hall _ (List.prefix_refl _) s _ h)
  · rintro hC pre ⟨post, rfl⟩ u t hu
    exact hP u t (hu.invariant hinit hstep ((along_append hu post).mp hC).1)

/-- A property that a step keeps exactly when `C` allows the step holds along a run
exactly when the run keeps to `C`. -/
theorem Run.always_iff_along {C : σ → α → Prop} {P : σ → List ε → Prop} (hinit : P M.init [])
    (hstep : ∀ s t a s' es, M.Reachable s → P s t → M.step s a = some (s', es) →
      (P s' (t ++ es) ↔ C s a))
    {as : List α} {s : σ} {tr : List ε} (h : M.Run as s tr) :
    M.Always P as ↔ M.Along C M.init as :=
  h.always_iff_along_of_invariant (I := fun s t => M.Reachable s ∧ P s t)
    ⟨run_nil.reachable, hinit⟩
    (fun s t a s' es hI hC ha => ⟨hI.1.step ha, (hstep s t a s' es hI.1 hI.2 ha).mpr hC⟩)
    (fun _ _ hI => hI.2)
    (fun s t a s' es hI hC ha hP => hC ((hstep s t a s' es hI.1 hI.2 ha).mp hP))

theorem Reachable.invariant {I : σ → Prop} (hinit : I M.init)
    (hstep : ∀ s a s' es, I s → M.step s a = some (s', es) → I s') {s : σ}
    (h : M.Reachable s) : I s := by
  obtain ⟨as, tr, h⟩ := h
  exact h.invariant (C := fun _ _ => True) (I := fun s _ => I s) hinit
    (fun s _ a s' es hI _ ha => hstep s a s' es hI ha) (along_true _ _)

/-- Forward simulation: a step of `M` within `C` is matched by finitely many steps
of `N` with the same events, seen through `view`. -/
theorem Run.simulated {N : Machine τ β δ} {C : σ → α → Prop} {R : σ → τ → Prop} {view : ε → δ}
    (hinit : R M.init N.init)
    (hstep : ∀ s u a s' es, M.Reachable s → R s u → C s a → M.step s a = some (s', es) →
      ∃ bs u', N.exec u bs = some (u', es.map view) ∧ R s' u')
    {as : List α} {s : σ} {tr : List ε} (hC : M.Along C M.init as) (h : M.Run as s tr) :
    ∃ bs u, N.Run bs u (tr.map view) ∧ R s u := by
  have key : M.Reachable s ∧ ∃ bs u, N.Run bs u (tr.map view) ∧ R s u :=
    h.invariant (C := C)
      (I := fun s tr => M.Reachable s ∧ ∃ bs u, N.Run bs u (tr.map view) ∧ R s u)
      ⟨run_nil.reachable, [], N.init, run_nil, hinit⟩
      (by
        rintro s t a s' es ⟨hs, bs, u, hu, hR⟩ hCa ha
        obtain ⟨bs', u', hu', hR'⟩ := hstep s u a s' es hs hR hCa ha
        refine ⟨hs.step ha, bs ++ bs', u', ?_, hR'⟩
        rw [List.map_append]
        exact exec_append_eq_some.mpr ⟨u, _, _, hu, hu', rfl⟩)
      hC
  exact key.2

/-- The machine that notes something of each action in the trace, ahead of the events of its
step. -/
def noting (M : Machine σ α ε) (note : α → List ε) : Machine σ α ε where
  init := M.init
  step s a := (M.step s a).map fun r => (r.1, note a ++ r.2)

theorem noting_step_eq_some {note : α → List ε} {s s' : σ} {a : α} {es : List ε} :
    (M.noting note).step s a = some (s', es) ↔
      ∃ fs, M.step s a = some (s', fs) ∧ es = note a ++ fs := by
  simp only [noting, Option.map_eq_some_iff, Prod.mk.injEq]
  constructor
  · rintro ⟨⟨u, fs⟩, hstep, rfl, rfl⟩
    exact ⟨fs, hstep, rfl⟩
  · rintro ⟨fs, hstep, rfl⟩
    exact ⟨(s', fs), hstep, rfl, rfl⟩

/-- The machine that shows `view` of each of its steps, in place of the events. -/
def showing (M : Machine σ α ε) (view : σ → α → List δ) : Machine σ α δ where
  init := M.init
  step s a := (M.step s a).map fun r => (r.1, view s a)

theorem showing_step_eq_some {view : σ → α → List δ} {s s' : σ} {a : α} {es : List δ} :
    (M.showing view).step s a = some (s', es) ↔
      ∃ fs, M.step s a = some (s', fs) ∧ es = view s a := by
  simp only [showing, Option.map_eq_some_iff, Prod.mk.injEq]
  constructor
  · rintro ⟨⟨u, fs⟩, hstep, rfl, rfl⟩
    exact ⟨fs, hstep, rfl⟩
  · rintro ⟨fs, hstep, rfl⟩
    exact ⟨(s', fs), hstep, rfl, rfl⟩

theorem Reachable.of_showing {view : σ → α → List δ} {s : σ}
    (h : (M.showing view).Reachable s) : M.Reachable s := by
  refine Reachable.invariant (M := M.showing view) (I := M.Reachable) (run_nil (M := M)).reachable
    ?_ h
  intro s a s' es hs hstep
  obtain ⟨fs, hstep, -⟩ := showing_step_eq_some.mp hstep
  exact hs.step hstep

end Machine

end LinuxInternals
