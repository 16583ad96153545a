import LinuxInternals.Modtimer.Steps

/-!
# The numbers that `fire_timer` generates

A number is the remainder of an unsigned 32-bit value by `max_random-1`, a signed word that
the user sets. A value of one makes the divisor zero. Any other leaves the remainder below
`max_random` when that is positive, and it is the only value that the text has to avoid.
-/

namespace LinuxInternals.Modtimer

open SemMonitor Text

theorem toInt_random (r : UInt32) : r.toUInt64.toInt64.toInt = r.toNat := by
  have hlt := r.toNat_lt
  change BitVec.toInt r.toUInt64.toBitVec = _
  rw [BitVec.toInt_eq_toNat_of_lt]
  · rfl
  · change 2 * r.toNat < _
    omega

theorem toNat_of_nonneg {x : Int64} (h : 0 ≤ x.toInt) (h' : x.toInt < 4294967296) :
    (x.toUInt64.toUInt32.toNat : Int) = x.toInt := by
  have hnat : (x.toUInt64.toNat : Int) = x.toInt := by
    rw [Int64.toNat_toUInt64_of_le (Int64.le_iff_toInt_le.mpr h)]
    exact Int.toNat_of_nonneg h
  rw [UInt64.toNat_toUInt32]
  omega

theorem randNumber_ne_none_iff {r : UInt32} {maxRandom : Int64} :
    randNumber r maxRandom ≠ none ↔ maxRandom ≠ 1 := by
  have hzero : maxRandom - 1 = 0 ↔ maxRandom = 1 := by
    rw [Int64.sub_eq_iff_eq_add, Int64.zero_add]
  rw [randNumber]
  split
  · simp [hzero.mp ‹_›]
  · simp [hzero.not.mp ‹_›]

theorem randNumber_lt {r n : UInt32} {maxRandom : Int64} (h : randNumber r maxRandom = some n)
    (hpos : 0 < maxRandom.toInt) : (n.toNat : Int) < maxRandom.toInt := by
  unfold randNumber at h
  split at h
  · cases h
  cases h
  have hone : (1 : Int64).toInt = 1 := rfl
  have hhi := maxRandom.toInt_lt
  have hr := r.toNat_lt
  have hdiv : (maxRandom - 1).toInt = maxRandom.toInt - 1 := by
    rw [Int64.toInt_sub, hone, Int.bmod_eq_of_le (by omega) (by omega)]
  have hne : maxRandom.toInt - 1 ≠ 0 := by
    intro hzero
    rw [← hdiv] at hzero
    exact ‹¬_› (Int64.toInt_inj.mp hzero)
  have hmod : (r.toUInt64.toInt64 % (maxRandom - 1)).toInt =
      (r.toNat : Int) % (maxRandom.toInt - 1) := by
    rw [Int64.toInt_mod, toInt_random, hdiv, Int.tmod_eq_emod_of_nonneg (by omega)]
  have hlo := Int.emod_nonneg (r.toNat : Int) hne
  have hlt := Int.emod_lt_of_pos (r.toNat : Int) (show 0 < maxRandom.toInt - 1 by omega)
  have hle : (r.toNat : Int) % (maxRandom.toInt - 1) ≤ r.toNat := by
    have hquot := Int.ediv_nonneg (Int.natCast_nonneg r.toNat)
      (show 0 ≤ maxRandom.toInt - 1 by omega)
    have hmul := mul_nonneg (show 0 ≤ maxRandom.toInt - 1 by omega) hquot
    have hsum := Int.mul_ediv_add_emod (r.toNat : Int) (maxRandom.toInt - 1)
    omega
  rw [toNat_of_nonneg (by omega) (by omega), hmod]
  omega

variable {ι : Type} [DecidableEq ι] {msecsToJiffies : UInt32 → UInt64}

namespace State

/-- Whatever `get_random_int` gives, `fire_timer` divides by no zero, and its number is in
range. -/
def NumbersSound (s : State ι) : Prop :=
  ∀ r, randNumber r s.config.maxRandom ≠ none ∧
    (0 < s.config.maxRandom.toInt → ∀ n, randNumber r s.config.maxRandom = some n →
      (n.toNat : Int) < s.config.maxRandom.toInt)

end State

/-- A write that is taken, with a text that stores 1 for `max_random`. -/
def SetsOne : Act ι → Prop
  | .config off buf copied => off = 0 ∧ buf.length ≤ 99 ∧ copied = true ∧
      sscanf (cstring (buf ++ [0])) "max_random %zu" = [.size 1]
  | _ => False

instance SetsOne.decidable : (a : Act ι) → Decidable (SetsOne a)
  | .config _ _ _ => inferInstanceAs (Decidable (_ ∧ _))
  | .expire _ | .fire | .work | .open _ | .release _ | .file _ | .mon _ _ => isFalse id

omit [DecidableEq ι] in
theorem numbersSound_iff {s : State ι} : s.NumbersSound ↔ s.config.maxRandom ≠ 1 := by
  constructor
  · exact fun h => randNumber_ne_none_iff.mp (h 0).1
  · exact fun h r => ⟨randNumber_ne_none_iff.mpr h, fun hpos n hn => randNumber_lt hn hpos⟩

theorem scan_of_head_ne {c d : UInt8} (h : d ≠ c) (f : List Directive) (s : List UInt8) :
    scan (.lit c :: f) (d :: s) = [] := by
  rw [scan, if_neg h]

/-- The three formats start with different letters. -/
theorem other_formats_of_maxRandom {s : List UInt8} {num : UInt64}
    (h : sscanf s "max_random %zu" = [.size num]) :
    sscanf s "timer_period_ms %zu" = [] ∧ sscanf s "emergency_threshold %zu" = [] := by
  have hmax : directives (bytes "max_random %zu") =
      .lit 109 :: directives (bytes "ax_random %zu") := by rfl
  have hperiod : directives (bytes "timer_period_ms %zu") =
      .lit 116 :: directives (bytes "imer_period_ms %zu") := by rfl
  have hthreshold : directives (bytes "emergency_threshold %zu") =
      .lit 101 :: directives (bytes "mergency_threshold %zu") := by rfl
  rw [sscanf, hmax] at h
  cases s with
  | nil => cases h
  | cons c s =>
    have hc : c = 109 := by
      by_contra hne
      rw [scan_of_head_ne hne] at h
      cases h
    subst hc
    rw [sscanf, hperiod, sscanf, hthreshold]
    exact ⟨scan_of_head_ne (by decide) _ _, scan_of_head_ne (by decide) _ _⟩

theorem toInt64_eq_one_iff {num : UInt64} : num.toInt64 = 1 ↔ num = 1 := by
  constructor
  · intro h
    rw [← UInt64.toUInt64_toInt64 num, h]
    rfl
  · rintro rfl
    rfl

omit [DecidableEq ι] in
theorem maxRandom_eq_one_iff {cfg : Config} (h : cfg.maxRandom ≠ 1) (off : Nat)
    (buf : List UInt8) (copied : Bool) :
    (modtimerConfigWrite msecsToJiffies cfg off buf copied).1.maxRandom = 1 ↔
      SetsOne (.config off buf copied : Act ι) := by
  by_cases htaken : off = 0 ∧ buf.length ≤ 99 ∧ copied = true
  · obtain ⟨hoff, hlen, hcopied⟩ := htaken
    rw [modtimerConfigWrite, if_neg (by omega), if_neg (by omega), if_neg (by simp [hcopied])]
    dsimp only
    have hiff : SetsOne (.config off buf copied : Act ι) ↔
        sscanf (cstring (buf ++ [0])) "max_random %zu" = [.size 1] :=
      ⟨fun hsets => hsets.2.2.2, fun hone => ⟨hoff, hlen, hcopied, hone⟩⟩
    rw [hiff]
    split
    · apply iff_of_false h
      intro hone
      simp_all [(other_formats_of_maxRandom hone).1]
    split
    · apply iff_of_false h
      intro hone
      simp_all [(other_formats_of_maxRandom hone).2]
    split
    · rw [‹sscanf _ "max_random %zu" = _›]
      simpa using toInt64_eq_one_iff
    · apply iff_of_false h
      intro hone
      simp_all
  · have hsame : (modtimerConfigWrite msecsToJiffies cfg off buf copied).1 = cfg := by
      rw [modtimerConfigWrite]
      split
      · rfl
      split
      · rfl
      split
      · rfl
      · refine absurd ⟨by omega, by omega, ?_⟩ htaken
        simp_all
    rw [hsame]
    exact iff_of_false h fun hsets => htaken ⟨hsets.1, hsets.2.1, hsets.2.2.1⟩

theorem maxRandom_of_step {s s' : State ι} {a : Act ι} {es : List (Option ι × Event)}
    (h : s.config.maxRandom ≠ 1) (hmoves : Moves msecsToJiffies s a s' es) :
    s'.config.maxRandom = 1 ↔ SetsOne a := by
  cases hmoves with
  | config hr =>
    subst hr
    exact maxRandom_eq_one_iff h _ _ _
  | expire | insert | isPending | notPending | sizeEq | sizeNe | schedule | modTimer | startWork
  | isEmpty | notEmpty | remove | endWork | refuse | accept | addTimer | release | delTimer
  | flush | clear | cleanup | mon => exact iff_of_false h id

variable [Fintype ι] {vector : Nat → Int32} {hz : Int64} {s : State ι}

/-- From the initial configuration, numbers are sound in every state of a run exactly when no
write of it sets `max_random` to one. -/
theorem numbers_sound_iff_never_one {as : List (Act ι)} {tr : List (Option ι × Event)}
    (hrun : (machine vector hz msecsToJiffies ι).Run as s tr) :
    (machine vector hz msecsToJiffies ι).Always (fun s _ => s.NumbersSound) as ↔
      ∀ a ∈ as, ¬SetsOne a := by
  have hiff : (machine vector hz msecsToJiffies ι).Always (fun s _ => s.NumbersSound) as ↔
      (machine vector hz msecsToJiffies ι).Along (fun _ a => ¬SetsOne a)
        (machine vector hz msecsToJiffies ι).init as := by
    refine hrun.always_iff_along_of_invariant (C := fun _ a => ¬SetsOne a)
      (I := fun s _ => s.config.maxRandom ≠ 1) ?_ ?_ (fun s t h => numbersSound_iff.mpr h) ?_
    · exact show (300 : Int64) ≠ 1 by decide
    · intro s t a s' es h hsets hstep
      exact mt (maxRandom_of_step h (moves_of_step hstep)).mp hsets
    · intro s t a s' es h hsets hstep hsound
      exact numbersSound_iff.mp hsound
        ((maxRandom_of_step h (moves_of_step hstep)).mpr (not_not.mp hsets))
  rw [hiff]
  exact ⟨Machine.forall_of_along hrun, fun h => Machine.along_of_forall h _⟩

theorem numbers_sound_iff_never_one_two :
    ∃ s tr, (machine (fun _ => 0) 250 (fun _ => 1) Unit).Run
        [.config 0 (bytes "max_random 2") true] s tr ∧
      (machine (fun _ => 0) 250 (fun _ => 1) Unit).Always (fun s _ => s.NumbersSound)
        [.config 0 (bytes "max_random 2") true] := by
  have heval : ((machine (fun _ => 0) 250 (fun _ => 1) Unit).exec
      (machine (fun _ => 0) 250 (fun _ => 1) Unit).init
        [.config 0 (bytes "max_random 2") true]).map (fun r => r.1.config.maxRandom) =
      some 2 := by
    decide +kernel
  obtain ⟨s, tr, hrun, -⟩ := Machine.exists_run_of_eval heval
  exact ⟨s, tr, hrun, (numbers_sound_iff_never_one hrun).mpr (by decide +kernel)⟩

/-- After this write every number is a division by zero. -/
theorem max_random_one_not_sound :
    ∃ s tr, (machine (fun _ => 0) 250 (fun _ => 1) Unit).Run
        [.config 0 (bytes "max_random 1") true] s tr ∧
      (∀ r, randNumber r s.config.maxRandom = none) ∧ ¬s.NumbersSound := by
  have heval : ((machine (fun _ => 0) 250 (fun _ => 1) Unit).exec
      (machine (fun _ => 0) 250 (fun _ => 1) Unit).init
        [.config 0 (bytes "max_random 1") true]).map (fun r => r.1.config.maxRandom) =
      some 1 := by
    decide +kernel
  obtain ⟨s, tr, hrun, hs⟩ := Machine.exists_run_of_eval heval
  have hone : s.config.maxRandom = 1 := hs
  refine ⟨s, tr, hrun, fun r => ?_, fun hsound => numbersSound_iff.mp hsound hone⟩
  rw [hone]
  rfl

end LinuxInternals.Modtimer
