import LinuxInternals.Lib.Sprintf
import LinuxInternals.Modtimer.Basic

/-!
# Reading the configuration

`modtimer_config_read` prints the three values into 100 bytes. The labels, the newlines and
the terminator take 51 of them; a period of ten digits and two values of twenty are one digit
too many.
-/

namespace LinuxInternals.Modtimer

open Text

/-- What the three calls of `sprintf` write. The values are signed words printed as unsigned;
`jiffiesToMsecs` depends on the kernel's clock rate. -/
def configTexts (jiffiesToMsecs : UInt64 → UInt32) (cfg : Config) : List (List UInt8) :=
  [bytes "timer_period_ms=" ++ decimal (jiffiesToMsecs cfg.timerPeriod.toUInt64).toNat ++ [10],
    bytes "emergency_threshold=" ++ decimal cfg.emergencyThreshold.toUInt64.toNat ++ [10],
    bytes "max_random=" ++ decimal cfg.maxRandom.toUInt64.toNat ++ [10]]

/-- The return value, the bytes given to the user and the offset after it. -/
def modtimerConfigRead (jiffiesToMsecs : UInt64 → UInt32) (cfg : Config) (off len : Nat)
    (copied : Bool) : Ret × List UInt8 × Nat :=
  if 0 < off then (.done 0, [], off)
  else if len < 1 then (.error .enospc, [], off)
  else
    let configbuffer := (configTexts jiffiesToMsecs cfg).flatten
    if copied then (.done configbuffer.length, configbuffer, off + len)
    else (.error .einval, [], off)

/-- The offsets of `configbuffer` that are stored to. -/
def configStores (jiffiesToMsecs : UInt64 → UInt32) (cfg : Config) : List Nat :=
  stores 0 (configTexts jiffiesToMsecs cfg)

theorem length_configTexts (jiffiesToMsecs : UInt64 → UInt32) (cfg : Config) :
    (configTexts jiffiesToMsecs cfg).flatten.length = 50 +
      (decimal (jiffiesToMsecs cfg.timerPeriod.toUInt64).toNat).length +
      (decimal cfg.emergencyThreshold.toUInt64.toNat).length +
      (decimal cfg.maxRandom.toUInt64.toNat).length := by
  have hperiod : (bytes "timer_period_ms=").length = 16 := by decide
  have hthreshold : (bytes "emergency_threshold=").length = 20 := by decide
  have hmax : (bytes "max_random=").length = 11 := by decide
  simp only [configTexts, List.flatten_cons, List.flatten_nil, List.length_append,
    List.length_cons, List.length_nil, hperiod, hthreshold, hmax]
  omega

/-- All that is written fits the buffer unless all three values have their greatest width. -/
theorem configStores_inside_iff (jiffiesToMsecs : UInt64 → UInt32) (cfg : Config) :
    (∀ i ∈ configStores jiffiesToMsecs cfg, i < 100) ↔
      ¬(10 ^ 9 ≤ (jiffiesToMsecs cfg.timerPeriod.toUInt64).toNat ∧
        10 ^ 19 ≤ cfg.emergencyThreshold.toUInt64.toNat ∧
        10 ^ 19 ≤ cfg.maxRandom.toUInt64.toNat) := by
  obtain ⟨period, hperiod⟩ :
    ∃ period, (jiffiesToMsecs cfg.timerPeriod.toUInt64).toNat = period := ⟨_, rfl⟩
  obtain ⟨threshold, hthreshold⟩ :
    ∃ threshold, cfg.emergencyThreshold.toUInt64.toNat = threshold := ⟨_, rfl⟩
  obtain ⟨maxRandom, hmax⟩ : ∃ maxRandom, cfg.maxRandom.toUInt64.toNat = maxRandom := ⟨_, rfl⟩
  have hperiod32 := (jiffiesToMsecs cfg.timerPeriod.toUInt64).toNat_lt
  have hthreshold64 := cfg.emergencyThreshold.toUInt64.toNat_lt
  have hmax64 := cfg.maxRandom.toUInt64.toNat_lt
  rw [configStores, stores_lt_iff (show configTexts jiffiesToMsecs cfg ≠ [] from
    List.cons_ne_nil _ _), length_configTexts]
  rw [hperiod] at hperiod32 ⊢
  rw [hthreshold] at hthreshold64 ⊢
  rw [hmax] at hmax64 ⊢
  -- the widths that each value can have, and when it has the greatest
  have hwidth {n k : Nat} (hk : 0 < k) (hn : n < 10 ^ (k + 1)) :
      (decimal n).length ≤ k + 1 ∧ ((decimal n).length ≤ k ↔ n < 10 ^ k) :=
    ⟨(length_decimal_le_iff (by omega)).mpr hn, length_decimal_le_iff hk⟩
  obtain ⟨hle₁, hiff₁⟩ := hwidth (n := period) (k := 9) (by decide) (by omega)
  obtain ⟨hle₂, hiff₂⟩ := hwidth (n := threshold) (k := 19) (by decide) (by omega)
  obtain ⟨hle₃, hiff₃⟩ := hwidth (n := maxRandom) (k := 19) (by decide) (by omega)
  omega

/-- `msecs_to_jiffies` and `jiffies_to_msecs` at 250 ticks a second. -/
def msecsToJiffies250 (m : UInt32) : UInt64 :=
  if 2147483648 ≤ m then 4611686018427387902 else (m.toUInt64 + 3) / 4

def jiffiesToMsecs250 (j : UInt64) : UInt32 := (4 * j).toUInt32

def widestWrites : List (Act Unit) :=
  [.config 0 (bytes "timer_period_ms 2000000000") true,
    .config 0 (bytes "emergency_threshold 18446744073709551615") true,
    .config 0 (bytes "max_random 18446744073709551615") true]

/-- After these writes the terminator is stored behind the buffer. -/
theorem widestWrites_not_inside :
    ∃ s tr, (machine (fun _ => 0) 250 msecsToJiffies250 Unit).Run widestWrites s tr ∧
      100 ∈ configStores jiffiesToMsecs250 s.config := by
  have heval : ((machine (fun _ => 0) 250 msecsToJiffies250 Unit).exec
      (machine (fun _ => 0) 250 msecsToJiffies250 Unit).init widestWrites).map
        (fun r => r.1.config) = some ⟨500000000, -1, -1⟩ := by
    decide +kernel
  obtain ⟨s, tr, hrun, hs⟩ := Machine.exists_run_of_eval heval
  refine ⟨s, tr, hrun, ?_⟩
  rw [show s.config = _ from hs]
  decide +kernel

end LinuxInternals.Modtimer
