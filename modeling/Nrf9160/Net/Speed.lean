import Mathlib.Tactic.SplitIfs
import Mathlib.Algebra.Ring.Nat

/-! The download speed that `httpc_dump_cb` prints. The clock counts microseconds in 64 bits,
`time_started` is in seconds, and the callback works in 32 bits. -/

namespace Nrf9160.Net

/-- The values that the variables of the callback take, `delta` and `kbit` two of them each. -/
structure Speed where
  now : UInt32
  delta : UInt32
  bit : UInt32
  kbit : UInt32
  speed : UInt32
  deriving DecidableEq

/-- The value of `time_started`. -/
def httpcMain (uptime : UInt64) : UInt64 := uptime / 1000000

/-- `none` is a division by zero. -/
def httpcDumpCb (timeStarted uptime : UInt64) (position : UInt32) : Option Speed :=
  let now := (uptime / 1000000).toUInt32
  let delta := (now.toUInt64 - timeStarted).toUInt32
  let bit := position * 8
  let kbit := bit / 1000
  if delta = 0 then none else some ⟨now, delta, bit, kbit, kbit / delta⟩

/-- The seconds between the recorded start and an uptime. -/
def elapsed (start uptime : UInt64) : ℕ := uptime.toNat / 1000000 - start.toNat / 1000000

/-- Every step has the value that it has in exact integers. -/
structure Speed.Exact (start uptime : UInt64) (position : UInt32) (v : Speed) : Prop where
  now_eq : v.now.toNat = uptime.toNat / 1000000
  delta_eq : v.delta.toNat = elapsed start uptime
  bit_eq : v.bit.toNat = 8 * position.toNat
  kbit_eq : v.kbit.toNat = 8 * position.toNat / 1000
  speed_eq : v.speed.toNat = 8 * position.toNat / 1000 / elapsed start uptime

structure Measured (start uptime : UInt64) (position : UInt32) : Prop where
  defined : httpcDumpCb (httpcMain start) uptime position ≠ none
  exact : 1 ≤ elapsed start uptime → elapsed start uptime < 2 ^ 32 →
    ∃ v, httpcDumpCb (httpcMain start) uptime position = some v ∧ v.Exact start uptime position

variable {start uptime : UInt64} {position : UInt32} {v : Speed}

theorem now_toNat : (uptime / 1000000).toUInt32.toNat = uptime.toNat / 1000000 % 2 ^ 32 := by
  rw [UInt64.toNat_toUInt32, UInt64.toNat_div]
  rfl

/-- The two truncations cancel: the divisor is the elapsed time, up to a multiple of `2 ^ 32`. -/
theorem delta_toNat (h : start ≤ uptime) :
    ((uptime / 1000000).toUInt32.toUInt64 - httpcMain start).toUInt32.toNat =
      elapsed start uptime % 2 ^ 32 := by
  have hle : start.toNat ≤ uptime.toNat := UInt64.le_iff_toNat_le.mp h
  have hstart := start.toNat_lt
  have hs : (httpcMain start).toNat = start.toNat / 1000000 := UInt64.toNat_div ..
  rw [UInt64.toNat_toUInt32, UInt64.toNat_sub, UInt32.toNat_toUInt64, now_toNat, hs, elapsed]
  omega

theorem bit_toNat_eq_iff : (position * 8).toNat = 8 * position.toNat ↔ position.toNat < 2 ^ 29 := by
  have hmul : (position * 8).toNat = position.toNat * 8 % 2 ^ 32 := UInt32.toNat_mul ..
  omega

theorem httpcDumpCb_eq_none_iff (h : start ≤ uptime) :
    httpcDumpCb (httpcMain start) uptime position = none ↔ elapsed start uptime % 2 ^ 32 = 0 := by
  rw [← delta_toNat h]
  have hzero : ∀ x : UInt32, x.toNat = 0 ↔ x = 0 := fun x => UInt32.toNat_inj (b := 0)
  rw [hzero]
  simp [httpcDumpCb]

theorem httpcDumpCb_exact_iff (h : start ≤ uptime)
    (hv : httpcDumpCb (httpcMain start) uptime position = some v)
    (hlt : elapsed start uptime < 2 ^ 32) :
    v.Exact start uptime position ↔
      position.toNat < 2 ^ 29 ∧ uptime.toNat / 1000000 < 2 ^ 32 := by
  have hdelta := delta_toNat h
  simp only [httpcDumpCb] at hv
  split_ifs at hv
  cases hv
  rw [Nat.mod_eq_of_lt hlt] at hdelta
  constructor
  · intro hx
    have hnow := hx.now_eq
    rw [now_toNat] at hnow
    exact ⟨bit_toNat_eq_iff.mp hx.bit_eq, by omega⟩
  · rintro ⟨hpos, hnow⟩
    have hbit := bit_toNat_eq_iff.mpr hpos
    have hkbit : (position * 8 / 1000).toNat = 8 * position.toNat / 1000 := by
      rw [UInt32.toNat_div, hbit]
      rfl
    refine ⟨?_, hdelta, hbit, hkbit, ?_⟩
    · rw [now_toNat, Nat.mod_eq_of_lt hnow]
    · rw [UInt32.toNat_div, hkbit, hdelta]

/-- The speed is defined when the divisor is not a multiple of `2 ^ 32`, and exact when the
bits and the seconds of the clock fit into 32 bits. -/
theorem measured_iff (h : start ≤ uptime) : Measured start uptime position ↔
    elapsed start uptime % 2 ^ 32 ≠ 0 ∧ (elapsed start uptime < 2 ^ 32 →
      position.toNat < 2 ^ 29 ∧ uptime.toNat / 1000000 < 2 ^ 32) := by
  have hdef : httpcDumpCb (httpcMain start) uptime position ≠ none ↔
      elapsed start uptime % 2 ^ 32 ≠ 0 := not_congr (httpcDumpCb_eq_none_iff h)
  constructor
  · rintro ⟨hd, hx⟩
    have hne := hdef.mp hd
    refine ⟨hne, fun hlt => ?_⟩
    obtain ⟨v, hv, hexact⟩ := hx (by omega) hlt
    exact (httpcDumpCb_exact_iff h hv hlt).mp hexact
  · rintro ⟨hne, hfit⟩
    refine ⟨hdef.mpr hne, fun _ hlt => ?_⟩
    obtain ⟨v, hv⟩ := Option.ne_none_iff_exists'.mp (hdef.mpr hne)
    exact ⟨v, hv, (httpcDumpCb_exact_iff h hv hlt).mpr (hfit hlt)⟩

theorem measured_iff_sample : Measured 2500000 12400000 1250000 := by
  have hle : (2500000 : UInt64) ≤ 12400000 := by decide
  exact (measured_iff hle).mpr ⟨by decide, fun _ => ⟨by decide, by decide⟩⟩

/-- The first data arrives in the second in which the download has started. -/
theorem first_second_divides_by_zero :
    ¬∀ start uptime position, start ≤ uptime → Measured start uptime position := by
  intro hall
  have hle : (2500000 : UInt64) ≤ 2900000 := by decide
  have hnone : httpcDumpCb (httpcMain 2500000) 2900000 1460 = none := by decide
  exact (hall _ _ 1460 hle).defined hnone

end Nrf9160.Net
