import Mathlib.Data.Int.Notation
import Mathlib.Data.Nat.Basic
import Mathlib.Tactic.SplitIfs

/-! What the firmware takes from headers and from a kernel that the repository does not
contain: error numbers, and the counting semaphores of the kernel. -/

namespace Nrf9160

/-- The error numbers, and what `mdx_sem_timedwait` returns when it took a unit. It
returns 0 when the time ran out first. -/
structure Kernel where
  NRF_EAGAIN : ℤ
  NRF_ESHUTDOWN : ℤ
  taken : ℤ
  eagain_pos : 0 < NRF_EAGAIN
  eshutdown_pos : 0 < NRF_ESHUTDOWN
  eshutdown_ne_eagain : NRF_ESHUTDOWN ≠ NRF_EAGAIN
  taken_ne_zero : taken ≠ 0

def mdxSemPost (count : ℕ) : ℕ := count + 1

/-- The end of a wait in `mdx_sem_timedwait`, as the value returned and the units left: a
unit that is there is taken, and without one the wait ends because its time ran out. -/
def mdxSemWaitEnd (K : Kernel) (count : ℕ) : ℤ × ℕ :=
  if 0 < count then (K.taken, count - 1) else (0, count)

theorem mdxSemWaitEnd_fst_eq_zero {K : Kernel} {count : ℕ} :
    (mdxSemWaitEnd K count).1 = 0 ↔ count = 0 := by
  unfold mdxSemWaitEnd
  split_ifs with h
  · exact ⟨fun he => absurd he K.taken_ne_zero, fun he => absurd he (Nat.ne_of_gt h)⟩
  · exact ⟨fun _ => Nat.eq_zero_of_not_pos h, fun _ => rfl⟩

def sampleKernel : Kernel where
  NRF_EAGAIN := 11
  NRF_ESHUTDOWN := 110
  taken := 1
  eagain_pos := by decide
  eshutdown_pos := by decide
  eshutdown_ne_eagain := by decide
  taken_ne_zero := by decide

end Nrf9160
