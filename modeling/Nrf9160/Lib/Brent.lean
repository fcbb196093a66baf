import Mathlib.Algebra.Ring.Nat
import Mathlib.Data.Nat.Log
import Mathlib.Logic.Function.Iterate
import Mathlib.Order.Bounds.Defs

/-! Brent's search for a cycle in the iterates of a function. Round `j` compares the `j`-th
iterate with a saved one, and the iterate of every round that is a power of two becomes
the saved one of the rounds after it. -/

namespace Brent

/-- The index of the iterate that round `j` compares with. -/
def anchor (j : ℕ) : ℕ := if j ≤ 1 then 0 else 2 ^ Nat.log2 (j - 1)

variable {i j n : ℕ}

theorem anchor_one : anchor 1 = 0 := rfl

theorem anchor_eq (h : 2 ^ i < j) (h' : j ≤ 2 ^ (i + 1)) : anchor j = 2 ^ i := by
  have hpos : 0 < 2 ^ i := Nat.two_pow_pos i
  have hlog : Nat.log2 (j - 1) = i := by
    rw [Nat.log2_eq_iff (by omega)]
    omega
  rw [anchor, if_neg (by omega), hlog]

theorem exists_anchor (h : 1 < j) : ∃ i, anchor j = 2 ^ i ∧ 2 ^ i < j ∧ j ≤ 2 ^ (i + 1) := by
  have hlog := (Nat.log2_eq_iff (n := j - 1) (by omega)).mp rfl
  refine ⟨Nat.log2 (j - 1), ?_, by omega, by omega⟩
  rw [anchor, if_neg (by omega)]

/-- After the first round, the saved index is the largest power of two below the round. -/
theorem anchor_isGreatest (h : 1 < j) : IsGreatest {m | m < j ∧ ∃ i, m = 2 ^ i} (anchor j) := by
  obtain ⟨i, he, hlt, hle⟩ := exists_anchor h
  rw [he]
  refine ⟨⟨hlt, i, rfl⟩, ?_⟩
  rintro m ⟨hm, k, rfl⟩
  have hk : k < i + 1 := (Nat.pow_lt_pow_iff_right (by decide)).mp (lt_of_lt_of_le hm hle)
  exact Nat.pow_le_pow_right (by decide) (Nat.le_of_lt_succ hk)

/-- How the saved index moves on: the test of the round is the bit trick for powers of two. -/
theorem anchor_succ (h : 1 ≤ j) :
    anchor (j + 1) = if j &&& (j - 1) = 0 then j else anchor j := by
  have hj : j ≠ 0 := by omega
  by_cases hp : j.isPowerOfTwo
  · rw [if_pos ((Nat.and_sub_one_eq_zero_iff_isPowerOfTwo hj).mpr hp)]
    obtain ⟨i, rfl⟩ := hp
    apply anchor_eq (Nat.lt_succ_self _)
    have hpos : 0 < 2 ^ i := Nat.two_pow_pos i
    omega
  · rw [if_neg fun hz => hp ((Nat.and_sub_one_eq_zero_iff_isPowerOfTwo hj).mp hz)]
    have h1 : j ≠ 1 := fun he => hp ⟨0, he⟩
    obtain ⟨i, he, hlt, hle⟩ := exists_anchor (j := j) (by omega)
    have hne : j ≠ 2 ^ (i + 1) := fun he => hp ⟨i + 1, he⟩
    rw [he]
    exact anchor_eq (by omega) (by omega)

variable {α : Type*} {f : α → α} {meets : α → α → Bool} {x : α}

def meetsAt (f : α → α) (meets : α → α → Bool) (x : α) (j : ℕ) : Bool :=
  meets (f^[j] x) (f^[anchor j] x)

def firstMeet (f : α → α) (meets : α → α → Bool) (x : α) (s n : ℕ) : Option ℕ :=
  (List.range' s n).find? (meetsAt f meets x)

theorem firstMeet_succ (s n : ℕ) : firstMeet f meets x s (n + 1) =
    if meetsAt f meets x s then some s else firstMeet f meets x (s + 1) n := by
  rw [firstMeet, List.range'_succ, List.find?_cons]
  cases meetsAt f meets x s <;> rfl

theorem firstMeet_eq_some : firstMeet f meets x 1 n = some j ↔
    meetsAt f meets x j = true ∧ 1 ≤ j ∧ j ≤ n ∧
      ∀ i, 1 ≤ i → i < j → meetsAt f meets x i = false := by
  rw [firstMeet, List.find?_range'_eq_some, List.mem_range'_1]
  simp only [Bool.not_eq_true', Nat.lt_one_add_iff, and_assoc]

theorem exists_firstMeet (h : meetsAt f meets x j = true) (h1 : 1 ≤ j) (hn : j ≤ n) :
    ∃ i, firstMeet f meets x 1 n = some i ∧ i ≤ j := by
  cases hf : firstMeet f meets x 1 n with
  | none =>
    have hnone := List.find?_range'_eq_none.mp hf j h1 (by omega)
    rw [h] at hnone
    cases hnone
  | some i =>
    refine ⟨i, rfl, ?_⟩
    by_contra hij
    have hmin := (firstMeet_eq_some.mp hf).2.2.2 j h1 (by omega)
    rw [h] at hmin
    cases hmin

/-- A period that has set in at index `2 ^ k`, and is no longer than that, is met in round
`2 ^ k + period`. -/
theorem meetsAt_of_period {k period tail : ℕ}
    (hp : ∀ i, tail ≤ i → meets (f^[i + period] x) (f^[i] x) = true)
    (h0 : 1 ≤ period) (ht : tail ≤ 2 ^ k) (hk : period ≤ 2 ^ k) :
    meetsAt f meets x (2 ^ k + period) = true := by
  have ha : anchor (2 ^ k + period) = 2 ^ k := by
    apply anchor_eq
    · omega
    · omega
  rw [meetsAt, ha]
  exact hp (2 ^ k) ht

end Brent
