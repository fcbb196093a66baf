import Mathlib.Tactic.NormNum.Prime
import Nrf9160.Factor.Search

/-! What a result of `decompose_64bit` is worth: it returns 0 whether or not an attempt has
split `pq`, and its guard alone does not keep the limit of an attempt inside an `int`. -/

namespace Nrf9160.Factor

variable {T : Target} {pq : UInt64} {rs : ℕ → UInt64} {s t : Search} {k m n : ℕ} {g : UInt64}

theorem meeting_pos {j : ℕ} (h : meeting T pq rs k = some j) : 0 < j :=
  (Brent.firstMeet_eq_some.mp h).2.1

theorem meeting_le_budget {j : ℕ} (h : meeting T pq rs k = some j) : j ≤ budget T k :=
  (Brent.firstMeet_eq_some.mp h).2.2.1

theorem cost_le_budget (T : Target) (pq : UInt64) (rs : ℕ → UInt64) (k : ℕ) :
    cost T pq rs k ≤ budget T k := by
  unfold cost
  cases h : meeting T pq rs k with
  | none => exact le_rfl
  | some j => exact meeting_le_budget h

theorem cost_pos (h : k ≤ 12) : 0 < cost T pq rs k := by
  unfold cost
  cases hm : meeting T pq rs k with
  | none => exact budget_pos h
  | some j => exact meeting_pos hm

theorem opens_of_spent_lt (h : m ≤ n) (hs : spent T pq rs n < 1000) : Opens T pq rs m :=
  .inr (lt_of_le_of_lt (spent_mono h) hs)

theorem exists_stop (h3 : 3 ≤ n) (hs : 1000 ≤ spent T pq rs n)
    (hn : ∀ k < n, ¬Splits T pq rs k) : ∃ m ≤ n, Reached T pq rs m ∧ ¬Opens T pq rs m := by
  have hex : ∃ m, ¬Opens T pq rs m := ⟨n, by unfold Opens; omega⟩
  classical
  have hle : Nat.find hex ≤ n := Nat.find_le (by unfold Opens; omega)
  refine ⟨Nat.find hex, hle, fun k hk => ?_, Nat.find_spec hex⟩
  exact ⟨not_not.mp (Nat.find_min hex hk), hn k (lt_of_lt_of_le hk hle)⟩

theorem spent_const {j : ℕ} (h : ∀ k < n, cost T pq rs k = j) : spent T pq rs n = n * j := by
  unfold spent
  rw [Finset.sum_congr rfl fun k hk => h k (Finset.mem_range.mp hk), Finset.sum_const,
    Finset.card_range, Nat.nsmul_eq_mul]

theorem meeting_const {r : UInt64} {j : ℕ} (hj : j < 2 ^ 18) (hk : k ≤ 12)
    (h : Brent.firstMeet (square pq (seedQ pq (fun _ => r) 0)) (meets pq)
      (seedX pq (fun _ => r) 0) 1 j = some j) : meeting T pq (fun _ => r) k = some j := by
  obtain ⟨hm, h1, -, hmin⟩ := Brent.firstMeet_eq_some.mp h
  have hle : 2 ^ 18 ≤ 2 ^ (k + 18) := Nat.pow_le_pow_right (by decide) (by omega)
  have hbudget := budget_eq (T := T) hk
  exact Brent.firstMeet_eq_some.mpr ⟨hm, h1, by omega, hmin⟩

theorem not_splits_of_prime (hpq : 2 ≤ pq) (hp : pq.toNat.Prime) : ¬Splits T pq rs k := by
  rintro ⟨j, hm, hne⟩
  obtain ⟨h1, hlt⟩ := (found_meeting hpq hm).mpr hne
  rcases (Nat.dvd_prime hp).mp (found_dvd _ _) with he | he
  · exact Nat.ne_of_gt (UInt64.lt_iff_toNat_lt.mp h1) he
  · exact Nat.ne_of_lt (UInt64.lt_iff_toNat_lt.mp hlt) he

theorem splits_fifteen : Splits sampleTarget 15 (fun _ => 1) 0 := by
  have hm : meeting sampleTarget 15 (fun _ => 1) 0 = some 1 :=
    meeting_const (by decide) (by decide) (by decide +kernel)
  exact ⟨1, hm, by decide +kernel⟩

/-- As long as the limits are defined, the counter of the rounds does not overflow. -/
theorem iter_lt (hpq : 2 ≤ pq) (hs : after T pq rs n = .ok s) (hi : s.i ≤ 12) :
    s.iter < 2 ^ 31 := by
  have hsum : spent T pq rs 13 < 2 ^ 31 := by
    have hle : spent T pq rs 13 ≤ ∑ k ∈ Finset.range 13, 2 ^ (k + 18) := by
      apply Finset.sum_le_sum
      intro k hk
      refine (cost_le_budget T pq rs k).trans ?_
      rw [budget_eq (Nat.le_of_lt_succ (Finset.mem_range.mp hk))]
      exact Nat.sub_le _ _
    exact lt_of_le_of_lt hle (by decide)
  obtain ⟨t, ht, hcases⟩ := after_spec T rs hpq n
  obtain rfl : s = t := Except.ok.inj (hs.symm.trans ht)
  rcases hcases with ⟨m, -, hseek, -⟩ | ⟨m, -, hdiv⟩
  · rw [hseek.i_eq] at hi
    rw [hseek.iter_eq]
    exact lt_of_le_of_lt (spent_mono (by omega)) hsum
  · rw [hdiv.i_eq] at hi
    rw [hdiv.iter_eq]
    exact lt_of_le_of_lt (spent_mono (by omega)) hsum

/-! The result of a search without a split. -/

/-- A result without an error is a factorisation into proper factors. -/
def SplitReported (T : Target) (pq : UInt64) (rs : ℕ → UInt64) : Prop :=
  ∀ n f, decompose64bit T pq rs n = .ok f → f.error = 0 → 1 < f.p ∧ f.q0 < pq

theorem ordered_trivial (hpq : 2 ≤ pq) (hg : g = 1 ∨ g = pq) : ordered pq g = ⟨0, 1, pq⟩ := by
  have h0 : 0 < pq := UInt64.lt_of_lt_of_le (by decide) hpq
  have h1 : 1 < pq := UInt64.lt_of_lt_of_le (by decide) hpq
  have hone : pq / 1 = pq := by
    rw [← UInt64.toNat_inj, UInt64.toNat_div]
    exact Nat.div_one _
  have hself : pq / pq = 1 := by
    rw [← UInt64.toNat_inj, UInt64.toNat_div]
    exact Nat.div_self (UInt64.lt_iff_toNat_lt.mp h0)
  rcases hg with rfl | rfl
  · rw [ordered, hone, if_neg (UInt64.lt_asymm h1)]
  · rw [ordered, hself, if_pos h1]

theorem ordered_proper (h1 : 1 < g) (hlt : g < pq) (hd : g.toNat ∣ pq.toNat) :
    1 < (ordered pq g).p ∧ (ordered pq g).q0 < pq := by
  have h1' : 1 < g.toNat := UInt64.lt_iff_toNat_lt.mp h1
  have hlt' : g.toNat < pq.toNat := UInt64.lt_iff_toNat_lt.mp hlt
  have hmul : pq.toNat / g.toNat * g.toNat = pq.toNat := Nat.div_mul_cancel hd
  have hquot : 1 < (pq / g).toNat := by
    rw [UInt64.toNat_div]
    by_contra hle
    have hcase := Nat.le_one_iff_eq_zero_or_eq_one.mp (Nat.not_lt.mp hle)
    rcases hcase with he | he
    · rw [he] at hmul
      omega
    · rw [he] at hmul
      omega
  have hless : (pq / g).toNat < pq.toNat := by
    rw [UInt64.toNat_div]
    exact Nat.div_lt_self (by omega) h1'
  unfold ordered
  split_ifs
  · exact ⟨UInt64.lt_iff_toNat_lt.mpr hquot, hlt⟩
  · exact ⟨h1, UInt64.lt_iff_toNat_lt.mpr hless⟩

theorem not_splitReported (hpq : 2 ≤ pq) (h3 : 3 ≤ n) (hs : 1000 ≤ spent T pq rs n)
    (hn : ∀ k < n, ¬Splits T pq rs k) : ¬SplitReported T pq rs := by
  intro hall
  obtain ⟨m, -, hreach, hstop⟩ := exists_stop h3 hs hn
  obtain ⟨s, hafter, hseek⟩ := after_of_reached hpq hreach
  have hmore : s.more = false := Bool.eq_false_iff.mpr (mt hseek.more_iff.mp hstop)
  have hpos : 0 < m := by
    apply Nat.pos_of_ne_zero
    rintro rfl
    exact hstop opens_zero
  have hrun : decompose64bit T pq rs m = .ok ⟨0, 1, pq⟩ := by
    rw [decompose64bit_eq hpq hafter, hmore, ordered_trivial hpq (hseek.g_eq hpos)]
    rfl
  exact UInt64.lt_irrefl _ (hall m _ hrun rfl).1

/-- Success means a real split just when every search that spends its rounds has split. -/
theorem splitReported_iff (hpq : 2 ≤ pq) : SplitReported T pq rs ↔
    ∀ n, 3 ≤ n → 1000 ≤ spent T pq rs n → ∃ k < n, Splits T pq rs k := by
  constructor
  · intro hall n h3 hs
    by_contra hno
    have hn : ∀ k < n, ¬Splits T pq rs k := fun k hk hsplit => hno ⟨k, hk, hsplit⟩
    exact not_splitReported hpq h3 hs hn hall
  · intro h n f hf _
    obtain ⟨s, hs, hm, rfl⟩ := decompose64bit_ok hpq hf
    rcases left_cases hpq hs hm with ⟨m, -, hseek, hstop⟩ | ⟨m, -, hdiv⟩
    · have hspent : 3 ≤ m ∧ 1000 ≤ spent T pq rs m := by
        unfold Opens at hstop
        omega
      obtain ⟨k, hk, hsplit⟩ := h m hspent.1 hspent.2
      exact absurd hsplit (hseek.reached k hk).2
    · exact ordered_proper hdiv.one_lt hdiv.g_lt hdiv.g_dvd

theorem splitReported_iff_fifteen : SplitReported sampleTarget 15 (fun _ => 1) := by
  rw [splitReported_iff (by decide)]
  intro n h3 _
  exact ⟨0, by omega, splits_fifteen⟩

theorem meets_prime : Brent.firstMeet (square 227 26) (meets 227) 10 1 99 = some 99 := by
  have hgcd := @found_iterate 227 26 10 (by decide) (by decide) (by decide)
  have hnone : ∀ i < 99, 1 ≤ i →
      Int.gcd ((iterates 227 26 10 i : ℤ) - iterates 227 26 10 (Brent.anchor i)) 227 = 1 := by
    decide +kernel
  have hlast : Int.gcd ((iterates 227 26 10 99 : ℤ) - iterates 227 26 10 (Brent.anchor 99)) 227 ≠
      1 := by
    decide +kernel
  refine Brent.firstMeet_eq_some.mpr ⟨?_, by decide, le_rfl, fun i h1 hi => ?_⟩
  · apply decide_eq_true
    exact fun hone => hlast ((hgcd _ _).symm.trans (UInt64.toNat_inj.mpr hone))
  · apply decide_eq_false
    exact not_not.mpr (UInt64.toNat_inj.mp ((hgcd _ _).trans (hnone i hi h1)))

/-- A prime cannot be split, and the search for it ends with success all the same. -/
theorem prime_reported : ¬SplitReported sampleTarget 227 (fun _ => 9) := by
  have hm : ∀ k < 11, meeting sampleTarget 227 (fun _ => 9) k = some 99 := by
    intro k hk
    exact meeting_const (by decide) (by omega) meets_prime
  have hspent := spent_const fun k hk => cost_of_meeting (hm k hk)
  apply not_splitReported (n := 11) (by decide) (by decide)
  · rw [hspent]
    decide
  · intro k _
    have hp : Nat.Prime 227 := by norm_num
    exact not_splits_of_prime (by decide) hp

/-! The limit of an attempt. -/

/-- The outer loop returns, and until then each limit is a positive `int` and each attempt
runs. -/
def LimitKept (T : Target) (pq : UInt64) (rs : ℕ → UInt64) : Prop :=
  (∃ n f, decompose64bit T pq rs n = .ok f) ∧
    ∀ n s, after T pq rs n = .ok s → s.more = true → s.i ≤ 12 ∧
      (T.shl (s.i + 18)).toInt = 2 ^ (s.i + 18) ∧
      ∀ t, after T pq rs (n + 1) = .ok t → s.iter < t.iter

theorem not_limitKept (hpq : 2 ≤ pq) (hs : spent T pq rs 13 < 1000)
    (hn : ∀ k < 13, ¬Splits T pq rs k) : ¬LimitKept T pq rs := by
  rintro ⟨-, hall⟩
  have hreach : Reached T pq rs 13 := fun k hk => ⟨opens_of_spent_lt (le_of_lt hk) hs, hn k hk⟩
  obtain ⟨s, hafter, hseek⟩ := after_of_reached hpq hreach
  have hle := (hall 13 s hafter (hseek.more_iff.mpr (opens_of_spent_lt le_rfl hs))).1
  rw [hseek.i_eq] at hle
  omega

theorem opens_le (h : (∃ k < 13, Splits T pq rs k) ∨ 1000 ≤ spent T pq rs 13)
    (hr : Reached T pq rs m) (ho : Opens T pq rs m) : m ≤ 12 := by
  by_contra hm
  rcases h with ⟨k, hk, hsplit⟩ | hs
  · exact (hr k (by omega)).2 hsplit
  · have hmono : spent T pq rs 13 ≤ spent T pq rs m := spent_mono (by omega)
    unfold Opens at ho
    omega

theorem limitKept_iff (hpq : 2 ≤ pq) : LimitKept T pq rs ↔
    (∃ k < 13, Splits T pq rs k) ∨ 1000 ≤ spent T pq rs 13 := by
  constructor
  · intro hkept
    by_contra hno
    have hs : spent T pq rs 13 < 1000 := Nat.lt_of_not_le fun hs => hno (.inr hs)
    have hn : ∀ k < 13, ¬Splits T pq rs k := fun k hk hsplit => hno (.inl ⟨k, hk, hsplit⟩)
    exact not_limitKept hpq hs hn hkept
  · intro h
    constructor
    · obtain ⟨s, hafter, hcases⟩ := after_spec T rs hpq 13
      have hmore : s.more = false := by
        rcases hcases with ⟨m, hm, hseek, hstop⟩ | ⟨m, -, hdiv⟩
        · have hno : ¬Opens T pq rs m := by
            intro ho
            exact hstop (by have := opens_le h hseek.reached ho; omega) ho
          exact Bool.eq_false_iff.mpr (mt hseek.more_iff.mp hno)
        · exact hdiv.more_eq
      refine ⟨13, ordered pq s.g, ?_⟩
      rw [decompose64bit_eq hpq hafter, hmore]
      rfl
    · intro n s hafter hmore
      obtain ⟨t, ht, hcases⟩ := after_spec T rs hpq n
      obtain rfl : s = t := Except.ok.inj (hafter.symm.trans ht)
      rcases hcases with ⟨m, -, hseek, -⟩ | ⟨m, -, hdiv⟩
      · have ho := hseek.more_iff.mp hmore
        have hm := opens_le h hseek.reached ho
        rw [hseek.i_eq]
        refine ⟨hm, T.shl_eq _ (by omega), fun t ht => ?_⟩
        obtain ⟨u, hu, -, hiter⟩ := hseek.pass hpq ho
        have hnext : after T pq rs (n + 1) = .ok u := by
          rw [after, hafter]
          exact (if_pos hmore).trans hu
        obtain rfl : t = u := Except.ok.inj (ht.symm.trans hnext)
        have hpos : 0 < cost T pq rs m := cost_pos hm
        omega
      · rw [hdiv.more_eq] at hmore
        cases hmore

theorem limitKept_iff_fifteen : LimitKept sampleTarget 15 (fun _ => 1) := by
  rw [limitKept_iff (by decide)]
  exact .inl ⟨0, by decide, splits_fifteen⟩

/-- Modulo 2 each attempt meets in its first round, in 2 itself. -/
theorem limit_overflows : ¬LimitKept sampleTarget 2 (fun _ => 1) := by
  have hm : ∀ k < 13, meeting sampleTarget 2 (fun _ => 1) k = some 1 := by
    intro k hk
    exact meeting_const (by decide) (by omega) (by decide +kernel)
  have hspent := spent_const fun k hk => cost_of_meeting (hm k hk)
  apply not_limitKept (by decide)
  · rw [hspent]
    decide
  · intro k _
    exact not_splits_of_prime (by decide) Nat.prime_two

end Nrf9160.Factor
