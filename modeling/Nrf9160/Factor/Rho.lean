import Mathlib.Data.Int.GCD
import Mathlib.Data.Nat.ModEq
import Nrf9160.Factor.Squaring
import Nrf9160.Lib.Brent

/-! The inner loop of `decompose_64bit`: one attempt at a factor by Brent's search on the
iterates of the squaring step. -/

namespace Nrf9160.Factor

def zOf (pq x y : UInt64) : UInt64 := if x < y then pq + x - y else x - y

structure Inner where
  x : UInt64
  y : UInt64
  g : UInt64
  iter : ℕ
  j : ℕ

/-- The loop over the `n` values of `j` that are left below `lim`. -/
def innerLoop (pq q : UInt64) : ℕ → Inner → Inner
  | 0, s => s
  | n + 1, s =>
    let x := square pq q s.x
    let g := gcd (zOf pq x s.y) pq
    if g ≠ 1 then { s with x, g, iter := s.iter + 1 }
    else
      let y := if s.j &&& (s.j - 1) = 0 then x else s.y
      innerLoop pq q n ⟨x, y, g, s.iter + 1, s.j + 1⟩

/-- The attempt from `x = y = x0` on, with `j` going from 1 to below `lim`. -/
def attempt (pq q x0 : UInt64) (lim : Int32) (g : UInt64) (iter : ℕ) : Inner :=
  innerLoop pq q (lim.toInt - 1).toNat ⟨x0, x0, g, iter, 1⟩

def found (pq x y : UInt64) : UInt64 := gcd (zOf pq x y) pq

def meets (pq x y : UInt64) : Bool := found pq x y ≠ 1

def atMeet (pq q x0 : UInt64) (iter i : ℕ) : Inner :=
  let x := (square pq q)^[i] x0
  let y := (square pq q)^[Brent.anchor i] x0
  ⟨x, y, found pq x y, iter + i, i⟩

variable {pq q x0 g : UInt64} {n iter j : ℕ} {lim : Int32}

theorem innerLoop_eq (n j : ℕ) (hj : 1 ≤ j) (h0 : 0 < n ∨ g = 1) :
    innerLoop pq q n ⟨(square pq q)^[j - 1] x0, (square pq q)^[Brent.anchor j] x0, g,
        iter + (j - 1), j⟩ =
      match Brent.firstMeet (square pq q) (meets pq) x0 j n with
      | some i => atMeet pq q x0 iter i
      | none => ⟨(square pq q)^[j - 1 + n] x0, (square pq q)^[Brent.anchor (j + n)] x0, 1,
          iter + (j - 1 + n), j + n⟩ := by
  induction n generalizing j g with
  | zero =>
    obtain rfl : g = 1 := h0.resolve_left (Nat.lt_irrefl 0)
    rfl
  | succ n ih =>
    have hx : square pq q ((square pq q)^[j - 1] x0) = (square pq q)^[j] x0 := by
      rw [← Function.iterate_succ_apply' (square pq q), Nat.succ_eq_add_one, Nat.sub_add_cancel hj]
    have hi : iter + (j - 1) + 1 = iter + j := by omega
    rw [innerLoop, hx, hi, Brent.firstMeet_succ]
    by_cases hm : Brent.meetsAt (square pq q) (meets pq) x0 j = true
    · have hg : found pq ((square pq q)^[j] x0) ((square pq q)^[Brent.anchor j] x0) ≠ 1 :=
        of_decide_eq_true hm
      rw [if_pos hm]
      exact if_pos hg
    · have hg : ¬found pq ((square pq q)^[j] x0) ((square pq q)^[Brent.anchor j] x0) ≠ 1 :=
        fun hne => hm (decide_eq_true hne)
      have hone := not_not.mp hg
      have hy : (if j &&& (j - 1) = 0 then (square pq q)^[j] x0
          else (square pq q)^[Brent.anchor j] x0) = (square pq q)^[Brent.anchor (j + 1)] x0 := by
        rw [Brent.anchor_succ hj]
        split_ifs <;> rfl
      rw [if_neg hm]
      refine (if_neg hg).trans ?_
      have hnext := ih (g := 1) (j + 1) (Nat.le_add_left 1 j) (.inr rfl)
      rw [Nat.add_sub_cancel] at hnext
      have hj1 : j - 1 + (n + 1) = j + n := by omega
      have hj2 : j + (n + 1) = j + 1 + n := by omega
      rw [hj1, hj2, ← hnext]
      show innerLoop pq q n ⟨_, _, found pq _ _, _, _⟩ = _
      rw [hone, hy]

def roundsBelow (lim : Int32) : ℕ := (lim.toInt - 1).toNat

theorem attempt_eq (h : 0 < roundsBelow lim) : attempt pq q x0 lim g iter =
    match Brent.firstMeet (square pq q) (meets pq) x0 1 (roundsBelow lim) with
    | some i => atMeet pq q x0 iter i
    | none => ⟨(square pq q)^[roundsBelow lim] x0,
        (square pq q)^[Brent.anchor (1 + roundsBelow lim)] x0, 1, iter + roundsBelow lim,
        1 + roundsBelow lim⟩ := by
  have hloop := @innerLoop_eq pq q x0 g iter (roundsBelow lim) 1 le_rfl (.inl h)
  simp only [Nat.sub_self, Function.iterate_zero, id_eq, Brent.anchor_one, Nat.add_zero,
    Nat.zero_add] at hloop
  exact hloop

/-! The iterates as numbers, for a modulus on which the squaring step is exact. -/

/-- The iterates of `x ↦ (x * x + q) mod pq`. -/
def iterates (pq q x0 : ℕ) (j : ℕ) : ℕ := (fun x => (x * x + q) % pq)^[j] x0

theorem iterate_lt (hpq : pq.toNat ≤ 2 ^ 63) (hx : x0 < pq) (hq : q < pq) (j : ℕ) :
    (square pq q)^[j] x0 < pq ∧
      ((square pq q)^[j] x0).toNat = iterates pq.toNat q.toNat x0.toNat j := by
  induction j with
  | zero => exact ⟨hx, rfl⟩
  | succ j ih =>
    obtain ⟨hlt, he⟩ := ih
    have hs := square_toNat hpq hlt hq
    rw [Function.iterate_succ_apply', iterates, Function.iterate_succ_apply', ← iterates, ← he]
    refine ⟨?_, hs⟩
    rw [UInt64.lt_iff_toNat_lt, hs]
    exact Nat.mod_lt _ (Nat.zero_lt_of_lt (UInt64.lt_iff_toNat_lt.mp hx))

/-- Both branches of `z` are the difference modulo `pq`. -/
theorem found_toNat {x y : UInt64} (hpq : pq.toNat ≤ 2 ^ 63) (hx : x < pq) (hy : y < pq) :
    (found pq x y).toNat = Int.gcd ((x.toNat : ℤ) - y.toNat) pq.toNat := by
  have hx' := UInt64.lt_iff_toNat_lt.mp hx
  have hy' := UInt64.lt_iff_toNat_lt.mp hy
  rw [found, gcd_toNat]
  by_cases hlt : x < y
  · have hlt' := UInt64.lt_iff_toNat_lt.mp hlt
    have hsum : (pq + x).toNat = pq.toNat + x.toNat := by
      rw [UInt64.toNat_add]
      exact Nat.mod_eq_of_lt (by omega)
    have hle : y ≤ pq + x := by
      rw [UInt64.le_iff_toNat_le, hsum]
      omega
    have hz : ((zOf pq x y).toNat : ℤ) = (x.toNat : ℤ) - y.toNat + pq.toNat := by
      rw [zOf, if_pos hlt, UInt64.toNat_sub_of_le _ _ hle, hsum]
      omega
    rw [← Int.gcd_natCast_natCast, hz]
    exact Int.gcd_add_self_left ..
  · have hle : y ≤ x := UInt64.not_lt.mp hlt
    have hz : ((zOf pq x y).toNat : ℤ) = (x.toNat : ℤ) - y.toNat := by
      rw [zOf, if_neg hlt, UInt64.toNat_sub_of_le _ _ hle]
      have := UInt64.le_iff_toNat_le.mp hle
      omega
    rw [← Int.gcd_natCast_natCast, hz]

theorem found_iterate (hpq : pq.toNat ≤ 2 ^ 63) (hx : x0 < pq) (hq : q < pq) (i j : ℕ) :
    (found pq ((square pq q)^[i] x0) ((square pq q)^[j] x0)).toNat =
      Int.gcd ((iterates pq.toNat q.toNat x0.toNat i : ℤ) -
        iterates pq.toNat q.toNat x0.toNat j) pq.toNat := by
  obtain ⟨hi, hie⟩ := iterate_lt hpq hx hq i
  obtain ⟨hj, hje⟩ := iterate_lt hpq hx hq j
  rw [found_toNat hpq hi hj, hie, hje]

/-- Iterates that agree modulo a proper divisor of `pq` meet. -/
theorem meets_of_modEq {d i j : ℕ} (hpq : pq.toNat ≤ 2 ^ 63) (hx : x0 < pq) (hq : q < pq)
    (hd : 1 < d) (hdvd : d ∣ pq.toNat)
    (h : iterates pq.toNat q.toNat x0.toNat i ≡ iterates pq.toNat q.toNat x0.toNat j [MOD d]) :
    meets pq ((square pq q)^[i] x0) ((square pq q)^[j] x0) = true := by
  apply decide_eq_true
  intro hone
  have hg := found_iterate hpq hx hq i j
  rw [hone] at hg
  have hdiff : (d : ℤ) ∣ (iterates pq.toNat q.toNat x0.toNat i : ℤ) -
      iterates pq.toNat q.toNat x0.toNat j := (Nat.modEq_iff_dvd.mp h.symm)
  have hd1 : d ∣ 1 := by
    rw [show (1 : ℕ) = (1 : UInt64).toNat from rfl, hg]
    exact Int.natCast_dvd_natCast.mp (Int.dvd_coe_gcd hdiff (Int.natCast_dvd_natCast.mpr hdvd))
  exact absurd (Nat.dvd_one.mp hd1) (Nat.ne_of_gt hd)

/-- The attempt left its loop by the `break`. -/
def Inner.Broke (s : Inner) (lim : Int32) : Prop := (s.j : ℤ) < lim.toInt

theorem firstMeet_of_broke (h : (attempt pq q x0 lim g iter).Broke lim) :
    ∃ i, Brent.firstMeet (square pq q) (meets pq) x0 1 (roundsBelow lim) = some i ∧
      attempt pq q x0 lim g iter = atMeet pq q x0 iter i := by
  by_cases hr : 0 < roundsBelow lim
  · rw [attempt_eq hr] at h ⊢
    cases hf : Brent.firstMeet (square pq q) (meets pq) x0 1 (roundsBelow lim) with
    | some i => exact ⟨i, rfl, rfl⟩
    | none =>
      rw [hf] at h
      simp only [Inner.Broke, roundsBelow] at h
      omega
  · have h0 : (lim.toInt - 1).toNat = 0 := Nat.eq_zero_of_not_pos hr
    rw [attempt, h0] at h
    simp only [Inner.Broke, innerLoop] at h
    omega

theorem attempt_of_firstMeet {i : ℕ}
    (h : Brent.firstMeet (square pq q) (meets pq) x0 1 (roundsBelow lim) = some i) :
    attempt pq q x0 lim g iter = atMeet pq q x0 iter i ∧
      (attempt pq q x0 lim g iter).Broke lim := by
  obtain ⟨-, h1, hle, -⟩ := Brent.firstMeet_eq_some.mp h
  have hr : 0 < roundsBelow lim := by omega
  have he : attempt pq q x0 lim g iter = atMeet pq q x0 iter i := by
    rw [attempt_eq hr, h]
  refine ⟨he, ?_⟩
  rw [he]
  simp only [Inner.Broke, atMeet, roundsBelow] at hle ⊢
  omega

theorem attempt_of_none (hr : 0 < roundsBelow lim)
    (h : Brent.firstMeet (square pq q) (meets pq) x0 1 (roundsBelow lim) = none) :
    (attempt pq q x0 lim g iter).g = 1 ∧
      (attempt pq q x0 lim g iter).iter = iter + roundsBelow lim := by
  rw [attempt_eq hr, h]
  exact ⟨rfl, rfl⟩

/-- The attempt finds every cycle in time: a cycle modulo a divisor of `pq` that has set in
at a power of two no shorter than its period ends the loop within that period. -/
theorem attempt_finds_cycle (hpq : pq.toNat ≤ 2 ^ 63) (hx : x0 < pq) (hq : q < pq)
    (lim : Int32) (g : UInt64) (iter : ℕ) :
    (∀ d tail period k : ℕ, 1 < d → d ∣ pq.toNat →
      (∀ i, tail ≤ i → iterates pq.toNat q.toNat x0.toNat (i + period) ≡
        iterates pq.toNat q.toNat x0.toNat i [MOD d]) →
      1 ≤ period → tail ≤ 2 ^ k → period ≤ 2 ^ k → ((2 ^ k + period : ℕ) : ℤ) < lim.toInt →
        (attempt pq q x0 lim g iter).Broke lim ∧ (attempt pq q x0 lim g iter).g ≠ 1 ∧
          (attempt pq q x0 lim g iter).j ≤ 2 ^ k + period) ∧
    ((attempt pq q x0 lim g iter).Broke lim →
      ∃ m, ((attempt pq q x0 lim g iter).j = 1 → m = 0) ∧
        (1 < (attempt pq q x0 lim g iter).j →
          IsGreatest {m | m < (attempt pq q x0 lim g iter).j ∧ ∃ i, m = 2 ^ i} m) ∧
        (attempt pq q x0 lim g iter).g.toNat =
          Int.gcd ((iterates pq.toNat q.toNat x0.toNat (attempt pq q x0 lim g iter).j : ℤ) -
            iterates pq.toNat q.toNat x0.toNat m) pq.toNat) := by
  constructor
  · intro d tail period k hd hdvd hp h0 ht hk hlim
    have hmeet : Brent.meetsAt (square pq q) (meets pq) x0 (2 ^ k + period) = true := by
      have hmeets : ∀ i, tail ≤ i →
          meets pq ((square pq q)^[i + period] x0) ((square pq q)^[i] x0) = true := by
        intro i hi
        exact meets_of_modEq hpq hx hq hd hdvd (hp i hi)
      exact Brent.meetsAt_of_period hmeets h0 ht hk
    have hle : 2 ^ k + period ≤ roundsBelow lim := by
      rw [roundsBelow]
      omega
    obtain ⟨i, hi, hik⟩ := Brent.exists_firstMeet hmeet (by omega) hle
    obtain ⟨he, hb⟩ := attempt_of_firstMeet (g := g) hi
    refine ⟨hb, ?_, ?_⟩
    · rw [he]
      exact of_decide_eq_true (Brent.firstMeet_eq_some.mp hi).1
    · rw [he]
      exact hik
  · intro hb
    obtain ⟨i, hi, he⟩ := firstMeet_of_broke hb
    rw [he]
    refine ⟨Brent.anchor i, ?_, ?_, ?_⟩
    · rintro (rfl : i = 1)
      exact Brent.anchor_one
    · intro h1i
      exact Brent.anchor_isGreatest h1i
    · exact found_iterate hpq hx hq i _

theorem attempt_finds_cycle_fifteen :
    (attempt 15 3 2 4 0 0).Broke 4 ∧ (attempt 15 3 2 4 0 0).g ≠ 1 ∧
      (attempt 15 3 2 4 0 0).j ≤ 2 ∧
      ∃ m, (attempt 15 3 2 4 0 0).g.toNat = Int.gcd
        ((iterates 15 3 2 (attempt 15 3 2 4 0 0).j : ℤ) - iterates 15 3 2 m) 15 := by
  have h := @attempt_finds_cycle 15 3 2 (by decide) (by decide) (by decide) 4 0 0
  -- the iterates are 2, and 7 from then on
  have hfix : ∀ i, 1 ≤ i → iterates 15 3 2 i = 7 := by
    intro i hi
    obtain ⟨i, rfl⟩ := Nat.exists_eq_add_of_le' hi
    rw [iterates, Function.iterate_succ_apply]
    exact Function.iterate_fixed rfl i
  have hcycle : ∀ i, 1 ≤ i → iterates 15 3 2 (i + 1) ≡ iterates 15 3 2 i [MOD 3] := by
    intro i hi
    rw [hfix i hi, hfix (i + 1) (by omega)]
  obtain ⟨hb, hg, hj⟩ := h.1 3 1 1 0 (by decide) (by decide) hcycle (by decide) (by decide)
    (by decide) (by decide)
  obtain ⟨m, -, -, hm⟩ := h.2 hb
  exact ⟨hb, hg, hj, m, hm⟩

end Nrf9160.Factor
