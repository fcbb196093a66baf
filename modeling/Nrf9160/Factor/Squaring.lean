import Mathlib.Data.Nat.ModEq
import Mathlib.Data.Nat.Prime.Basic
import Mathlib.Logic.Function.Iterate
import Mathlib.Tactic.Ring

/-! The arithmetic of `math.c` on `uint64_t`: the recursive `gcd`, and the shift-and-add loop
of `decompose_64bit` that squares modulo `pq`. -/

namespace Nrf9160.Factor

def gcd (a b : UInt64) : UInt64 := if b = 0 then a else gcd b (a % b)
termination_by b.toNat
decreasing_by
  rename_i hb
  rw [UInt64.toNat_mod]
  exact Nat.mod_lt _ (Nat.pos_of_ne_zero fun h => hb (UInt64.toNat_inj.mp h))

theorem gcd_toNat (a b : UInt64) : (gcd a b).toNat = Nat.gcd a.toNat b.toNat := by
  induction a, b using gcd.induct with
  | case1 a =>
    rw [gcd, if_pos rfl]
    exact (Nat.gcd_zero_right _).symm
  | case2 a b hb ih =>
    rw [gcd, if_neg hb, ih, UInt64.toNat_mod, Nat.gcd_comm a.toNat, Nat.gcd_rec b.toNat a.toNat]
    exact Nat.gcd_comm _ _

/-- `c += a; if (c >= pq) c -= pq`, and the same for `a += a`. -/
def addStep (pq c a : UInt64) : UInt64 := if c + a ≥ pq then c + a - pq else c + a

structure Regs where
  a : UInt64
  b : UInt64
  c : UInt64

def round (pq : UInt64) (r : Regs) : Regs where
  a := addStep pq r.a r.a
  b := r.b >>> 1
  c := if r.b &&& 1 ≠ 0 then addStep pq r.c r.a else r.c

theorem shift_toNat (b : UInt64) : (b >>> 1).toNat = b.toNat / 2 := by
  rw [UInt64.toNat_shiftRight, Nat.shiftRight_eq_div_pow]
  rfl

def squareLoop (pq : UInt64) (r : Regs) : UInt64 :=
  if r.b = 0 then r.c else squareLoop pq (round pq r)
termination_by r.b.toNat
decreasing_by
  rename_i hb
  show (r.b >>> 1).toNat < r.b.toNat
  rw [shift_toNat]
  exact Nat.div_lt_self (Nat.pos_of_ne_zero fun h => hb (UInt64.toNat_inj.mp h)) (by decide)

/-- `a = x; b = x; c = q;` and the loop: the new `x`. -/
def square (pq q x : UInt64) : UInt64 := squareLoop pq ⟨x, x, q⟩

def rounds (pq : UInt64) (n : ℕ) (r : Regs) : Regs := (round pq)^[n] r

variable {pq : UInt64} {r : Regs} {n : ℕ}

theorem rounds_b (n : ℕ) (r : Regs) : (rounds pq n r).b.toNat = r.b.toNat / 2 ^ n := by
  induction n with
  | zero => simp [rounds]
  | succ n ih =>
    rw [rounds, Function.iterate_succ_apply']
    show ((rounds pq n r).b >>> 1).toNat = _
    rw [shift_toNat, ih, Nat.div_div_eq_div_mul, pow_succ]

theorem squareLoop_rounds (hb : ∀ i < n, (rounds pq i r).b ≠ 0) :
    squareLoop pq r = squareLoop pq (rounds pq n r) := by
  induction n with
  | zero => rfl
  | succ n ih =>
    rw [ih fun i hi => hb i (Nat.lt_succ_of_lt hi)]
    conv => lhs; rw [squareLoop]
    rw [if_neg (hb n (Nat.lt_succ_self n)), rounds, rounds, Function.iterate_succ_apply']

theorem squareLoop_ends (pq : UInt64) (r : Regs) : ∃ n ≤ 64, (rounds pq n r).b = 0 ∧
    (∀ i < n, (rounds pq i r).b ≠ 0) ∧ squareLoop pq r = (rounds pq n r).c := by
  have hend : (rounds pq 64 r).b = 0 := by
    apply UInt64.toNat_inj.mp
    rw [rounds_b]
    exact Nat.div_eq_of_lt (UInt64.toNat_lt r.b)
  have hex : ∃ n, (rounds pq n r).b = 0 := ⟨64, hend⟩
  have hmin : ∀ i < Nat.find hex, (rounds pq i r).b ≠ 0 := fun i hi => Nat.find_min hex hi
  refine ⟨Nat.find hex, Nat.find_min' hex hend, Nat.find_spec hex, hmin, ?_⟩
  rw [squareLoop_rounds hmin, squareLoop, if_pos (Nat.find_spec hex)]

/-- Below 2 ^ 63 the sum of two residues does not wrap. -/
theorem addStep_toNat {a c : UInt64} (hpq : pq.toNat ≤ 2 ^ 63) (ha : a < pq) (hc : c < pq) :
    (addStep pq c a).toNat = (c.toNat + a.toNat) % pq.toNat := by
  have ha' := UInt64.lt_iff_toNat_lt.mp ha
  have hc' := UInt64.lt_iff_toNat_lt.mp hc
  have hsum : (c + a).toNat = c.toNat + a.toNat := by
    rw [UInt64.toNat_add]
    exact Nat.mod_eq_of_lt (by omega)
  unfold addStep
  split_ifs with h
  · have hle : pq.toNat ≤ c.toNat + a.toNat := hsum ▸ UInt64.le_iff_toNat_le.mp h
    rw [UInt64.toNat_sub_of_le _ _ h, hsum, Nat.mod_eq_sub_mod hle]
    exact (Nat.mod_eq_of_lt (by omega)).symm
  · have hlt : c.toNat + a.toNat < pq.toNat := by
      rw [← hsum]
      exact UInt64.lt_iff_toNat_lt.mp (UInt64.not_le.mp h)
    rw [hsum, Nat.mod_eq_of_lt hlt]

theorem addStep_lt {a c : UInt64} (hpq : pq.toNat ≤ 2 ^ 63) (ha : a < pq) (hc : c < pq) :
    addStep pq c a < pq := by
  rw [UInt64.lt_iff_toNat_lt, addStep_toNat hpq ha hc]
  exact Nat.mod_lt _ (Nat.zero_lt_of_lt (UInt64.lt_iff_toNat_lt.mp ha))

structure Reduced (pq : UInt64) (r : Regs) : Prop where
  a_lt : r.a < pq
  c_lt : r.c < pq

theorem reduced_round (hpq : pq.toNat ≤ 2 ^ 63) (h : Reduced pq r) : Reduced pq (round pq r) := by
  refine ⟨addStep_lt hpq h.a_lt h.a_lt, ?_⟩
  show (if r.b &&& 1 ≠ 0 then addStep pq r.c r.a else r.c) < pq
  split_ifs
  · exact addStep_lt hpq h.a_lt h.c_lt
  · exact h.c_lt

theorem and_one_ne_zero (b : UInt64) : b &&& 1 ≠ 0 ↔ b.toNat % 2 = 1 := by
  have h1 : (b &&& 1).toNat = b.toNat % 2 := by
    rw [UInt64.toNat_and]
    exact Nat.and_one_is_mod _
  rw [ne_eq, ← UInt64.toNat_inj, h1]
  show ¬b.toNat % 2 = 0 ↔ _
  omega

/-- A round leaves `c + a * b` alone modulo `pq`. -/
theorem round_modEq (hpq : pq.toNat ≤ 2 ^ 63) (h : Reduced pq r) :
    (round pq r).c.toNat + (round pq r).a.toNat * (round pq r).b.toNat ≡
      r.c.toNat + r.a.toNat * r.b.toNat [MOD pq.toNat] := by
  have ha : (addStep pq r.a r.a).toNat ≡ r.a.toNat + r.a.toNat [MOD pq.toNat] := by
    rw [addStep_toNat hpq h.a_lt h.a_lt]
    exact Nat.mod_modEq _ _
  have hb := Nat.div_add_mod r.b.toNat 2
  show (if r.b &&& 1 ≠ 0 then addStep pq r.c r.a else r.c).toNat +
    (addStep pq r.a r.a).toNat * (r.b >>> 1).toNat ≡ _ [MOD pq.toNat]
  rw [shift_toNat]
  split_ifs with hodd
  · have hc : (addStep pq r.c r.a).toNat ≡ r.c.toNat + r.a.toNat [MOD pq.toNat] := by
      rw [addStep_toNat hpq h.a_lt h.c_lt]
      exact Nat.mod_modEq _ _
    have hb1 : 2 * (r.b.toNat / 2) + 1 = r.b.toNat := by
      rw [(and_one_ne_zero _).mp hodd] at hb
      exact hb
    calc (addStep pq r.c r.a).toNat + (addStep pq r.a r.a).toNat * (r.b.toNat / 2)
        ≡ r.c.toNat + r.a.toNat + (r.a.toNat + r.a.toNat) * (r.b.toNat / 2) [MOD pq.toNat] :=
          hc.add (ha.mul_right _)
      _ = r.c.toNat + r.a.toNat * (2 * (r.b.toNat / 2) + 1) := by ring
      _ = r.c.toNat + r.a.toNat * r.b.toNat := by rw [hb1]
  · have hb0 : 2 * (r.b.toNat / 2) = r.b.toNat := by
      have hne := mt (and_one_ne_zero r.b).mpr hodd
      omega
    calc r.c.toNat + (addStep pq r.a r.a).toNat * (r.b.toNat / 2)
        ≡ r.c.toNat + (r.a.toNat + r.a.toNat) * (r.b.toNat / 2) [MOD pq.toNat] :=
          (Nat.ModEq.refl _).add (ha.mul_right _)
      _ = r.c.toNat + r.a.toNat * (2 * (r.b.toNat / 2)) := by ring
      _ = r.c.toNat + r.a.toNat * r.b.toNat := by rw [hb0]

theorem squareLoop_toNat (hpq : pq.toNat ≤ 2 ^ 63) (h : Reduced pq r) :
    (squareLoop pq r).toNat = (r.c.toNat + r.a.toNat * r.b.toNat) % pq.toNat := by
  induction r using squareLoop.induct pq with
  | case1 r hb =>
    have hc := UInt64.lt_iff_toNat_lt.mp h.c_lt
    rw [squareLoop, if_pos hb, hb]
    exact (Nat.mod_eq_of_lt hc).symm
  | case2 r hb ih =>
    rw [squareLoop, if_neg hb, ih (reduced_round hpq h)]
    exact round_modEq hpq h

theorem square_toNat {q x : UInt64} (hpq : pq.toNat ≤ 2 ^ 63) (hx : x < pq) (hq : q < pq) :
    (square pq q x).toNat = (x.toNat * x.toNat + q.toNat) % pq.toNat := by
  rw [square, squareLoop_toNat hpq ⟨hx, hq⟩]
  rw [Nat.add_comm]

theorem squareLoop_zero (h0 : 0 < pq) (b : UInt64) : squareLoop pq ⟨0, b, 0⟩ = 0 := by
  have hadd : addStep pq 0 0 = 0 := if_neg (UInt64.not_le.mpr h0)
  generalize hr : (⟨0, b, 0⟩ : Regs) = r
  induction r using squareLoop.induct pq generalizing b with
  | case1 r hb =>
    rw [squareLoop, if_pos hb, ← hr]
  | case2 r hb ih =>
    rw [squareLoop, if_neg hb]
    apply ih (b >>> 1)
    rw [← hr]
    simp only [round, hadd, ite_self]

def topBit : UInt64 := 0x8000000000000000

/-- Above 2 ^ 63 the first doubling of 2 ^ 63 wraps to 0. -/
theorem square_wraps (hpq : 2 ^ 63 < pq.toNat) : square pq 0 topBit = 0 := by
  have h0 : 0 < pq := UInt64.lt_iff_toNat_lt.mpr (Nat.zero_lt_of_lt hpq)
  have hadd : addStep pq topBit topBit = 0 := by
    have hsum : topBit + topBit = 0 := by decide
    rw [addStep, hsum, if_neg (UInt64.not_le.mpr h0)]
  have hround : round pq ⟨topBit, topBit, 0⟩ = ⟨0, topBit >>> 1, 0⟩ := by
    simp only [round, hadd]
    rfl
  rw [square, squareLoop, if_neg (by decide), hround]
  exact squareLoop_zero h0 _

theorem not_dvd_of_wraps (h : 2 ^ 63 < pq.toNat) : ¬pq.toNat ∣ 2 ^ 126 := by
  intro hd
  obtain ⟨k, _, hk⟩ := (Nat.dvd_prime_pow Nat.prime_two).mp hd
  have hlt := UInt64.toNat_lt pq
  rw [hk] at h hlt
  have h1 := (Nat.pow_lt_pow_iff_right (by decide)).mp h
  have h2 := (Nat.pow_lt_pow_iff_right (by decide)).mp hlt
  omega

/-- The squaring loop ends for every input, and it squares exactly for every modulus up to
2 ^ 63 and for no greater one. -/
theorem square_exact_iff (pq : UInt64) :
    (∀ x q, ∃ n ≤ 64, (rounds pq n ⟨x, x, q⟩).b = 0 ∧
      (∀ i < n, (rounds pq i ⟨x, x, q⟩).b ≠ 0) ∧
      square pq q x = (rounds pq n ⟨x, x, q⟩).c) ∧
    ((∀ x q, x < pq → q < pq →
      (square pq q x).toNat = (x.toNat * x.toNat + q.toNat) % pq.toNat) ↔
        pq.toNat ≤ 2 ^ 63) := by
  refine ⟨fun x q => squareLoop_ends pq ⟨x, x, q⟩, ?_⟩
  constructor
  · intro h
    by_contra hpq
    have hlt : 2 ^ 63 < pq.toNat := Nat.lt_of_not_le hpq
    have hx : topBit < pq := UInt64.lt_iff_toNat_lt.mpr hlt
    have h0 : 0 < pq := UInt64.lt_iff_toNat_lt.mpr (Nat.zero_lt_of_lt hlt)
    have hz := h topBit 0 hx h0
    rw [square_wraps hlt] at hz
    exact not_dvd_of_wraps hlt (Nat.dvd_of_mod_eq_zero hz.symm)
  · intro hpq x q hx hq
    exact square_toNat hpq hx hq

end Nrf9160.Factor
