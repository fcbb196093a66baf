import Mathlib.Algebra.Order.BigOperators.Group.Finset
import Mathlib.Tactic.IntervalCases
import Nrf9160.Factor.Rho

/-! The outer loop of `decompose_64bit` over a stream of random numbers, and `math_test`.
What the loop does is stated in terms of its attempts: where the search of attempt `k` meets,
and how many rounds it takes. -/

namespace Nrf9160.Factor

/-- What stands in the way of a result: a division by zero, or a loop that goes on. -/
inductive Stop where
  | divByZero
  | running
deriving DecidableEq

/-- What the compiler makes of `1 << n` on `int`. The language defines it up to 30. -/
structure Target where
  shl : ℕ → Int32
  shl_eq : ∀ n ≤ 30, (shl n).toInt = 2 ^ n

def udiv (a b : UInt64) : Except Stop UInt64 := if b = 0 then .error .divByZero else .ok (a / b)

def umod (a b : UInt64) : Except Stop UInt64 := if b = 0 then .error .divByZero else .ok (a % b)

/-- `int q` from the `uint64_t` assigned to it, and back in `c = q`. -/
def intOf (v : UInt64) : Int32 := v.toUInt32.toInt32

def u64Of (q : Int32) : UInt64 := q.toInt64.toUInt64

/-- The variables of the outer loop. `i` and `iter` stay in the range of `int` as long as
the shift does (`iter_lt`). -/
structure Search where
  i : ℕ := 0
  iter : ℕ := 0
  g : UInt64 := 0
  broke : Bool := false

def Search.more (s : Search) : Bool := !s.broke && (s.i < 3 || s.iter < 1000)

/-- One pass of the outer loop. The random numbers of pass `i` are `rs (2 * i)` and the one
after it. -/
def pass (T : Target) (pq : UInt64) (rs : ℕ → UInt64) (s : Search) : Except Stop Search := do
  let r ← umod ((rs (2 * s.i) &&& 15) + 17) pq
  let x ← umod (rs (2 * s.i + 1)) (pq - 1)
  let w := attempt pq (u64Of (intOf r)) (x + 1) (T.shl (s.i + 18)) s.g s.iter
  if 1 < w.g ∧ w.g < pq then
    return { s with iter := w.iter, g := w.g, broke := true }
  return ⟨s.i + 1, w.iter, w.g, false⟩

/-- The state when the guard of the loop is reached for the `n`-th time, or the last one
when the loop is left before. -/
def after (T : Target) (pq : UInt64) (rs : ℕ → UInt64) : ℕ → Except Stop Search
  | 0 => .ok {}
  | n + 1 => do
    let s ← after T pq rs n
    if s.more then pass T pq rs s else return s

structure Factors where
  error : ℤ
  p : UInt64
  q0 : UInt64
deriving DecidableEq

def decompose64bit (T : Target) (pq : UInt64) (rs : ℕ → UInt64) (n : ℕ) :
    Except Stop Factors := do
  let s ← after T pq rs n
  if s.more then
    throw .running
  let p := s.g
  let q0 ← udiv pq s.g
  if p > q0 then
    return ⟨0, q0, p⟩
  return ⟨0, p, q0⟩

def mathTestOn (T : Target) (pq : UInt64) (rs : ℕ → UInt64) (n : ℕ) : Except Stop ℤ := do
  let f ← decompose64bit T pq rs n
  if f.error ≠ 0 then
    return f.error
  if f.p * f.q0 = pq then
    return 0
  return -1

def mathTest (T : Target) : (ℕ → UInt64) → ℕ → Except Stop ℤ := mathTestOn T 2341224282031054919

/-! The attempts by themselves. -/

def seedQ (pq : UInt64) (rs : ℕ → UInt64) (k : ℕ) : UInt64 := ((rs (2 * k) &&& 15) + 17) % pq

def seedX (pq : UInt64) (rs : ℕ → UInt64) (k : ℕ) : UInt64 := rs (2 * k + 1) % (pq - 1) + 1

def budget (T : Target) (k : ℕ) : ℕ := roundsBelow (T.shl (k + 18))

def meeting (T : Target) (pq : UInt64) (rs : ℕ → UInt64) (k : ℕ) : Option ℕ :=
  Brent.firstMeet (square pq (seedQ pq rs k)) (meets pq) (seedX pq rs k) 1 (budget T k)

def foundIn (pq : UInt64) (rs : ℕ → UInt64) (k j : ℕ) : UInt64 :=
  found pq ((square pq (seedQ pq rs k))^[j] (seedX pq rs k))
    ((square pq (seedQ pq rs k))^[Brent.anchor j] (seedX pq rs k))

/-- Attempt `k` meets in a proper factor, and not in `pq` itself. -/
def Splits (T : Target) (pq : UInt64) (rs : ℕ → UInt64) (k : ℕ) : Prop :=
  ∃ j, meeting T pq rs k = some j ∧ foundIn pq rs k j ≠ pq

/-- The rounds that attempt `k` takes, and those of all attempts before `n`. -/
def cost (T : Target) (pq : UInt64) (rs : ℕ → UInt64) (k : ℕ) : ℕ :=
  (meeting T pq rs k).getD (budget T k)

def spent (T : Target) (pq : UInt64) (rs : ℕ → UInt64) (n : ℕ) : ℕ :=
  ∑ k ∈ Finset.range n, cost T pq rs k

def Opens (T : Target) (pq : UInt64) (rs : ℕ → UInt64) (k : ℕ) : Prop :=
  k < 3 ∨ spent T pq rs k < 1000

def Reached (T : Target) (pq : UInt64) (rs : ℕ → UInt64) (n : ℕ) : Prop :=
  ∀ k < n, Opens T pq rs k ∧ ¬Splits T pq rs k

variable {T : Target} {pq : UInt64} {rs : ℕ → UInt64} {s t : Search} {k m n : ℕ} {g : UInt64}

theorem budget_eq (h : k ≤ 12) : budget T k = 2 ^ (k + 18) - 1 := by
  have hs := T.shl_eq (k + 18) (by omega)
  rw [budget, roundsBelow, hs]
  have hpos : 0 < 2 ^ (k + 18) := Nat.two_pow_pos _
  have hcast : ((2 ^ (k + 18) : ℕ) : ℤ) = 2 ^ (k + 18) := by push_cast; rfl
  omega

theorem budget_pos (h : k ≤ 12) : 0 < budget T k := by
  have hle : 2 ^ 1 ≤ 2 ^ (k + 18) := Nat.pow_le_pow_right (by decide) (by omega)
  rw [budget_eq h]
  omega

theorem pq_ne_zero (h : 2 ≤ pq) : pq ≠ 0 := by
  rintro rfl
  exact absurd h (by decide)

theorem pred_toNat (h : 2 ≤ pq) : (pq - 1).toNat = pq.toNat - 1 :=
  UInt64.toNat_sub_of_le _ _ (UInt64.le_trans (by decide) h)

theorem pred_ne_zero (h : 2 ≤ pq) : pq - 1 ≠ 0 := by
  intro h0
  have hp := pred_toNat h
  have h2 : 2 ≤ pq.toNat := UInt64.le_iff_toNat_le.mp h
  rw [h0] at hp
  change 0 = pq.toNat - 1 at hp
  omega

theorem found_dvd (x y : UInt64) : (found pq x y).toNat ∣ pq.toNat := by
  rw [found, gcd_toNat]
  exact Nat.gcd_dvd_right _ _

theorem found_pos (h : 2 ≤ pq) (x y : UInt64) : 0 < (found pq x y).toNat := by
  have h2 : 2 ≤ pq.toNat := UInt64.le_iff_toNat_le.mp h
  rw [found, gcd_toNat]
  exact Nat.gcd_pos_of_pos_right _ (by omega)

theorem found_meeting (h : 2 ≤ pq) {j : ℕ} (hm : meeting T pq rs k = some j) :
    (1 < foundIn pq rs k j ∧ foundIn pq rs k j < pq) ↔ foundIn pq rs k j ≠ pq := by
  have hne : foundIn pq rs k j ≠ 1 := of_decide_eq_true (Brent.firstMeet_eq_some.mp hm).1
  have hne' : (foundIn pq rs k j).toNat ≠ 1 := fun h1 => hne (UInt64.toNat_inj.mp h1)
  have hpos : 0 < (foundIn pq rs k j).toNat := found_pos h _ _
  have hle : (foundIn pq rs k j).toNat ≤ pq.toNat := by
    have h2 : 2 ≤ pq.toNat := UInt64.le_iff_toNat_le.mp h
    exact Nat.le_of_dvd (by omega) (found_dvd _ _)
  have h1 : 1 < foundIn pq rs k j := by
    rw [UInt64.lt_iff_toNat_lt]
    show 1 < (foundIn pq rs k j).toNat
    omega
  constructor
  · rintro ⟨-, hlt⟩ he
    exact UInt64.lt_irrefl _ (he ▸ hlt)
  · intro hpq
    refine ⟨h1, UInt64.lt_iff_toNat_lt.mpr (lt_of_le_of_ne hle ?_)⟩
    exact fun he => hpq (UInt64.toNat_inj.mp he)

theorem u64Of_seed (r : UInt64) : u64Of (intOf (((r &&& 15) + 17) % pq)) =
    ((r &&& 15) + 17) % pq := by
  have hand : (r &&& 15).toNat ≤ 15 := by
    rw [UInt64.toNat_and]
    exact Nat.and_le_right
  have hle : (((r &&& 15) + 17) % pq).toNat ≤ 32 := by
    rw [UInt64.toNat_mod, UInt64.toNat_add]
    refine (Nat.mod_le _ _).trans ((Nat.mod_le _ _).trans ?_)
    show (r &&& 15).toNat + 17 ≤ 32
    omega
  have hsmall : ∀ n ≤ 32, u64Of (intOf (UInt64.ofNat n)) = UInt64.ofNat n := by decide
  have hv := hsmall _ hle
  rwa [UInt64.ofNat_toNat] at hv

theorem pass_eq (h : 2 ≤ pq) (hs : s.i = k) : pass T pq rs s =
    let w := attempt pq (seedQ pq rs k) (seedX pq rs k) (T.shl (k + 18)) s.g s.iter
    .ok (if 1 < w.g ∧ w.g < pq then ⟨k, w.iter, w.g, true⟩ else ⟨k + 1, w.iter, w.g, false⟩) := by
  subst hs
  rw [pass, umod, umod, if_neg (pq_ne_zero h), if_neg (pred_ne_zero h)]
  show (if 1 < (attempt pq (u64Of (intOf _)) _ _ _ _).g ∧ _ < pq then _ else _) = _
  rw [u64Of_seed]
  exact (apply_ite Except.ok _ _ _).symm

theorem cost_of_meeting {j : ℕ} (h : meeting T pq rs k = some j) : cost T pq rs k = j := by
  rw [cost, h, Option.getD_some]

theorem cost_of_none (h : meeting T pq rs k = none) : cost T pq rs k = budget T k := by
  rw [cost, h, Option.getD_none]

theorem pass_of_meeting {j : ℕ} (h : 2 ≤ pq) (hs : s.i = k) (hm : meeting T pq rs k = some j) :
    pass T pq rs s = .ok (if foundIn pq rs k j ≠ pq
      then ⟨k, s.iter + j, foundIn pq rs k j, true⟩
      else ⟨k + 1, s.iter + j, foundIn pq rs k j, false⟩) := by
  have hw : attempt pq (seedQ pq rs k) (seedX pq rs k) (T.shl (k + 18)) s.g s.iter =
      atMeet pq (seedQ pq rs k) (seedX pq rs k) s.iter j := (attempt_of_firstMeet hm).1
  rw [pass_eq h hs, hw]
  show Except.ok (if 1 < foundIn pq rs k j ∧ foundIn pq rs k j < pq then _ else _) = _
  simp only [found_meeting h hm]
  rfl

/-- An attempt that does not meet leaves `g = 1`. The old `g` can only stay where the limit
has overflowed and the attempt has no round at all. -/
theorem pass_of_none (h : 2 ≤ pq) (hs : s.i = k) (hm : meeting T pq rs k = none)
    (hg : 0 < budget T k ∨ s.g = 1 ∨ s.g = pq) :
    ∃ g, pass T pq rs s = .ok ⟨k + 1, s.iter + budget T k, g, false⟩ ∧ (g = 1 ∨ g = pq) := by
  have hno : ∀ g : UInt64, g = 1 ∨ g = pq → ¬(1 < g ∧ g < pq) := by
    rintro g (rfl | rfl) ⟨h1, hlt⟩
    · exact UInt64.lt_irrefl _ h1
    · exact UInt64.lt_irrefl _ hlt
  rw [pass_eq h hs]
  by_cases hb : 0 < budget T k
  · have hw : (attempt pq (seedQ pq rs k) (seedX pq rs k) (T.shl (k + 18)) s.g s.iter).g = 1 ∧
        (attempt pq (seedQ pq rs k) (seedX pq rs k) (T.shl (k + 18)) s.g s.iter).iter =
          s.iter + budget T k := attempt_of_none hb hm
    refine ⟨1, ?_, .inl rfl⟩
    simp only [hw.1, hw.2, if_neg (hno 1 (.inl rfl))]
  · have h0 : budget T k = 0 := Nat.eq_zero_of_not_pos hb
    have hw : attempt pq (seedQ pq rs k) (seedX pq rs k) (T.shl (k + 18)) s.g s.iter =
        ⟨seedX pq rs k, seedX pq rs k, s.g, s.iter, 1⟩ := by
      rw [attempt, ← roundsBelow, ← budget, h0, innerLoop]
    have hg1 := hg.resolve_left hb
    rw [hw, h0]
    exact ⟨s.g, congrArg Except.ok (if_neg (hno s.g hg1)), hg1⟩

structure Seeking (T : Target) (pq : UInt64) (rs : ℕ → UInt64) (m : ℕ) (s : Search) : Prop where
  i_eq : s.i = m
  iter_eq : s.iter = spent T pq rs m
  broke_eq : s.broke = false
  reached : Reached T pq rs m
  g_eq : 0 < m → s.g = 1 ∨ s.g = pq

/-- The loop was left by the `break`, with the factor that attempt `m` has found. -/
structure Divided (T : Target) (pq : UInt64) (rs : ℕ → UInt64) (m : ℕ) (s : Search) : Prop where
  i_eq : s.i = m
  broke_eq : s.broke = true
  reached : Reached T pq rs m
  opens : Opens T pq rs m
  splits : Splits T pq rs m
  iter_eq : s.iter = spent T pq rs (m + 1)
  one_lt : 1 < s.g
  g_lt : s.g < pq
  g_dvd : s.g.toNat ∣ pq.toNat

theorem Seeking.more_iff (h : Seeking T pq rs m s) : s.more = true ↔ Opens T pq rs m := by
  simp [Search.more, Opens, h.broke_eq, h.i_eq, h.iter_eq]

theorem Divided.more_eq (h : Divided T pq rs m s) : s.more = false := by
  simp [Search.more, h.broke_eq]

theorem spent_succ (T : Target) (pq : UInt64) (rs : ℕ → UInt64) (m : ℕ) :
    spent T pq rs (m + 1) = spent T pq rs m + cost T pq rs m := Finset.sum_range_succ ..

theorem spent_mono (h : m ≤ n) : spent T pq rs m ≤ spent T pq rs n :=
  Finset.sum_le_sum_of_subset (Finset.range_subset_range.mpr h)

theorem Reached.succ (h : Reached T pq rs m) (ho : Opens T pq rs m)
    (hs : ¬Splits T pq rs m) : Reached T pq rs (m + 1) := by
  intro k hk
  rcases Nat.lt_succ_iff_lt_or_eq.mp hk with hk | rfl
  · exact h k hk
  · exact ⟨ho, hs⟩

theorem Seeking.pass (hpq : 2 ≤ pq) (h : Seeking T pq rs m s) (ho : Opens T pq rs m) :
    ∃ t, Factor.pass T pq rs s = .ok t ∧
      (Divided T pq rs m t ∨ Seeking T pq rs (m + 1) t) ∧ t.iter = s.iter + cost T pq rs m := by
  have hspent := spent_succ T pq rs m
  cases hm : meeting T pq rs m with
  | some j =>
    have hcost := cost_of_meeting hm
    have hiter : s.iter + j = spent T pq rs (m + 1) := by rw [hspent, hcost, h.iter_eq]
    refine ⟨_, pass_of_meeting hpq h.i_eq hm, ?_⟩
    rw [hcost]
    by_cases hsplit : foundIn pq rs m j ≠ pq
    · have hproper := (found_meeting hpq hm).mpr hsplit
      rw [if_pos hsplit]
      exact ⟨.inl ⟨rfl, rfl, h.reached, ho, ⟨j, hm, hsplit⟩, hiter, hproper.1, hproper.2,
        found_dvd _ _⟩, rfl⟩
    · have hn : ¬Splits T pq rs m := by
        rintro ⟨i, hi, hne⟩
        obtain rfl : j = i := Option.some.inj (hm.symm.trans hi)
        exact hsplit hne
      rw [if_neg hsplit]
      exact ⟨.inr ⟨rfl, hiter, rfl, h.reached.succ ho hn, fun _ => .inr (not_not.mp hsplit)⟩, rfl⟩
  | none =>
    have hcost := cost_of_none hm
    have hn : ¬Splits T pq rs m := by
      rintro ⟨i, hi, -⟩
      rw [hm] at hi
      cases hi
    have hbudget : 0 < budget T m ∨ s.g = 1 ∨ s.g = pq := by
      rcases Nat.eq_zero_or_pos m with rfl | hpos
      · exact .inl (budget_pos (Nat.zero_le 12))
      · exact .inr (h.g_eq hpos)
    obtain ⟨g, hg, hg'⟩ := pass_of_none hpq h.i_eq hm hbudget
    refine ⟨_, hg, .inr ⟨rfl, ?_, rfl, h.reached.succ ho hn, fun _ => hg'⟩, ?_⟩
    · rw [hspent, hcost, h.iter_eq]
    · rw [hcost]

theorem seeking_zero (T : Target) (pq : UInt64) (rs : ℕ → UInt64) : Seeking T pq rs 0 {} where
  i_eq := rfl
  iter_eq := rfl
  broke_eq := rfl
  reached k hk := absurd hk (Nat.not_lt_zero k)
  g_eq h := absurd h (Nat.lt_irrefl 0)

/-- The state at every moment of the loop: still seeking, stopped by the guard, or left with
a proper factor. -/
theorem after_spec (T : Target) (rs : ℕ → UInt64) (hpq : 2 ≤ pq) (n : ℕ) :
    ∃ s, after T pq rs n = .ok s ∧
      ((∃ m ≤ n, Seeking T pq rs m s ∧ (m < n → ¬Opens T pq rs m)) ∨
        ∃ m < n, Divided T pq rs m s) := by
  induction n with
  | zero =>
    exact ⟨{}, rfl, .inl ⟨0, le_rfl, seeking_zero T pq rs, fun h => absurd h (Nat.lt_irrefl 0)⟩⟩
  | succ n ih =>
    obtain ⟨s, hs, h⟩ := ih
    have hafter : after T pq rs (n + 1) = if s.more then pass T pq rs s else .ok s := by
      rw [after, hs]
      rfl
    rw [hafter]
    rcases h with ⟨m, hm, hseek, hstop⟩ | ⟨m, hm, hdiv⟩
    · by_cases ho : Opens T pq rs m
      · obtain rfl : m = n := le_antisymm hm (Nat.le_of_not_lt fun hlt => hstop hlt ho)
        obtain ⟨t, ht, hor, -⟩ := hseek.pass hpq ho
        rw [if_pos (hseek.more_iff.mpr ho)]
        refine ⟨t, ht, ?_⟩
        rcases hor with hd | hk
        · exact .inr ⟨m, Nat.lt_succ_self m, hd⟩
        · exact .inl ⟨m + 1, le_rfl, hk, fun h => absurd h (Nat.lt_irrefl _)⟩
      · rw [if_neg (mt hseek.more_iff.mp ho)]
        exact ⟨s, rfl, .inl ⟨m, Nat.le_succ_of_le hm, hseek, fun _ => ho⟩⟩
    · rw [hdiv.more_eq, if_neg Bool.false_ne_true]
      exact ⟨s, rfl, .inr ⟨m, Nat.lt_succ_of_lt hm, hdiv⟩⟩

theorem after_of_reached (hpq : 2 ≤ pq) (h : Reached T pq rs n) :
    ∃ s, after T pq rs n = .ok s ∧ Seeking T pq rs n s := by
  obtain ⟨s, hs, ⟨m, hm, hseek, hstop⟩ | ⟨m, hm, hdiv⟩⟩ := after_spec T rs hpq n
  · rcases Nat.lt_or_eq_of_le hm with hlt | rfl
    · exact absurd (h m hlt).1 (hstop hlt)
    · exact ⟨s, hs, hseek⟩
  · exact absurd hdiv.splits (h m hm).2

theorem left_cases (hpq : 2 ≤ pq) (hs : after T pq rs n = .ok s) (hm : s.more = false) :
    (∃ m ≤ n, Seeking T pq rs m s ∧ ¬Opens T pq rs m) ∨ ∃ m < n, Divided T pq rs m s := by
  obtain ⟨t, ht, h⟩ := after_spec T rs hpq n
  obtain rfl : s = t := Except.ok.inj (hs.symm.trans ht)
  rcases h with ⟨m, hmn, hseek, -⟩ | h
  · refine .inl ⟨m, hmn, hseek, fun ho => ?_⟩
    rw [hseek.more_iff.mpr ho] at hm
    cases hm
  · exact .inr h

theorem opens_zero : Opens T pq rs 0 := .inl (by decide)

theorem g_of_left (hpq : 2 ≤ pq) (hs : after T pq rs n = .ok s) (hm : s.more = false) :
    1 ≤ s.g.toNat ∧ s.g.toNat ∣ pq.toNat := by
  have h2 : 2 ≤ pq.toNat := UInt64.le_iff_toNat_le.mp hpq
  rcases left_cases hpq hs hm with ⟨m, -, hseek, hstop⟩ | ⟨m, -, hdiv⟩
  · have hpos : 0 < m := by
      apply Nat.pos_of_ne_zero
      rintro rfl
      exact hstop opens_zero
    rcases hseek.g_eq hpos with hg | hg
    · rw [hg]
      exact ⟨le_rfl, Nat.one_dvd _⟩
    · rw [hg]
      exact ⟨by omega, Nat.dvd_refl _⟩
  · exact ⟨Nat.le_of_lt (UInt64.lt_iff_toNat_lt.mp hdiv.one_lt), hdiv.g_dvd⟩

def ordered (pq g : UInt64) : Factors := if g > pq / g then ⟨0, pq / g, g⟩ else ⟨0, g, pq / g⟩

theorem decompose64bit_eq (hpq : 2 ≤ pq) (hs : after T pq rs n = .ok s) :
    decompose64bit T pq rs n = if s.more then .error .running else .ok (ordered pq s.g) := by
  have hrun : decompose64bit T pq rs n = if s.more then .error .running else
      udiv pq s.g >>= fun q0 => if s.g > q0 then .ok ⟨0, q0, s.g⟩ else .ok ⟨0, s.g, q0⟩ := by
    rw [decompose64bit, hs]
    rfl
  rw [hrun]
  cases hm : s.more with
  | true => rfl
  | false =>
    have hg : s.g ≠ 0 := by
      intro h0
      have h1 := (g_of_left hpq hs hm).1
      rw [h0] at h1
      exact absurd h1 (by decide)
    have hdiv : udiv pq s.g = .ok (pq / s.g) := if_neg hg
    rw [hdiv, ordered]
    exact (apply_ite Except.ok _ _ _).symm

theorem decompose64bit_ok {f : Factors} (hpq : 2 ≤ pq) (h : decompose64bit T pq rs n = .ok f) :
    ∃ s, after T pq rs n = .ok s ∧ s.more = false ∧ f = ordered pq s.g := by
  obtain ⟨s, hs, -⟩ := after_spec T rs hpq n
  rw [decompose64bit_eq hpq hs] at h
  cases hm : s.more with
  | true =>
    rw [hm] at h
    cases h
  | false =>
    rw [hm] at h
    exact ⟨s, hs, hm, (Except.ok.inj h).symm⟩

theorem ordered_error (pq g : UInt64) : (ordered pq g).error = 0 := by
  unfold ordered
  split_ifs <;> rfl

theorem ordered_le (pq g : UInt64) : (ordered pq g).p ≤ (ordered pq g).q0 := by
  unfold ordered
  split_ifs with h
  · exact UInt64.le_of_lt h
  · exact UInt64.not_lt.mp h

theorem ordered_mul (h : g.toNat ∣ pq.toNat) :
    (ordered pq g).p.toNat * (ordered pq g).q0.toNat = pq.toNat := by
  unfold ordered
  split_ifs
  · show (pq / g).toNat * g.toNat = pq.toNat
    rw [UInt64.toNat_div]
    exact Nat.div_mul_cancel h
  · show g.toNat * (pq / g).toNat = pq.toNat
    rw [UInt64.toNat_div]
    exact Nat.mul_div_cancel' h

theorem mathTestOn_of_ok {f : Factors} (hpq : 2 ≤ pq) (hf : decompose64bit T pq rs n = .ok f) :
    mathTestOn T pq rs n = .ok 0 := by
  obtain ⟨t, ht, hm, rfl⟩ := decompose64bit_ok hpq hf
  have hprod : (ordered pq t.g).p * (ordered pq t.g).q0 = pq := by
    apply UInt64.toNat_inj.mp
    rw [UInt64.toNat_mul, ordered_mul (g_of_left hpq ht hm).2]
    exact Nat.mod_eq_of_lt (UInt64.toNat_lt pq)
  rw [mathTestOn, hf]
  show (if (ordered pq t.g).error ≠ 0 then _ else _) = _
  rw [ordered_error, if_neg (not_not.mpr rfl)]
  show (if (ordered pq t.g).p * (ordered pq t.g).q0 = pq then _ else _) = _
  rw [if_pos hprod]
  rfl

theorem mathTest_eq_zero {v : ℤ} (h : mathTest T rs n = .ok v) : v = 0 := by
  have hpq : (2 : UInt64) ≤ 2341224282031054919 := by decide
  cases hf : decompose64bit T 2341224282031054919 rs n with
  | error e =>
    rw [mathTest, mathTestOn, hf] at h
    cases h
  | ok f =>
    have hok := mathTestOn_of_ok hpq hf
    exact Except.ok.inj (h.symm.trans hok)

/-- Whatever the random numbers and the overflowing shifts are: nothing divides by zero, and
a result is a pair of factors that `math_test` accepts. -/
theorem factors_sound (T : Target) (hpq : 2 ≤ pq) (rs : ℕ → UInt64) (n : ℕ) :
    after T pq rs n ≠ .error .divByZero ∧ decompose64bit T pq rs n ≠ .error .divByZero ∧
      (∀ s, after T pq rs n = .ok s → s.more = false → 1 ≤ s.g.toNat ∧ s.g.toNat ∣ pq.toNat) ∧
      ∀ f, decompose64bit T pq rs n = .ok f →
        f.p ≤ f.q0 ∧ f.p.toNat * f.q0.toNat = pq.toNat ∧ mathTestOn T pq rs n = .ok 0 := by
  obtain ⟨s, hs, -⟩ := after_spec T rs hpq n
  refine ⟨?_, ?_, fun t ht hm => g_of_left hpq ht hm, ?_⟩
  · rw [hs]
    exact fun h => nomatch h
  · rw [decompose64bit_eq hpq hs]
    split_ifs <;> exact fun h => nomatch h
  · intro f hf
    have htest := mathTestOn_of_ok hpq hf
    obtain ⟨t, ht, hm, rfl⟩ := decompose64bit_ok hpq hf
    exact ⟨ordered_le pq t.g, ordered_mul (g_of_left hpq ht hm).2, htest⟩

def sampleTarget : Target where
  shl n := Int32.ofInt (2 ^ n)
  shl_eq := by decide

theorem factors_sound_fifteen :
    decompose64bit sampleTarget 15 (fun _ => 1) 1 = .ok ⟨0, 3, 5⟩ ∧
      (3 : UInt64) ≤ 5 ∧ mathTestOn sampleTarget 15 (fun _ => 1) 1 = .ok 0 := by
  have hrun : decompose64bit sampleTarget 15 (fun _ => 1) 1 = .ok ⟨0, 3, 5⟩ := by decide +kernel
  obtain ⟨-, -, -, hok⟩ := @factors_sound 15 sampleTarget (by decide) (fun _ => 1) 1
  obtain ⟨hle, -, htest⟩ := hok _ hrun
  exact ⟨hrun, hle, htest⟩

end Nrf9160.Factor
