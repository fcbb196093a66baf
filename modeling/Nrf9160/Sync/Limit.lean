import Nrf9160.Sync.Semaphore

/-! The limit of a semaphore. `nrf_modem_os_sem_init` is given one, and nothing keeps it. -/

namespace Nrf9160.Semaphore

variable {Id : Type} [DecidableEq Id]

def nrfModemOsSemInit (s : State Id) (initialCount _limit : UInt32) : State Id :=
  { s with count := initialCount.toNat }

/-- The steps of the semaphore with a kernel that may also wake a waiter by a give, which
then adds no unit. -/
inductive PoolAction (Id : Type) where
  | os (a : Action Id)
  | wake (i : Id)
  deriving DecidableEq

def poolStep (K : Clock) (s : State Id) : PoolAction Id → Option (State Id)
  | .os a => step K s a
  | .wake i => match s.call i with
    | some (.waiting _ k) => some (s.setCall i (some (.running (k K.taken))))
    | _ => none

def PoolAction.isInit : PoolAction Id → Bool
  | .os (.init _) => true
  | _ => false

def Action.noGive : Action Id → Bool
  | .init _ => false
  | .give => false
  | _ => true

def obtains (s : State Id) : Action Id → Bool
  | .take _ _ => 0 < s.count
  | .resume _ => true
  | _ => false

def countTakes (n : ℕ) (s : State Id) (a : Action Id) : ℕ := if obtains s a then n + 1 else n

/-- The count is within the limit, and no more takes than the limit succeed from here on
before the next give. -/
def Limited (K : Clock) (limit : UInt32) (s : State Id) : Prop :=
  s.count ≤ limit.toNat ∧
    ∀ as t n, (∀ a ∈ as, a.noGive = true) →
      Schedule.run (Schedule.ghost (step K) countTakes) (s, 0) as = some (t, n) →
        n ≤ limit.toNat

/-- A give that adds a unit comes when there is room for it. -/
def RoomForGive (limit : UInt32) (s : State Id) (a : PoolAction Id) : Prop :=
  a = .os .give → s.count < limit.toNat

instance (limit : UInt32) (s : State Id) (a : PoolAction Id) : Decidable (RoomForGive limit s a) :=
  inferInstanceAs (Decidable (_ → _))

variable {K : Clock} {s t : State Id} {i : Id} {a : Action Id} {as : List (Action Id)}
  {limit initialCount : UInt32} {n m : ℕ}

theorem count_of_step (hs : step K s a = some t) (ha : a.noGive = true) :
    t.count + countTakes n s a = s.count + n := by
  cases a with
  | init c => cases ha
  | give => cases ha
  | tick =>
    cases hs
    rfl
  | take i timeout =>
    obtain ⟨-, rfl⟩ := take_eq_some hs
    rw [begin_take, countTakes, obtains]
    split_ifs with hc hd
    · show s.count - 1 + (n + 1) = s.count + n
      omega
    · exact absurd (decide_eq_true hc) hd
    · exact absurd (of_decide_eq_true (by assumption)) hc
    · rfl
  | resume i =>
    cases moves_of_own (i := i) hs (decide_eq_true rfl) with
    | resume d k hc hpos =>
      show s.count - 1 + (n + 1) = s.count + n
      omega
  | expire i =>
    cases moves_of_own (i := i) hs (decide_eq_true rfl) with
    | expire d k hc hle => rfl
  | ret i r =>
    cases moves_of_own (i := i) hs (decide_eq_true rfl) with
    | ret r hc => rfl

theorem count_of_run (has : ∀ a ∈ as, a.noGive = true)
    (h : Schedule.run (Schedule.ghost (step K) countTakes) (s, n) as = some (t, m)) :
    t.count + m = s.count + n := by
  induction as generalizing s n with
  | nil =>
    cases h
    rfl
  | cons a as ih =>
    obtain ⟨⟨v, k⟩, hv, hrun⟩ := Schedule.run_cons_eq_some.mp h
    obtain ⟨hstep, rfl⟩ := Schedule.ghost_eq_some.mp hv
    obtain ⟨ha, has⟩ := List.forall_mem_cons.mp has
    rw [ih has hrun]
    exact count_of_step hstep ha

theorem limited_of_count (h : s.count ≤ limit.toNat) : Limited K limit s := by
  refine ⟨h, fun as t n has hrun => ?_⟩
  have hcount := count_of_run has hrun
  omega

theorem count_le_of_step {b : PoolAction Id} (hs : poolStep K s b = some t)
    (hi : b.isInit = false) (hg : b ≠ .os .give) : t.count ≤ s.count := by
  cases b with
  | wake i =>
    simp only [poolStep] at hs
    split at hs
    · cases hs
      exact le_rfl
    · cases hs
  | os a =>
    have ha : a.noGive = true := by
      cases a with
      | init c => cases hi
      | give => exact absurd rfl hg
      | _ => rfl
    have hcount := count_of_step (n := 0) hs ha
    omega

/-- After an `init` within the limit, the limit is kept in just the runs in which no give
adds a unit to a count that is at the limit. -/
theorem limited_iff (K : Clock) (s : State Id) (h0 : initialCount ≤ limit)
    {bs : List (PoolAction Id)} (hbs : ∀ b ∈ bs, b.isInit = false) :
    Schedule.Always (poolStep K) (Limited K limit) (nrfModemOsSemInit s initialCount limit) bs ↔
      Schedule.Steps (poolStep K) (RoomForGive limit) (nrfModemOsSemInit s initialCount limit)
        bs := by
  apply Schedule.always_iff_steps (I := fun s : State Id => s.count ≤ limit.toNat)
    (q := fun b => b.isInit = false)
  · exact fun _ => limited_of_count
  · intro s b t hi hle hroom hs
    by_cases hb : b = .os .give
    · subst hb
      cases hs
      exact hroom rfl
    · exact (count_le_of_step hs hi hb).trans hle
  · rintro s b t hi - hs hlimited rfl
    cases hs
    exact hlimited.1
  · exact hbs
  · exact UInt32.le_iff_toNat_le.mp h0

theorem limited_iff_sample : Schedule.Always (poolStep sampleClock) (Limited sampleClock 1)
    (nrfModemOsSemInit sampleState 0 1) [.os .give, .os (.take 1 5), .os .give] := by
  have hsteps : Schedule.Steps (poolStep sampleClock) (RoomForGive 1)
      (nrfModemOsSemInit sampleState 0 1) [.os .give, .os (.take 1 5), .os .give] := by
    decide
  exact (limited_iff sampleClock sampleState (by decide) (by decide)).mpr hsteps

/-- A give to a semaphore that is full. -/
theorem give_exceeds_limit : ¬∀ (initialCount limit : UInt32) (bs : List (PoolAction ℕ)),
    initialCount ≤ limit → (∀ b ∈ bs, b.isInit = false) →
      Schedule.Always (poolStep sampleClock) (Limited sampleClock limit)
        (nrfModemOsSemInit sampleState initialCount limit) bs := by
  intro hall
  have halways := hall 1 1 [.os .give] (by decide) (by decide)
  exact absurd (halways.2 _ rfl).1 (by decide)

end Nrf9160.Semaphore
