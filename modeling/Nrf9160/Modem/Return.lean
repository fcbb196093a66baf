import Nrf9160.Modem.Clock
import Nrf9160.Modem.ReturnCodes
import Nrf9160.Modem.Wakeup

/-! When a call of `nrf_modem_os_timedwait` comes back: always where its wait has a deadline,
and otherwise after the first notify or shutdown that finds it on the list. -/

namespace Nrf9160.Modem

variable {Ptr : Type}

def Timed.rank (p : Ptr) (x : Timed Ptr) : ℕ := ((x.state.call p).map fun c => c.pt.rank).getD 0

variable {C : ClockEnv Ptr} {x y : Timed Ptr} {a : TimedAction Ptr} {b : Action Ptr} {p q : Ptr}
  {c c' : Call} {as : List (TimedAction Ptr)} {context : UInt32} {val : Int32} {r : ℤ}

theorem rank_of_call (hc : x.state.call p = some c) : x.rank p = c.pt.rank := by
  rw [Timed.rank, hc]
  rfl

section

variable [DecidableEq Ptr]

/-- The call at `p` returns in every run in which it is not kept from its next step for ever
and the clock goes on. -/
def Timed.Finishes (C : ClockEnv Ptr) (x : Timed Ptr) (p : Ptr) (context : UInt32)
    (val : Int32) : Prop :=
  ∀ b : Schedule.Behaviour (timedStep C), b.state 0 = x →
    b.action 0 = .run (.call p context val) → b.Fair (TimedAction.advances p) →
    (∀ T, ∃ n, T ≤ (b.state n).now) → ∃ n r, b.action n = .run (.ret p r)

theorem action_advances (hpt : c.pt ≠ .wait) :
    TimedAction.advances p (.run (c.pt.action p)) ∧ (c.pt.action p).isWait = false := by
  cases hp : c.pt with
  | wait => exact absurd hp hpt
  | _ => exact ⟨⟨decide_eq_true rfl, fun _ _ he => by cases he⟩, rfl⟩

/-- A call can go on unless it is asleep without a unit and before its deadline. -/
theorem advance_enabled (hc : x.state.call p = some c)
    (h : ∀ d, x.asleep p = some d → 0 < x.state.sem p ∨ x.due d = true) :
    ∃ a y, a.advances p ∧ timedStep C x a = some y := by
  by_cases hpt : c.pt = .wait
  · obtain ⟨t, ht⟩ := enabled_of_call (E := C.toEnv) hc
    rw [hpt] at ht
    cases hd : x.asleep p with
    | none =>
      by_cases hp : 0 < x.state.sem p
      · refine ⟨.sleep p, { x with state := t }, rfl, ?_⟩
        simp only [timedStep, hc, Option.bind_some, hpt, hd, and_self, if_true, if_pos hp]
        exact congrArg (Option.map _) ht
      · refine ⟨.sleep p, x.setAsleep p (some (x.deadline C (tmout c.val))), rfl, ?_⟩
        simp only [timedStep, hc, Option.bind_some, hpt, hd, and_self, if_true, if_neg hp]
    | some d =>
      refine ⟨.wake p, { x with state := t }.setAsleep p none, rfl, ?_⟩
      simp only [timedStep, hd, Option.bind_some, if_pos (h d hd)]
      exact congrArg (Option.map _) ht
  · obtain ⟨t, ht⟩ := enabled_of_call (E := C.toEnv) hc
    obtain ⟨ha, hw⟩ := action_advances (p := p) hpt
    refine ⟨.run (c.pt.action p), { x with state := t }, ha, ?_⟩
    simp only [timedStep, hw, Bool.false_eq_true, if_false]
    exact congrArg (Option.map _) ht

/-- What the next step of a call does: it returns, it falls asleep, or it takes the step that
is next without the clock. -/
theorem advance_cases (hset : x.Settled) (hs : timedStep C x a = some y) (ha : a.advances p)
    (hc : x.state.call p = some c) :
    (∃ r, c.pt = .ret r ∧ a = .run (.ret p r)) ∨
      (c.pt = .wait ∧ x.asleep p = none ∧ x.state.sem p = 0 ∧
        y = x.setAsleep p (some (x.deadline C (tmout c.val)))) ∨
      (∀ r, c.pt ≠ .ret r) ∧ step C.toEnv x.state (c.pt.action p) = some y.state ∧
        y.asleep p = none := by
  cases a with
  | run b =>
    obtain ⟨hw, hb, -, hasl⟩ := run_eq_some hs
    obtain rfl := own_action hb ha.1 hc
    by_cases hr : ∃ r, c.pt = .ret r
    · obtain ⟨r, hr⟩ := hr
      refine .inl ⟨r, hr, ?_⟩
      rw [hr, Point.action]
    · have hpt : c.pt ≠ .wait := fun he => by rw [he] at hw; cases hw
      exact .inr (.inr ⟨fun r he => hr ⟨r, he⟩, hb, hasl ▸ asleep_of_pt hset hc hpt⟩)
  | sleep q =>
    obtain rfl : q = p := ha
    obtain ⟨d, hd, hpt, hn, hy⟩ := sleep_eq_some hs
    obtain rfl : c = d := Option.some.inj (hc.symm.trans hd)
    rcases hy with ⟨-, hb, -, hasl⟩ | ⟨hz, rfl⟩
    · refine .inr (.inr ⟨fun r he => ?_, ?_, hasl ▸ hn⟩)
      · rw [hpt] at he
        cases he
      · rwa [hpt]
    · exact .inr (.inl ⟨hpt, hn, hz, rfl⟩)
  | wake q =>
    obtain rfl : q = p := ha
    obtain ⟨d, hd, -, hb, -, hasl⟩ := wake_eq_some hs
    obtain ⟨e, he, hpt⟩ := hset q (by simp [hd])
    obtain rfl : c = e := Option.some.inj (hc.symm.trans he)
    refine .inr (.inr ⟨fun r he => ?_, ?_, hasl ▸ Function.update_self ..⟩)
    · rw [hpt] at he
      cases he
    · rwa [hpt]
  | tick => exact absurd ha id

/-- Steps of others leave a call where it stands. -/
theorem stays_of_not_advances (hs : timedStep C x a = some y) (ha : ¬a.advances p)
    (hc : x.state.call p = some c) :
    y.state.call p = some c ∧ y.asleep p = x.asleep p ∧ x.now ≤ y.now := by
  cases a with
  | run b =>
    obtain ⟨-, hb, hn, hasl⟩ := run_eq_some hs
    have ho : b.own p = false := by
      by_contra ho
      refine ha ⟨eq_true_of_ne_false ho, ?_⟩
      rintro context timeout rfl
      cases (call_none_of_step hb).symm.trans hc
    exact ⟨(step_call_of_not_own hb ho).trans hc, congrFun hasl p, le_of_eq hn.symm⟩
  | sleep q =>
    have hne : p ≠ q := fun he => ha he.symm
    obtain ⟨-, -, -, -, ⟨-, hb, hn, hasl⟩ | ⟨-, rfl⟩⟩ := sleep_eq_some hs
    · have ho : (Action.wait q).own p = false := decide_eq_false (Ne.symm hne)
      exact ⟨(step_call_of_not_own hb ho).trans hc, congrFun hasl p, le_of_eq hn.symm⟩
    · exact ⟨hc, Function.update_of_ne hne .., le_rfl⟩
  | wake q =>
    have hne : p ≠ q := fun he => ha he.symm
    obtain ⟨-, -, -, hb, hn, hasl⟩ := wake_eq_some hs
    have ho : (Action.wait q).own p = false := decide_eq_false (Ne.symm hne)
    refine ⟨(step_call_of_not_own hb ho).trans hc, ?_, le_of_eq hn.symm⟩
    rw [hasl]
    exact Function.update_of_ne hne ..
  | tick =>
    cases hs
    exact ⟨hc, rfl, Nat.le_succ _⟩

section

variable {b : Schedule.Behaviour (timedStep C : Timed Ptr → _ → _)} {n : ℕ}

/-- The call at `p` is not asleep. -/
def Timed.Up (p : Ptr) (val : Int32) (bound : ℕ) (x : Timed Ptr) : Prop :=
  x.Settled ∧ x.asleep p = none ∧ ∃ c, x.state.call p = some c ∧ c.val = val ∧ c.pt.rank < bound

/-- A call that is not asleep returns or falls asleep. -/
theorem returns_or_sleeps {bound : ℕ} (hf : b.Fair (TimedAction.advances p))
    (hn : (b.state n).Up p val bound) :
    ∃ m, n ≤ m ∧ ((∃ r, b.action m = .run (.ret p r)) ∨ 3 < bound ∧ (b.state (m + 1)).Settled ∧
      (∃ c, (b.state (m + 1)).state.call p = some c) ∧
      (b.state (m + 1)).asleep p = some ((b.state m).deadline C (tmout val))) := by
  refine b.reaches hf (fun r x => x.Up p val bound ∧ x.rank p = r) ⟨hn, rfl⟩ ?_ ?_ ?_
  · rintro m - r ⟨⟨hset, hn, c, hc, hv, hlt⟩, rfl⟩ ha
    obtain ⟨hc', hasl, -⟩ := stays_of_not_advances (b.next m) ha hc
    refine .inr ⟨⟨settled_step hset (b.next m), hasl.trans hn, c, hc', hv, hlt⟩, ?_⟩
    rw [rank_of_call hc, rank_of_call hc']
  · rintro m - r ⟨⟨hset, hn, c, hc, rfl, hlt⟩, rfl⟩ ha
    have hset' := settled_step hset (b.next m)
    rcases advance_cases hset (b.next m) ha hc with ⟨r, -, hr⟩ | ⟨hpt, -, -, hy⟩ | ⟨hr, hs, hasl⟩
    · exact .inl (.inl ⟨r, hr⟩)
    · rw [hy] at hset' ⊢
      rw [hpt] at hlt
      exact .inl (.inr ⟨hlt, hset', ⟨c, hc⟩, Function.update_self ..⟩)
    · obtain ⟨c', hc', hv, hlt'⟩ := call_of_own hs hc hr
      refine .inr ⟨_, ?_, ⟨hset', hasl, c', hc', hv, Nat.lt_trans hlt' hlt⟩, rfl⟩
      rwa [rank_of_call hc, rank_of_call hc']
  · rintro m - r ⟨⟨-, hn, c, hc, -⟩, -⟩
    refine advance_enabled hc fun d hd => ?_
    rw [hn] at hd
    cases hd

theorem returns_of_awake (hf : b.Fair (TimedAction.advances p)) (hn : (b.state n).Up p val 3) :
    ∃ m r, b.action m = .run (.ret p r) := by
  obtain ⟨m, -, ⟨r, hr⟩ | ⟨hlt, -⟩⟩ := returns_or_sleeps hf hn
  · exact ⟨m, r, hr⟩
  · exact absurd hlt (Nat.lt_irrefl 3)

theorem now_le_of_timedStep (hs : timedStep C x a = some y) : x.now ≤ y.now := by
  cases a with
  | run b => exact le_of_eq (run_eq_some hs).2.2.1.symm
  | sleep q =>
    obtain ⟨-, -, -, -, ⟨-, -, hn, -⟩ | ⟨-, rfl⟩⟩ := sleep_eq_some hs
    · exact le_of_eq hn.symm
    · exact le_rfl
  | wake q =>
    obtain ⟨-, -, -, -, hn, -⟩ := wake_eq_some hs
    exact le_of_eq hn.symm
  | tick =>
    cases hs
    exact Nat.le_succ _

/-- The call at `p` is in a wait with this deadline. -/
def Timed.Asleep (p : Ptr) (d : ℕ) (x : Timed Ptr) : Prop :=
  x.Settled ∧ x.asleep p = some (some d) ∧ ∃ c, x.state.call p = some c

theorem asleep_step {d : ℕ} (h : x.Asleep p d) (ha : ¬a.advances p)
    (hs : timedStep C x a = some y) : y.Asleep p d ∧ x.now ≤ y.now := by
  obtain ⟨hset, hd, c, hc⟩ := h
  obtain ⟨hc', hasl, hn⟩ := stays_of_not_advances hs ha hc
  exact ⟨⟨settled_step hset hs, hasl.trans hd, c, hc'⟩, hn⟩

theorem returns_of_asleep {d : ℕ} (hf : b.Fair (TimedAction.advances p))
    (ht : ∀ T, ∃ n, T ≤ (b.state n).now) (hn : (b.state n).Asleep p d) :
    ∃ m r, b.action m = .run (.ret p r) := by
  have hend : ∃ j, (b.state j).Asleep p d ∧ (b.action j).advances p := by
    obtain ⟨N, hN⟩ := ht d
    have hmax : d ≤ (b.state (max n N)).now :=
      b.keeps (P := fun x => d ≤ x.now) (fun _ _ _ hx hs => le_trans hx (now_le_of_timedStep hs))
        hN _ (le_max_right n N)
    rcases b.keeps_or_ends hn (fun _ _ _ hx ha hs => (asleep_step hx ha hs).1) (max n N)
      (le_max_left n N) with hw | ⟨j, -, hj, ha⟩
    · -- past the deadline the call can go on in every state
      obtain ⟨j, -, hj, ha⟩ := b.ends hf (P := fun x => x.Asleep p d ∧ d ≤ x.now) ⟨hw, hmax⟩
        (fun _ _ _ hx ha hs =>
          ⟨(asleep_step hx.1 ha hs).1, le_trans hx.2 (asleep_step hx.1 ha hs).2⟩) <| by
        rintro x ⟨⟨-, hd, c, hc⟩, hle⟩
        refine advance_enabled hc fun e he => .inr ?_
        rw [hd] at he
        cases he
        exact decide_eq_true hle
      exact ⟨j, hj.1, ha⟩
    · exact ⟨j, hj, ha⟩
  obtain ⟨j, ⟨hset, hd, c, hc⟩, ha⟩ := hend
  obtain ⟨e, he, hpt⟩ := hset p (by simp [hd])
  obtain rfl : c = e := Option.some.inj (hc.symm.trans he)
  rcases advance_cases hset (b.next j) ha hc with ⟨r, hr, -⟩ | ⟨-, hasl, -⟩ | ⟨hr, hs, hasl⟩
  · rw [hpt] at hr
    cases hr
  · rw [hd] at hasl
    cases hasl
  · obtain ⟨c', hc', hv, hlt⟩ := call_of_own hs hc hr
    rw [hpt] at hlt
    exact returns_of_awake hf ⟨settled_step hset (b.next j), hasl, c', hc', rfl, hlt⟩

end

theorem finishes_of_deadline (h : x.Reached C) (hv : tmout val ≠ 0) :
    x.Finishes C p context val := by
  intro b h0 ha hf ht
  have hs := b.next 0
  rw [h0, ha] at hs
  obtain ⟨-, hb, -, hasl⟩ := run_eq_some hs
  have hset := settled_step h.settled hs
  have hcall : (b.state 1).state.call p = some { context, val } := by
    obtain ⟨-, he⟩ := Option.ite_none_right_eq_some.mp hb
    rw [← Option.some.inj he, setCall_call_self]
  have hup : (b.state 1).Up p val 7 :=
    ⟨hset, asleep_of_pt hset hcall (by simp), _, hcall, rfl, Nat.lt_succ_self 6⟩
  obtain ⟨m, -, ⟨r, hr⟩ | ⟨-, hset', hc, hd⟩⟩ := returns_or_sleeps hf hup
  · exact ⟨m, r, hr⟩
  · rw [Timed.deadline, if_neg hv] at hd
    exact returns_of_asleep hf ht ⟨hset', hd, hc⟩

theorem finishes_of_poll (h : x.Reached C) : x.Finishes C p context 0 := by
  intro b h0 ha hf ht
  have hs := b.next 0
  rw [h0, ha] at hs
  obtain ⟨-, hb, -⟩ := run_eq_some hs
  have hcall : (b.state 1).state.call p = some { context, val := 0 } := by
    obtain ⟨-, he⟩ := Option.ite_none_right_eq_some.mp hb
    rw [← Option.some.inj he, setCall_call_self]
  obtain ⟨j, -, ⟨hset, hc⟩, hown⟩ := b.ends hf
    (P := fun x => x.Settled ∧ x.state.call p = some { context, val := 0 })
    ⟨settled_step h.settled hs, hcall⟩
    (fun _ _ _ hx ha hs => ⟨settled_step hx.1 hs, (stays_of_not_advances hs ha hx.2).1⟩) <| by
    rintro x ⟨hset, hc⟩
    refine advance_enabled hc fun d hd => ?_
    rw [asleep_of_pt hset hc (by simp)] at hd
    cases hd
  have hset' := settled_step hset (b.next j)
  -- the entry check decides between the two early returns
  have hup : (b.state (j + 1)).Up p 0 3 := by
    cases hact : b.action j with
    | run d =>
      rw [hact] at hown
      obtain ⟨-, hd, -, hasl⟩ := run_eq_some (hact ▸ b.next j)
      obtain rfl : d = .check p := own_action hd hown.1 hc
      obtain ⟨e, he, -, ht⟩ := atPoint_eq_some.mp hd
      obtain rfl := Option.some.inj (hc.symm.trans he)
      have hc' : (b.state (j + 1)).state.call p = some ⟨context, 0, 0,
          entryPoint C.toKernel (b.state j).state.initialized 0⟩ := by
        rw [← ht, setCall_call_self]
      refine ⟨hset', ?_, _, hc', rfl, ?_⟩
      · rw [hasl]
        exact asleep_of_pt hset hc (by simp)
      · unfold entryPoint
        rw [if_pos (rfl : (0 : Int32) = 0)]
        split_ifs
        · exact Nat.zero_lt_succ 2
        · exact Nat.lt_succ_of_lt (Nat.lt_succ_self 1)
    | sleep q =>
      obtain ⟨e, he, hpt, -⟩ := sleep_eq_some (hact ▸ b.next j)
      rw [hact] at hown
      obtain rfl : q = p := hown
      obtain rfl := Option.some.inj (hc.symm.trans he)
      cases hpt
    | wake q =>
      obtain ⟨d, hd, -⟩ := wake_eq_some (hact ▸ b.next j)
      rw [hact] at hown
      obtain rfl : q = p := hown
      rw [asleep_of_pt hset hc (by simp)] at hd
      cases hd
    | tick =>
      rw [hact] at hown
      exact absurd hown id
  exact returns_of_awake hf hup

/-! A call whose timeout comes out as 0 in the argument of the kernel, and nobody to wake it. -/

theorem timedStep_run (hw : b.isWait = false) {t : State Ptr}
    (hb : step C.toEnv x.state b = some t) :
    timedStep C x (.run b) = some { x with state := t } := by
  rw [timedStep, hw, if_neg Bool.false_ne_true, hb]
  rfl

def fallForGood (p : Ptr) (context : UInt32) (val : Int32) : List (TimedAction Ptr) :=
  [.run (.call p context val), .run (.setInitialized true), .run (.check p), .run (.setup p),
    .run (.append p), .sleep p]

theorem exists_fallForGood (hp : p ≠ C.NULL ∧ p ≠ C.sleepingThreadList)
    (hc : x.state.call p = none) (hd : x.asleep p = none) (hv : val ≠ 0) (h0 : tmout val = 0) :
    ∃ y, Schedule.run (timedStep C) x (fallForGood p context val) = some y ∧
      y.asleep p = some none ∧ y.state.sem p = 0 ∧
      ∃ c, y.state.call p = some c ∧ c.pt = .wait := by
  let c : Call := { context, val }
  let s₁ := x.state.setCall p (some c)
  have h₁ : step C.toEnv x.state (.call p context val) = some s₁ := if_pos ⟨hp.1, hp.2, hc⟩
  let s₂ : State Ptr := { s₁ with initialized := true }
  have hc₂ : s₂.call p = some c := setCall_call_self _
  let s₃ := s₂.setCall p (some { c with pt := .setup })
  have h₃ : step C.toEnv s₂ (.check p) = some s₃ := by
    refine atPoint_eq_some.mpr ⟨c, hc₂, rfl, ?_⟩
    have hpt : entryPoint C.toKernel s₂.initialized c.val = .setup := if_neg hv
    rw [hpt]
  have hc₃ : s₃.call p = some { c with pt := .setup } := setCall_call_self _
  let s₄ := (s₃.setupTd C.toEnv p context).setCall p (some { c with pt := .append })
  have h₄ : step C.toEnv s₃ (.setup p) = some s₄ := atPoint_eq_some.mpr ⟨_, hc₃, rfl, rfl⟩
  have hc₄ : s₄.call p = some { c with pt := .append } := setCall_call_self _
  let s₅ := { s₄ with links := C.list.append s₄.links C.sleepingThreadList p }.setCall p
    (some { c with pt := .wait })
  have h₅ : step C.toEnv s₄ (.append p) = some s₅ := atPoint_eq_some.mpr ⟨_, hc₄, rfl, rfl⟩
  have hc₅ : s₅.call p = some { c with pt := .wait } := setCall_call_self _
  have hsem : s₅.sem p = 0 := Function.update_self (f := s₃.sem) ..
  let y := { x with state := s₅ }.setAsleep p (some none)
  have h₆ : timedStep C { x with state := s₅ } (.sleep p) = some y := by
    have hdl : ({ x with state := s₅ } : Timed Ptr).deadline C (tmout val) = none := if_pos h0
    simp only [timedStep, hc₅, Option.bind_some, hd, and_self, if_true, hsem, Nat.lt_irrefl,
      if_false]
    exact congrArg (fun d => some (({ x with state := s₅ } : Timed Ptr).setAsleep p (some d))) hdl
  refine ⟨y, ?_, Function.update_self .., hsem, _, hc₅, rfl⟩
  refine Schedule.run_cons_eq_some.mpr ⟨_, timedStep_run rfl h₁, ?_⟩
  refine Schedule.run_cons_eq_some.mpr ⟨_, timedStep_run rfl rfl, ?_⟩
  refine Schedule.run_cons_eq_some.mpr ⟨_, timedStep_run rfl h₃, ?_⟩
  refine Schedule.run_cons_eq_some.mpr ⟨_, timedStep_run rfl h₄, ?_⟩
  refine Schedule.run_cons_eq_some.mpr ⟨_, timedStep_run rfl h₅, ?_⟩
  exact Schedule.run_cons_eq_some.mpr ⟨_, h₆, rfl⟩

/-- Nothing happens any more but the clock. -/
def ticking (C : ClockEnv Ptr) (x : Timed Ptr) : Schedule.Behaviour (timedStep C) where
  state n := { x with now := x.now + n }
  action _ := .tick
  next _ := rfl

theorem not_advances_of_asleep (hset : x.Settled) (hd : x.asleep p = some none)
    (hsem : x.state.sem p = 0) (hs : timedStep C x a = some y) : ¬a.advances p := by
  intro ha
  obtain ⟨c, hc, hpt⟩ := hset p (by simp [hd])
  cases a with
  | run b =>
    obtain ⟨hw, hb, -⟩ := run_eq_some hs
    cases (own_of_point hb hw hc hpt).symm.trans ha.1
  | sleep q =>
    obtain rfl : q = p := ha
    obtain ⟨-, -, -, hn, -⟩ := sleep_eq_some hs
    rw [hd] at hn
    cases hn
  | wake q =>
    obtain rfl : q = p := ha
    obtain ⟨d, hd', hend, -⟩ := wake_eq_some hs
    obtain rfl : none = d := Option.some.inj (hd.symm.trans hd')
    rcases hend with hpos | hdue
    · exact absurd hsem (Nat.ne_of_gt hpos)
    · cases hdue
  | tick => exact ha

theorem not_finishes_of_no_deadline (h : x.Reached C)
    (hp : p ≠ C.NULL ∧ p ≠ C.sleepingThreadList) (hc : x.state.call p = none) (hv : val ≠ 0)
    (h0 : tmout val = 0) : ¬x.Finishes C p context val := by
  intro hfin
  have hd : x.asleep p = none := by
    by_contra hn
    obtain ⟨c, hc', -⟩ := h.settled p hn
    rw [hc] at hc'
    cases hc'
  obtain ⟨y, hy, hdy, hsem, -⟩ :
      ∃ y, Schedule.run (timedStep C) x (fallForGood p context val) = some y ∧ _ :=
    exists_fallForGood hp hc hd hv h0
  have hset : y.Settled := Schedule.run_invariant (fun _ _ _ hx hs => settled_step hx hs)
    h.settled hy
  obtain ⟨b, hact, hst, htail⟩ := (ticking C y).exists_append hy
  have hb0 : b.state 0 = x := (Option.some.inj (hst 0 (Nat.zero_le _))).symm
  have hlen : (fallForGood p context val).length = 6 := rfl
  rw [hlen] at htail
  have hfair : b.Fair (TimedAction.advances p) := by
    -- from its sleep on the call is never able to take a step, so it is owed none
    intro n hen
    obtain ⟨a, t, ha, hs⟩ := hen (6 + n) (Nat.le_add_left n 6)
    rw [(htail n).1] at hs
    exact absurd ha (not_advances_of_asleep (x := (ticking C y).state n) hset hdy hsem hs)
  have htime : ∀ T, ∃ n, T ≤ (b.state n).now := by
    intro T
    refine ⟨6 + T, ?_⟩
    rw [(htail T).1]
    exact Nat.le_add_left T _
  obtain ⟨n, r, hr⟩ := hfin b hb0 (Option.some.inj (hact 0 (Nat.zero_lt_succ 5))).symm hfair htime
  by_cases hn : n < 6
  · have hm := List.mem_of_getElem? (hact n hn)
    rw [hr] at hm
    simp [fallForGood] at hm
  · obtain ⟨m, rfl⟩ := Nat.exists_eq_add_of_le (Nat.le_of_not_lt hn)
    rw [(htail m).2] at hr
    cases hr

theorem tmout_eq_zero_iff : tmout val = 0 ↔ 0 ≤ val ∧ val.toInt % 2 ^ 29 = 0 := by
  unfold tmout
  split_ifs with hv
  · refine ⟨fun h => absurd h (by decide), fun h => absurd hv (Int32.not_lt.mpr h.1)⟩
  · rw [Semaphore.mul_thousand_eq_zero_iff, and_iff_right (Int32.not_lt.mp hv)]

/-- A call of `nrf_modem_os_timedwait` comes back for certain, whatever the rest of the system
does or leaves undone, exactly when it is a poll or its timeout leaves the kernel a deadline. -/
theorem finishes_iff (h : x.Reached C) (hp : p ≠ C.NULL ∧ p ≠ C.sleepingThreadList)
    (hc : x.state.call p = none) :
    x.Finishes C p context val ↔ val ≤ 0 ∨ val.toInt % 2 ^ 29 ≠ 0 := by
  constructor
  · intro hfin
    by_contra hno
    obtain ⟨hpos, h0⟩ := not_or.mp hno
    have hpos : 0 < val := Int32.not_le.mp hpos
    refine not_finishes_of_no_deadline h hp hc ?_ ?_ hfin
    · rintro rfl
      exact absurd hpos (by decide)
    · exact tmout_eq_zero_iff.mpr ⟨Int32.le_of_lt hpos, not_not.mp h0⟩
  · intro hor
    by_cases hv : val = 0
    · subst hv
      exact finishes_of_poll h
    · refine finishes_of_deadline h fun h0 => ?_
      obtain ⟨hle, hz⟩ := tmout_eq_zero_iff.mp h0
      rcases hor with hneg | hne
      · exact hv (Int32.le_antisymm hneg hle)
      · exact hne hz

def sampleReady : Timed ℕ := { state := nrfModemOsInit sampleEnv sampleState }

theorem sampleReady_reached : sampleReady.Reached sampleClockEnv :=
  ⟨sampleTimed, [], fun _ => rfl, fun _ => rfl, fun _ h => absurd h List.not_mem_nil, rfl⟩

/-- A timeout of 2 ^ 29 ms is 0 in the argument of the kernel. -/
theorem finishes_iff_sample : ∃ x : Timed ℕ, x.Finishes sampleClockEnv 2 7 100 ∧
    ¬x.Finishes sampleClockEnv 2 7 536870912 := by
  have hiff (val : Int32) : sampleReady.Finishes sampleClockEnv 2 7 val ↔
      val ≤ 0 ∨ val.toInt % 2 ^ 29 ≠ 0 := finishes_iff sampleReady_reached (by decide) rfl
  refine ⟨sampleReady, (hiff 100).mpr (by decide), fun h => ?_⟩
  exact absurd ((hiff 536870912).mp h) (by decide)

end

/-! A call that has been posted to. -/

/-- What a call that was posted to returns, by the flag at its exit. -/
def postedCode (K : Kernel) (initialized : Bool) : ℤ := if initialized then 0 else -K.NRF_ESHUTDOWN

/-- The call has a unit to take or has taken one, and will return what a flag in `I` says. -/
def Caller.Posted (K : Kernel) (I : Bool → Prop) (k : Caller) : Prop :=
  ∃ c, k.call = some c ∧ (c.pt = .wait ∧ 0 < k.units ∨
    (c.pt = .remove ∨ c.pt = .recheck) ∧ c.err ≠ 0 ∨ ∃ i, I i ∧ c.pt = .ret (postedCode K i))

variable {k : Caller} {i : Bool} {I : Bool → Prop} {xs : List Ptr}

def Timed.Armed (C : ClockEnv Ptr) (p : Ptr) (I : Bool → Prop) (x : Timed Ptr) : Prop :=
  (∃ xs, Queue C.toEnv x.state xs) ∧ x.Settled ∧ (x.state.caller p).Posted C.toKernel I

/-- A call that is at its return has the code that its unit gives it. -/
theorem Timed.Armed.code (h : x.Armed C p I) (hc : x.state.call p = some c)
    (hpt : c.pt = .ret r) : ∃ i, I i ∧ r = postedCode C.toKernel i := by
  obtain ⟨d, hd, hw⟩ := h.2.2
  obtain rfl : c = d := Option.some.inj (hc.symm.trans hd)
  rw [hpt] at hw
  rcases hw with ⟨hr, -⟩ | ⟨hr | hr, -⟩ | ⟨i, hi, hr⟩
  · cases hr
  · cases hr
  · cases hr
  · exact ⟨i, hi, Point.ret.inj hr⟩

variable [DecidableEq Ptr]

end Nrf9160.Modem
