import Nrf9160.Lib.Behaviour
import Nrf9160.Modem.Caller
import Nrf9160.Sync.Semaphore

/-! The sleeping threads against the clock. A wait in `mdx_sem_timedwait` ends by a unit, or
by its deadline where its argument gives it one, and each run of this system is one of the
system without time. -/

namespace Nrf9160.Modem

/-- How long `mdx_sem_timedwait` waits for an argument that is not 0. -/
structure ClockEnv (Ptr : Type) extends Env Ptr where
  delay : Int32 → ℕ

/-- `asleep` holds the threads in the wait of the kernel, with the deadline if there is one. -/
structure Timed (Ptr : Type) where
  state : State Ptr
  now : ℕ := 0
  asleep : Ptr → Option (Option ℕ) := fun _ => none

/-- `sleep` is a call of `mdx_sem_timedwait` up to the first step of the kernel, which takes
a unit that is there, and `wake` the end of a wait. Every other step is a `run`. -/
inductive TimedAction (Ptr : Type) where
  | run (a : Action Ptr)
  | sleep (p : Ptr)
  | wake (p : Ptr)
  | tick
  deriving DecidableEq

variable {Ptr : Type}

def Action.isWait : Action Ptr → Bool
  | .wait _ => true
  | _ => false

/-- 0 is a wait without a deadline. -/
def Timed.deadline (C : ClockEnv Ptr) (x : Timed Ptr) (tmout : Int32) : Option ℕ :=
  if tmout = 0 then none else some (x.now + C.delay tmout)

def Timed.due (x : Timed Ptr) (deadline : Option ℕ) : Bool := deadline.any fun d => d ≤ x.now

/-- The actions that a run with the clock and one without it show alike. -/
def TimedAction.shown : TimedAction Ptr → List (Action Ptr)
  | .run a => [a]
  | _ => []

def Action.shown (a : Action Ptr) : List (Action Ptr) := if a.isWait then [] else [a]

variable {C : ClockEnv Ptr} {x y : Timed Ptr} {a : TimedAction Ptr} {b : Action Ptr} {p q : Ptr}
  {c : Call} {as : List (TimedAction Ptr)} {context : UInt32} {val : Int32} {r : ℤ}

theorem shown_of_not_wait (hw : b.isWait = false) : b.shown = [b] := by
  rw [Action.shown, hw, if_neg Bool.false_ne_true]

theorem mem_shown {bs : List (Action Ptr)} (hf : bs.flatMap Action.shown = as.flatMap
    TimedAction.shown) (hb : b ∈ bs) (hw : b.isWait = false) : .run b ∈ as := by
  have hm : b ∈ bs.flatMap Action.shown :=
    List.mem_flatMap.mpr ⟨b, hb, shown_of_not_wait hw ▸ List.mem_singleton_self b⟩
  rw [hf] at hm
  obtain ⟨a, ha, hba⟩ := List.mem_flatMap.mp hm
  cases a with
  | run d => exact List.mem_singleton.mp hba ▸ ha
  | sleep | wake | tick => cases hba

section

variable [DecidableEq Ptr]

def Timed.setAsleep (x : Timed Ptr) (p : Ptr) (d : Option (Option ℕ)) : Timed Ptr :=
  { x with asleep := Function.update x.asleep p d }

def timedStep (C : ClockEnv Ptr) (x : Timed Ptr) : TimedAction Ptr → Option (Timed Ptr)
  | .run a =>
    if a.isWait then none else (step C.toEnv x.state a).map fun s => { x with state := s }
  | .sleep p => (x.state.call p).bind fun c =>
    if c.pt = .wait ∧ x.asleep p = none then
      if 0 < x.state.sem p then
        (step C.toEnv x.state (.wait p)).map fun s => { x with state := s }
      else some (x.setAsleep p (some (x.deadline C (tmout c.val))))
    else none
  | .wake p => (x.asleep p).bind fun d =>
    if 0 < x.state.sem p ∨ x.due d then
      (step C.toEnv x.state (.wait p)).map fun s => { x with state := s }.setAsleep p none
    else none
  | .tick => some { x with now := x.now + 1 }

/-- A step of the call at `p` on its way to its return. -/
def TimedAction.advances (p : Ptr) : TimedAction Ptr → Prop
  | .run a => a.own p = true ∧ ∀ context timeout, a ≠ .call p context timeout
  | .sleep q => q = p
  | .wake q => q = p
  | .tick => False

theorem run_eq_some (hs : timedStep C x (.run b) = some y) :
    b.isWait = false ∧ step C.toEnv x.state b = some y.state ∧ y.now = x.now ∧
      y.asleep = x.asleep := by
  obtain ⟨hw, hs⟩ := Option.ite_none_left_eq_some.mp hs
  obtain ⟨s, hb, rfl⟩ := Option.map_eq_some_iff.mp hs
  exact ⟨eq_false_of_ne_true hw, hb, rfl, rfl⟩

theorem sleep_eq_some (hs : timedStep C x (.sleep p) = some y) :
    ∃ c, x.state.call p = some c ∧ c.pt = .wait ∧ x.asleep p = none ∧
      (0 < x.state.sem p ∧ step C.toEnv x.state (.wait p) = some y.state ∧ y.now = x.now ∧
          y.asleep = x.asleep ∨
        x.state.sem p = 0 ∧ y = x.setAsleep p (some (x.deadline C (tmout c.val)))) := by
  obtain ⟨c, hc, hs⟩ := Option.bind_eq_some_iff.mp hs
  obtain ⟨⟨hpt, hn⟩, hs⟩ := Option.ite_none_right_eq_some.mp hs
  refine ⟨c, hc, hpt, hn, ?_⟩
  split_ifs at hs with hp
  · obtain ⟨s, hb, rfl⟩ := Option.map_eq_some_iff.mp hs
    exact .inl ⟨hp, hb, rfl, rfl⟩
  · exact .inr ⟨Nat.eq_zero_of_not_pos hp, (Option.some.inj hs).symm⟩

theorem wake_eq_some (hs : timedStep C x (.wake p) = some y) :
    ∃ d, x.asleep p = some d ∧ (0 < x.state.sem p ∨ x.due d = true) ∧
      step C.toEnv x.state (.wait p) = some y.state ∧ y.now = x.now ∧
      y.asleep = Function.update x.asleep p none := by
  obtain ⟨d, hd, hs⟩ := Option.bind_eq_some_iff.mp hs
  obtain ⟨hp, hs⟩ := Option.ite_none_right_eq_some.mp hs
  obtain ⟨s, hb, rfl⟩ := Option.map_eq_some_iff.mp hs
  exact ⟨d, hd, hp, hb, rfl, rfl⟩

theorem timedStep_refines (hs : timedStep C x a = some y) :
    ∃ bs, Schedule.run (step C.toEnv) x.state bs = some y.state ∧
      bs.flatMap Action.shown = a.shown := by
  have single (b : Action Ptr) (h : step C.toEnv x.state b = some y.state)
      (hb : b.shown = a.shown) : ∃ bs, Schedule.run (step C.toEnv) x.state bs = some y.state ∧
        bs.flatMap Action.shown = a.shown := by
    refine ⟨[b], ?_, ?_⟩
    · rw [Schedule.run_singleton, h]
    · rw [List.flatMap_singleton, hb]
  cases a with
  | run b =>
    obtain ⟨hw, hb, -⟩ := run_eq_some hs
    exact single b hb (shown_of_not_wait hw)
  | sleep p =>
    obtain ⟨c, -, -, -, ⟨-, hb, -⟩ | ⟨-, rfl⟩⟩ := sleep_eq_some hs
    · exact single (.wait p) hb rfl
    · exact ⟨[], rfl, rfl⟩
  | wake p =>
    obtain ⟨d, -, -, hb, -⟩ := wake_eq_some hs
    exact single (.wait p) hb rfl
  | tick =>
    cases hs
    exact ⟨[], rfl, rfl⟩

/-- Only a call that stands at the wait is asleep. -/
def Timed.Settled (x : Timed Ptr) : Prop :=
  ∀ p, x.asleep p ≠ none → ∃ c, x.state.call p = some c ∧ c.pt = .wait

/-- The state comes after one `nrf_modem_os_init` and any steps but a further one. -/
def Timed.Reached (C : ClockEnv Ptr) (x : Timed Ptr) : Prop :=
  ∃ (x₀ : Timed Ptr) (pre : List (TimedAction Ptr)), x₀.state.Idle ∧ (∀ p, x₀.asleep p = none) ∧
    (∀ a ∈ pre, a ≠ .run .init) ∧ Schedule.run (timedStep C) x₀ (.run .init :: pre) = some x

/-- A wait that a call with this timeout began at `start` or later has come to its deadline. -/
def ClockEnv.Waited (C : ClockEnv Ptr) (start now : ℕ) (val : Int32) : Prop :=
  tmout val ≠ 0 ∧ start + C.delay (tmout val) ≤ now

/-- An action that posts to every queued call with this context. -/
def TimedAction.posts (context : UInt32) : TimedAction Ptr → Prop
  | .run (.notify c _) => c = context ∨ c = 0
  | .run (.shutdown _) => True
  | _ => False

/-- What the time `now` and the units say of a call that began at `start` and stands where it
does. `d` is its entry in `asleep`, and `posted` that a post for it has come since. -/
def Caller.Timely (C : ClockEnv Ptr) (start now : ℕ) (d : Option (Option ℕ)) (posted : Prop)
    (k : Caller) (c : Call) : Prop :=
  match c.pt with
  | .yield => c.val = 0
  | .wait => (0 < k.units → posted) ∧
      ∀ dl, d = some (some dl) → tmout c.val ≠ 0 ∧ start + C.delay (tmout c.val) ≤ dl
  | .remove => (c.err = 0 → C.Waited start now c.val) ∧ (c.err ≠ 0 → posted)
  | .recheck => (c.err = 0 → C.Waited start now c.val) ∧ (c.err ≠ 0 → posted)
  | .ret r => (r = -C.NRF_EAGAIN → c.val = 0 ∨ C.Waited start now c.val) ∧
      (r = 0 → posted ∨ c.val < 0 ∧ C.Waited start now c.val)
  | _ => True

/-- Every run with the clock is a run without it: the same actions outside of the wait, from
the same state to the same state, and the waits end where the kernel ends them. -/
theorem timed_refines (h : Schedule.run (timedStep C) x as = some y) :
    ∃ bs, Schedule.run (step C.toEnv) x.state bs = some y.state ∧
      bs.flatMap Action.shown = as.flatMap TimedAction.shown :=
  Schedule.run_refines Timed.state TimedAction.shown Action.shown
    (fun _ _ _ hs => timedStep_refines hs) h

theorem own_of_point (hs : step C.toEnv x.state b = some y.state) (hw : b.isWait = false)
    (hc : x.state.call p = some c) (hpt : c.pt = .wait) : b.own p = false := by
  by_contra ho
  have hb : b = c.pt.action p := own_action hs (eq_true_of_ne_false ho) hc
  rw [hb, hpt] at hw
  cases hw

theorem settled_step (h : x.Settled) (hs : timedStep C x a = some y) : y.Settled := by
  cases a with
  | run b =>
    obtain ⟨hw, hb, -, ha⟩ := run_eq_some hs
    intro p hp
    obtain ⟨c, hc, hpt⟩ := h p (ha ▸ hp)
    exact ⟨c, (step_call_of_not_own hb (own_of_point hb hw hc hpt)).trans hc, hpt⟩
  | sleep q =>
    obtain ⟨c, hc, hpt, hn, ⟨-, hb, -, ha⟩ | ⟨-, rfl⟩⟩ := sleep_eq_some hs
    · intro p hp
      have hne : p ≠ q := fun he => hp (ha ▸ he ▸ hn)
      obtain ⟨d, hd, hdpt⟩ := h p (ha ▸ hp)
      refine ⟨d, (step_call_of_not_own hb ?_).trans hd, hdpt⟩
      exact decide_eq_false (Ne.symm hne)
    · intro p hp
      by_cases hne : p = q
      · subst hne
        exact ⟨c, hc, hpt⟩
      · exact h p fun he => hp ((Function.update_of_ne hne ..).trans he)
  | wake q =>
    obtain ⟨d, -, -, hb, -, ha⟩ := wake_eq_some hs
    intro p hp
    have hne : p ≠ q := by
      rintro rfl
      exact hp (ha ▸ Function.update_self ..)
    rw [ha, Function.update_of_ne hne] at hp
    obtain ⟨c, hc, hpt⟩ := h p hp
    refine ⟨c, (step_call_of_not_own hb ?_).trans hc, hpt⟩
    exact decide_eq_false (Ne.symm hne)
  | tick =>
    cases hs
    exact h

theorem Timed.Reached.state_reached (h : x.Reached C) : x.state.Reached C.toEnv := by
  obtain ⟨x₀, pre, h0, -, hi, hr⟩ := h
  obtain ⟨y, hy, hr⟩ := Schedule.run_cons_eq_some.mp hr
  obtain ⟨-, hb, -⟩ := run_eq_some hy
  obtain ⟨bs, hbs, hf⟩ := timed_refines hr
  refine ⟨x₀.state, bs, h0, ?_, Schedule.run_cons_eq_some.mpr ⟨_, hb, hbs⟩⟩
  rintro b hm rfl
  exact hi _ (mem_shown hf hm rfl) rfl

theorem Timed.Reached.settled (h : x.Reached C) : x.Settled := by
  obtain ⟨x₀, pre, -, h0, -, hr⟩ := h
  refine Schedule.run_invariant (fun _ _ _ hx hs => settled_step hx hs) ?_ hr
  intro p hp
  exact absurd (h0 p) hp

theorem Timed.Reached.queue (h : x.Reached C) : ∃ xs, Queue C.toEnv x.state xs :=
  queue_of_reached h.state_reached

theorem queue_timedStep (h : ∃ xs, Queue C.toEnv x.state xs) (ha : a ≠ .run .init)
    (hs : timedStep C x a = some y) : ∃ xs, Queue C.toEnv y.state xs := by
  obtain ⟨xs, hq⟩ := h
  cases a with
  | run b =>
    obtain ⟨-, hb, -⟩ := run_eq_some hs
    exact ⟨_, hq.step (fun he => absurd (congrArg TimedAction.run he) ha) hb⟩
  | sleep p =>
    obtain ⟨c, -, -, -, ⟨-, hb, -⟩ | ⟨-, rfl⟩⟩ := sleep_eq_some hs
    · exact ⟨_, hq.step (fun he => by cases he) hb⟩
    · exact ⟨xs, hq⟩
  | wake p =>
    obtain ⟨d, -, -, hb, -⟩ := wake_eq_some hs
    exact ⟨_, hq.step (fun he => by cases he) hb⟩
  | tick =>
    cases hs
    exact ⟨xs, hq⟩

end

section

variable {start now now' : ℕ} {d : Option (Option ℕ)} {posted posted' : Prop} {k k' : Caller}

theorem ClockEnv.Waited.mono (h : C.Waited start now val) (hn : now ≤ now') :
    C.Waited start now' val := ⟨h.1, le_trans h.2 hn⟩

theorem Caller.Timely.mono (h : k.Timely C start now d posted c) (hn : now ≤ now')
    (hp : posted → posted') (hu : c.pt = .wait → 0 < k'.units → 0 < k.units ∨ posted') :
    k'.Timely C start now' d posted' c := by
  cases hpt : c.pt with
  | wait =>
    simp only [Caller.Timely, hpt] at h ⊢
    exact ⟨fun hk => (hu hpt hk).elim (fun hk => hp (h.1 hk)) id, h.2⟩
  | ret r =>
    simp only [Caller.Timely, hpt] at h ⊢
    refine ⟨fun hr => (h.1 hr).imp_right fun hw => hw.mono hn, fun hr => ?_⟩
    exact (h.2 hr).imp hp fun hw => ⟨hw.1, hw.2.mono hn⟩
  | yield =>
    simp only [Caller.Timely, hpt] at h ⊢
    exact h
  | remove | recheck =>
    simp only [Caller.Timely, hpt] at h ⊢
    exact ⟨fun he => (h.1 he).mono hn, fun he => hp (h.2 he)⟩
  | check | setup | append => simp only [Caller.Timely, hpt]

theorem timely_exit (hw : c.err = 0 → C.Waited start now c.val) (hp : c.err ≠ 0 → posted)
    (b : Bool) : k.Timely C start now d posted
      { c with pt := .ret (exitCode C.toKernel b c.val c.err) } := by
  have hpos := C.eagain_pos
  have hpos' := C.eshutdown_pos
  have hne := C.eshutdown_ne_eagain
  cases b with
  | false =>
    have hr : exitCode C.toKernel false c.val c.err = -C.NRF_ESHUTDOWN := rfl
    simp only [Caller.Timely, hr]
    exact ⟨fun he => absurd (Int.neg_inj.mp he) hne, fun he => by omega⟩
  | true =>
    simp only [Caller.Timely, exitCode, Bool.not_true, Bool.false_eq_true, if_false]
    split_ifs with he hv
    · exact ⟨fun hr => .inr (hw he), fun _ => .inr ⟨hv, hw he⟩⟩
    · exact ⟨fun _ => .inr (hw he), fun hr => by omega⟩
    · exact ⟨fun hr => by omega, fun _ => .inl (hp he)⟩

theorem timely_entry (b : Bool) :
    k.Timely C start now d posted { c with pt := entryPoint C.toKernel b c.val } := by
  have hpos := C.eshutdown_pos
  have hne := C.eshutdown_ne_eagain
  cases b with
  | false => exact ⟨fun he => absurd (Int.neg_inj.mp he) hne, fun he => by omega⟩
  | true =>
    by_cases hv : c.val = 0
    · simp only [Caller.Timely, entryPoint, hv, Bool.not_true, Bool.false_eq_true, if_true,
        if_false]
    · simp only [Caller.Timely, entryPoint, hv, Bool.not_true, Bool.false_eq_true, if_false]

/-- The step of a call that is not the end of its wait. -/
theorem timely_own (h : k.Timely C start now d posted c) (hk : k.call = some c)
    (hd : c.pt ≠ .wait → d = none) (hu : c.pt ≠ .wait → k.units = 0) (hw : c.pt ≠ .wait)
    (hr : ∀ r, c.pt ≠ .ret r) : ∃ c', (k.own C.toKernel (c.pt.action p)).call = some c' ∧
      c'.context = c.context ∧ c'.val = c.val ∧
      (k.own C.toKernel (c.pt.action p)).Timely C start now d posted c' := by
  have hpos := C.eagain_pos
  have hne := C.eshutdown_ne_eagain
  cases hpt : c.pt with
  | check =>
    exact ⟨_, congrArg (Option.map _) hk, rfl, rfl, timely_entry _⟩
  | yield =>
    simp only [Caller.Timely, hpt] at h
    refine ⟨_, congrArg (Option.map _) hk, rfl, rfl, ?_⟩
    exact ⟨fun _ => .inl h, fun he => by omega⟩
  | setup => exact ⟨_, congrArg (Option.map _) hk, rfl, rfl, trivial⟩
  | append =>
    refine ⟨_, congrArg (Option.map _) hk, rfl, rfl, ?_, ?_⟩
    · intro hpos
      exact absurd (hu hw) (Nat.ne_of_gt hpos)
    · intro dl hdl
      rw [hd hw] at hdl
      cases hdl
  | wait => exact absurd hpt hw
  | remove =>
    simp only [Caller.Timely, hpt] at h
    exact ⟨_, congrArg (Option.map _) hk, rfl, rfl, h⟩
  | recheck =>
    simp only [Caller.Timely, hpt] at h
    exact ⟨_, congrArg (Option.map _) hk, rfl, rfl, timely_exit h.1 h.2 _⟩
  | ret r => exact absurd hpt (hr r)

/-- The end of a wait: by a unit, or late enough. -/
theorem timely_wait (h : k.Timely C start now d posted c) (hk : k.call = some c)
    (hpt : c.pt = .wait) (hd : 0 < k.units ∨ C.Waited start now c.val) :
    ∃ c', (k.own C.toKernel (.wait p)).call = some c' ∧ c'.context = c.context ∧
      c'.val = c.val ∧ (k.own C.toKernel (.wait p)).Timely C start now none posted c' := by
  simp only [Caller.Timely, hpt] at h
  refine ⟨_, congrArg (Option.map _) hk, rfl, rfl, ?_, ?_⟩
  · intro he
    have hz : k.units = 0 := mdxSemWaitEnd_fst_eq_zero.mp he
    exact hd.resolve_left (Nat.not_lt_of_ge (Nat.le_of_eq hz))
  · intro he
    apply h.1
    exact Nat.pos_of_ne_zero fun hz => he (mdxSemWaitEnd_fst_eq_zero.mpr hz)

theorem timely_env (h : k.Timely C start now d posted c) (hk : k.call = some c) :
    (k.env b).call = some c ∧
      (k.env b).Timely C start now d (posted ∨ TimedAction.posts c.context (.run b)) c := by
  have same (hu : (k.env b).units = k.units) : (k.env b).Timely C start now d
      (posted ∨ TimedAction.posts c.context (.run b)) c :=
    h.mono le_rfl .inl fun _ hpos => .inl (hu ▸ hpos)
  cases b with
  | notify context fuel =>
    refine ⟨hk, ?_⟩
    by_cases hx : context = c.context ∨ context = 0
    · exact h.mono le_rfl .inl fun _ _ => .inr (.inr hx)
    · apply same
      refine if_neg ?_
      rw [hk, Option.any_some, decide_eq_true_eq, decide_eq_true_eq]
      exact fun hw => hx (hw.2.imp_left Eq.symm)
  | shutdown fuel => exact ⟨hk, h.mono le_rfl .inl fun _ _ => .inr (.inr trivial)⟩
  | _ => exact ⟨hk, same rfl⟩

end

/-- What the clock knows of the call at `p`. -/
def Clocked (C : ClockEnv Ptr) (p : Ptr) (context : UInt32) (val : Int32) (start : ℕ)
    (posted : Prop) (x : Timed Ptr) : Prop :=
  (∃ xs, Queue C.toEnv x.state xs) ∧ x.Settled ∧ start ≤ x.now ∧
    ∃ c, x.state.call p = some c ∧ c.context = context ∧ c.val = val ∧
      (x.state.caller p).Timely C start x.now (x.asleep p) posted c

variable {start : ℕ} {posted : Prop}

theorem asleep_of_pt (h : x.Settled) (hc : x.state.call p = some c) (hpt : c.pt ≠ .wait) :
    x.asleep p = none := by
  by_contra hn
  obtain ⟨d, hd, hw⟩ := h p hn
  obtain rfl : c = d := Option.some.inj (hc.symm.trans hd)
  exact hpt hw

theorem units_of_pt (hc : x.state.call p = some c) (hpt : c.pt ≠ .wait) :
    (x.state.caller p).units = 0 := by
  rw [caller_of_call hc]
  exact if_neg hpt

theorem call_of_caller {s : State Ptr} : (s.caller p).call = s.call p := rfl

theorem clocked_of_caller (h : Clocked C p context val start posted x)
    (hq : ∃ xs, Queue C.toEnv y.state xs) (hset : y.Settled)
    (hk : y.state.caller p = x.state.caller p) (hn : x.now ≤ y.now)
    (ha : y.asleep p = x.asleep p) : Clocked C p context val start posted y := by
  obtain ⟨-, -, hnow, c, hc, hx, hv, ht⟩ := h
  refine ⟨hq, hset, le_trans hnow hn, ?_⟩
  rw [← call_of_caller, hk, ha]
  exact ⟨c, hc, hx, hv, ht.mono hn id fun _ hu => .inl hu⟩

variable [DecidableEq Ptr]

theorem caller_wait_of_ne (hq : Queue C.toEnv x.state xs) (hne : p ≠ q)
    (hb : step C.toEnv x.state (.wait q) = some y.state) :
    y.state.caller p = x.state.caller p := by
  have ho : (Action.wait q).own p = false := decide_eq_false (Ne.symm hne)
  rw [caller_step hq (by simp) hb, callerStep_of_not_own ho]
  rfl

theorem clocked_run (h : Clocked C p context val start posted x)
    (ha : b ≠ .init ∧ ∀ r, b ≠ .ret p r) (hs : timedStep C x (.run b) = some y) :
    Clocked C p context val start (posted ∨ TimedAction.posts context (.run b)) y := by
  obtain ⟨hq, hset, hnow, c, hc, rfl, rfl, ht⟩ := h
  refine ⟨queue_timedStep hq (fun he => ha.1 (TimedAction.run.inj he)) hs, settled_step hset hs, ?_⟩
  obtain ⟨hw, hb, hn, hasl⟩ := run_eq_some hs
  obtain ⟨xs, hq⟩ := hq
  have hk := caller_step (p := p) hq ha.1 hb
  rw [← call_of_caller, hk, hn, hasl]
  refine ⟨hnow, ?_⟩
  by_cases ho : b.own p = true
  · obtain rfl := own_action hb ho hc
    have hpt : c.pt ≠ .wait := fun he => by rw [he] at hw; cases hw
    have hr (r : ℤ) : c.pt ≠ .ret r := fun he => by rw [he] at ha; exact ha.2 r rfl
    obtain ⟨c', hc', hx, hv, ht'⟩ := timely_own (p := p) ht hc
      (fun _ => asleep_of_pt hset hc hpt) (fun _ => units_of_pt hc hpt) hpt hr
    rw [callerStep_of_own ho]
    exact ⟨c', hc', hx, hv, ht'.mono le_rfl .inl fun _ hu => .inl hu⟩
  · rw [callerStep_of_not_own (eq_false_of_ne_true ho)]
    obtain ⟨hc', ht'⟩ := timely_env (b := b) ht hc
    exact ⟨c, hc', rfl, rfl, ht'⟩

theorem clocked_own_wait (hq : Queue C.toEnv x.state xs) (hnow : start ≤ x.now)
    (hc : x.state.call p = some c) (hpt : c.pt = .wait)
    (ht : (x.state.caller p).Timely C start x.now (x.asleep p) posted c)
    (hd : 0 < x.state.sem p ∨ C.Waited start x.now c.val) (hset : y.Settled)
    (hb : step C.toEnv x.state (.wait p) = some y.state) (hn : y.now = x.now)
    (ha : y.asleep p = none) : Clocked C p c.context c.val start posted y := by
  have hk : y.state.caller p = (x.state.caller p).own C.toKernel (.wait p) := by
    have ho : (Action.wait p).own p = true := decide_eq_true rfl
    rw [caller_step hq (by simp) hb, callerStep_of_own ho]
  have hu : (x.state.caller p).units = x.state.sem p := by
    rw [caller_of_call hc]
    exact if_pos hpt
  obtain ⟨c', hc', hx, hv, ht'⟩ := timely_wait (p := p) ht hc hpt (hu ▸ hd)
  refine ⟨⟨_, hq.step (fun he => by cases he) hb⟩, hset, hn ▸ hnow, ?_⟩
  rw [← call_of_caller, hk, hn, ha]
  exact ⟨c', hc', hx, hv, ht'⟩

theorem clocked_sleep (h : Clocked C p context val start posted x)
    (hs : timedStep C x (.sleep q) = some y) : Clocked C p context val start posted y := by
  have hset := settled_step h.2.1 hs
  have hq' := queue_timedStep h.1 (fun he => by cases he) hs
  obtain ⟨c, hc, hpt, hn, hy⟩ := sleep_eq_some hs
  by_cases hne : p = q
  · subst hne
    obtain ⟨⟨xs, hq⟩, -, hnow, d, hd, rfl, rfl, ht⟩ := h
    obtain rfl : c = d := Option.some.inj (hc.symm.trans hd)
    rcases hy with ⟨hpos, hb, hn', ha⟩ | ⟨-, rfl⟩
    · exact clocked_own_wait hq hnow hc hpt ht (.inl hpos) hset hb hn' (ha ▸ hn)
    · refine ⟨⟨xs, hq⟩, hset, hnow, c, hc, rfl, rfl, ?_⟩
      simp only [Caller.Timely, hpt] at ht ⊢
      refine ⟨ht.1, fun dl hdl => ?_⟩
      -- the deadline that is set now counts from a time after `start`
      have hdl : x.deadline C (tmout c.val) = some dl := by
        have hself : (x.setAsleep p (some (x.deadline C (tmout c.val)))).asleep p =
            some (x.deadline C (tmout c.val)) := Function.update_self ..
        rw [hself] at hdl
        exact Option.some.inj hdl
      obtain ⟨h0, hdl⟩ := Option.ite_none_left_eq_some.mp hdl
      obtain rfl := Option.some.inj hdl
      exact ⟨h0, Nat.add_le_add_right hnow _⟩
  · rcases hy with ⟨-, hb, hn', ha⟩ | ⟨-, rfl⟩
    · obtain ⟨xs, hq⟩ := h.1
      exact clocked_of_caller h hq' hset (caller_wait_of_ne hq hne hb) (le_of_eq hn'.symm)
        (congrFun ha p)
    · exact clocked_of_caller h hq' hset rfl le_rfl (Function.update_of_ne hne ..)

theorem clocked_wake (h : Clocked C p context val start posted x)
    (hs : timedStep C x (.wake q) = some y) : Clocked C p context val start posted y := by
  have hset := settled_step h.2.1 hs
  have hq' := queue_timedStep h.1 (fun he => by cases he) hs
  obtain ⟨d, hd, hend, hb, hn, ha⟩ := wake_eq_some hs
  by_cases hne : p = q
  · subst hne
    obtain ⟨⟨xs, hq⟩, hset', hnow, c, hc, rfl, rfl, ht⟩ := h
    obtain ⟨e, he, hpt⟩ := hset' p (by simp [hd])
    obtain rfl : c = e := Option.some.inj (hc.symm.trans he)
    refine clocked_own_wait hq hnow hc hpt ht (hend.imp_right fun hdue => ?_) hset hb hn ?_
    · obtain ⟨dl, rfl, hle⟩ := Option.any_eq_true .. |>.mp hdue
      simp only [Caller.Timely, hpt] at ht
      obtain ⟨h0, hdl⟩ := ht.2 dl hd
      exact ⟨h0, le_trans hdl (of_decide_eq_true hle)⟩
    · rw [ha]
      exact Function.update_self ..
  · obtain ⟨xs, hq⟩ := h.1
    refine clocked_of_caller h hq' hset (caller_wait_of_ne hq hne hb) (le_of_eq hn.symm) ?_
    rw [ha]
    exact Function.update_of_ne hne ..

theorem clocked_step (h : Clocked C p context val start posted x)
    (ha : a ≠ .run .init ∧ ∀ r, a ≠ .run (.ret p r)) (hs : timedStep C x a = some y) :
    Clocked C p context val start (posted ∨ a.posts context) y := by
  have quiet (hy : Clocked C p context val start posted y) (hn : ¬a.posts context) :
      Clocked C p context val start (posted ∨ a.posts context) y := by
    rwa [or_iff_left hn]
  cases a with
  | run b =>
    exact clocked_run h ⟨fun he => ha.1 (congrArg _ he), fun r he => ha.2 r (congrArg _ he)⟩ hs
  | sleep q => exact quiet (clocked_sleep h hs) id
  | wake q => exact quiet (clocked_wake h hs) id
  | tick =>
    apply quiet _ id
    have hset := settled_step h.2.1 hs
    cases hs
    exact clocked_of_caller h h.1 hset rfl (Nat.le_succ _) rfl

theorem clocked_call (h : x.Reached C)
    (hs : timedStep C x (.run (.call p context val)) = some y) :
    Clocked C p context val x.now False y := by
  have hset := settled_step h.settled hs
  obtain ⟨-, hb, hn, ha⟩ := run_eq_some hs
  obtain ⟨xs, hq⟩ := h.queue
  refine ⟨⟨_, hq.step (fun he => by cases he) hb⟩, hset, le_of_eq hn.symm, ?_⟩
  have ho : (Action.call p context val).own p = true := decide_eq_true rfl
  rw [← call_of_caller, caller_step hq (by simp) hb, callerStep_of_own ho]
  exact ⟨_, rfl, rfl, rfl, trivial⟩

/-- A call does not time out early. It returns `-NRF_EAGAIN` only as a poll or after its whole
timeout, and 0 only after a post that is meant for it or, with a negative timeout, after the
time that stands for it. -/
theorem timeout_not_early (h : x.Reached C)
    (ha : ∀ a ∈ as, a ≠ .run .init ∧ ∀ r', a ≠ .run (.ret p r'))
    (hr : Schedule.run (timedStep C) x
      (.run (.call p context val) :: (as ++ [.run (.ret p r)])) = some y) :
    (r = -C.NRF_EAGAIN → val = 0 ∨ C.Waited x.now y.now val) ∧
      (r = 0 → (∃ a ∈ as, a.posts context) ∨ val < 0 ∧ C.Waited x.now y.now val) := by
  obtain ⟨v, hv, hr⟩ := Schedule.run_cons_eq_some.mp hr
  obtain ⟨w, hw, hr⟩ := Schedule.run_append_eq_some.mp hr
  have hk : Clocked C p context val x.now (∃ a ∈ as, a.posts context) w := by
    revert ha
    refine Schedule.run_history (R := fun as w =>
      (∀ a ∈ as, a ≠ .run .init ∧ ∀ r', a ≠ .run (.ret p r')) →
        Clocked C p context val x.now (∃ a ∈ as, a.posts context) w) ?_ ?_ hw
    · intro _
      simpa using clocked_call h hv
    · intro as u a t hu hs has
      have hu := hu fun b hb => has b (List.mem_append_left _ hb)
      have ht := clocked_step hu (has a (List.mem_append_right _ List.mem_cons_self)) hs
      have hposts : (∃ b ∈ as ++ [a], b.posts context) ↔
          (∃ b ∈ as, b.posts context) ∨ a.posts context := by
        simp only [List.mem_append, List.mem_singleton, or_and_right, exists_or, exists_eq_left]
      rwa [hposts]
  rw [Schedule.run_singleton] at hr
  obtain ⟨-, hb, hn, -⟩ := run_eq_some hr
  obtain ⟨d, hd, hpt, -⟩ := atPoint_eq_some.mp hb
  obtain ⟨-, -, -, c, hc, rfl, rfl, ht⟩ := hk
  obtain rfl : c = d := Option.some.inj (hc.symm.trans hd)
  simp only [Caller.Timely, hpt] at ht
  rwa [hn]

/-- A clock that ticks in milliseconds. -/
def sampleClockEnv : ClockEnv ℕ where
  toEnv := sampleEnv
  delay usec := usec.toInt.toNat / 1000

def sampleTimed : Timed ℕ := { state := sampleState }

def timeOut (p : ℕ) (n : ℕ) : List (TimedAction ℕ) :=
  [.run (.check p), .run (.setup p), .run (.append p), .sleep p] ++ List.replicate n .tick ++
    [.wake p, .run (.remove p), .run (.recheck p)]

theorem timeout_not_early_sample : ∃ x y,
    Schedule.run (timedStep sampleClockEnv) x
        (.run (.call 2 7 3) :: (timeOut 2 3 ++ [.run (.ret 2 (-11))])) = some y ∧
      sampleClockEnv.Waited x.now y.now 3 := by
  have h : (Schedule.run (timedStep sampleClockEnv) sampleTimed [.run .init]).any (fun x =>
      (Schedule.run (timedStep sampleClockEnv) x (.run (.call 2 7 3) ::
        (timeOut 2 3 ++ [.run (.ret 2 (-11))]))).isSome) = true := by decide
  obtain ⟨x, hx, h⟩ := (Option.any_eq_true ..).mp h
  obtain ⟨y, hy⟩ := Option.isSome_iff_exists.mp h
  have hreach : x.Reached sampleClockEnv :=
    ⟨sampleTimed, [], fun _ => rfl, fun _ => rfl, fun _ h => absurd h List.not_mem_nil, hx⟩
  have hquiet : ∀ a ∈ timeOut 2 3, a ≠ .run .init ∧ ∀ r, a ≠ .run (.ret 2 r) := by
    simp [timeOut]
  have hlate := (timeout_not_early hreach hquiet hy).1 rfl
  exact ⟨x, y, hy, hlate.resolve_left (by decide)⟩

end Nrf9160.Modem
