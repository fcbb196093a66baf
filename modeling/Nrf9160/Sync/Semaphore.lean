import Mathlib.Algebra.Order.Ring.Int
import Mathlib.Logic.Function.Basic
import Nrf9160.Kernel
import Nrf9160.Lib.Behaviour
import Nrf9160.Lib.Prog

/-! The semaphores of the modem library: `nrf_modem_os_sem_take` against all that the
threads around it and the clock can do. -/

namespace Nrf9160.Semaphore

/-- The only call that `nrf_modem_os_sem_take` makes is `mdx_sem_timedwait`. -/
inductive SemCall where
  | timedwait (tmout : Int32)

abbrev SemProg := Prog SemCall fun _ => ℤ

def mdxSemTimedwait (tmout : Int32) : SemProg ℤ := .call (.timedwait tmout) .ret

def tmout (timeout : Int32) : Int32 := if timeout = -1 then 0 else timeout * 1000

def nrfModemOsSemTake (K : Kernel) (timeout : Int32) : SemProg ℤ := do
  let err ← mdxSemTimedwait (tmout timeout)
  if err = 0 then
    return -K.NRF_EAGAIN
  return 0

/-- How long `mdx_sem_timedwait` waits for an argument that is not 0. -/
structure Clock extends Kernel where
  delay : Int32 → ℕ

/-- A call of `nrf_modem_os_sem_take`: in the wait of the kernel, up to its deadline if it
has one, or with the rest of its text to run. -/
inductive Task where
  | waiting (deadline : Option ℕ) (k : ℤ → SemProg ℤ)
  | running (prog : SemProg ℤ)

structure State (Id : Type) where
  count : ℕ
  now : ℕ
  call : Id → Option Task

/-- `take` is a call up to the first step of the kernel, which takes a unit that is there.
`resume` and `expire` end a wait, by a unit or by its deadline. -/
inductive Action (Id : Type) where
  | init (initialCount : UInt32)
  | give
  | take (i : Id) (timeout : Int32)
  | resume (i : Id)
  | expire (i : Id)
  | ret (i : Id) (r : ℤ)
  | tick
  deriving DecidableEq

variable {Id : Type} [DecidableEq Id]

def State.setCall (s : State Id) (i : Id) (c : Option Task) : State Id :=
  { s with call := Function.update s.call i c }

def State.begin (K : Clock) (s : State Id) (i : Id) : SemProg ℤ → State Id
  | .ret r => s.setCall i (some (.running (.ret r)))
  | .call (.timedwait tmout) k =>
    if 0 < s.count then
      { s with count := s.count - 1 }.setCall i (some (.running (k K.taken)))
    else
      -- 0 is a wait without a deadline
      s.setCall i (some (.waiting (if tmout = 0 then none else some (s.now + K.delay tmout)) k))

def step (K : Clock) (s : State Id) : Action Id → Option (State Id)
  | .init initialCount => some { s with count := initialCount.toNat }
  | .give => some { s with count := mdxSemPost s.count }
  | .take i timeout => match s.call i with
    | none => some (s.begin K i (nrfModemOsSemTake K.toKernel timeout))
    | some _ => none
  | .resume i => match s.call i with
    | some (.waiting _ k) =>
      if 0 < s.count then
        some ({ s with count := s.count - 1 }.setCall i (some (.running (k K.taken))))
      else none
    | _ => none
  | .expire i => match s.call i with
    | some (.waiting (some deadline) k) =>
      if deadline ≤ s.now then some (s.setCall i (some (.running (k 0)))) else none
    | _ => none
  | .ret i r => match s.call i with
    | some (.running (.ret r')) => if r' = r then some (s.setCall i none) else none
    | _ => none
  | .tick => some { s with now := s.now + 1 }

def Action.own (i : Id) : Action Id → Bool
  | .take j _ => j = i
  | .resume j => j = i
  | .expire j => j = i
  | .ret j _ => j = i
  | _ => false

/-- The call returns in every run, whatever is given or not, in which the clock goes on and
the call is not left waiting where it could take a step. -/
def Finishes (K : Clock) (s : State Id) (i : Id) (timeout : Int32) : Prop :=
  ∀ b : Schedule.Behaviour (step K), b.state 0 = s → b.action 0 = .take i timeout →
    (b.Fair fun a => a.own i = true) → (∀ T, ∃ n, T ≤ (b.state n).now) →
    ∃ n r, b.action n = .ret i r

/-- What the steps of the call itself have added to the count. -/
def drawn (K : Clock) (i : Id) (d : ℤ) (s : State Id) (a : Action Id) : ℤ :=
  if a.own i then d + ((step K s a).elim (s.count : ℤ) fun t => t.count) - s.count else d

/-- Whenever the call returns, it has taken one unit and returns 0, or it has left the
count alone and returns `-NRF_EAGAIN`. -/
def ReturnsWhatItTook (K : Clock) (s : State Id) (i : Id) (timeout : Int32) : Prop :=
  ∀ as r t d, (∀ a ∈ as, ∀ r', a ≠ .ret i r') →
    Schedule.run (Schedule.ghost (step K) (drawn K i)) (s, 0)
        (.take i timeout :: (as ++ [.ret i r])) = some (t, d) →
      r = 0 ∧ d = -1 ∨ r = -K.NRF_EAGAIN ∧ d = 0

def TimedSemaphoreLaw (K : Clock) (s : State Id) (i : Id) (timeout : Int32) : Prop :=
  Finishes K s i timeout ∧ ReturnsWhatItTook K s i timeout

theorem mul_thousand_eq_zero_iff (timeout : Int32) :
    timeout * 1000 = 0 ↔ timeout.toInt % 2 ^ 29 = 0 := by
  have hk : (1000 : Int32).toInt = 1000 := by decide
  have h0 : (0 : Int32).toInt = 0 := by decide
  -- 1000 is 2 ^ 3 times an odd number
  rw [← Int32.toInt_inj, Int32.toInt_mul, hk, h0, ← Int.dvd_iff_bmod_eq_zero]
  omega

theorem tmout_eq_zero_iff {timeout : Int32} (h : 0 ≤ timeout) :
    tmout timeout = 0 ↔ timeout.toInt % 2 ^ 29 = 0 := by
  have hne : timeout ≠ -1 := by
    rintro rfl
    exact absurd h (by decide)
  rw [tmout, if_neg hne, mul_thousand_eq_zero_iff]

variable {K : Clock} {s t : State Id} {i : Id} {a : Action Id} {as : List (Action Id)}
  {timeout : Int32} {c : Task} {r : ℤ}

theorem nrfModemOsSemTake_eq (K : Kernel) (timeout : Int32) :
    nrfModemOsSemTake K timeout = .call (.timedwait (tmout timeout)) fun err =>
      .ret (if err = 0 then -K.NRF_EAGAIN else 0) := by
  show Prog.call _ _ = Prog.call _ _
  congr 1
  funext err
  simp only [Prog.bind, Prog.pure_eq]
  split_ifs <;> rfl

@[simp] theorem setCall_call_self (o : Option Task) : (s.setCall i o).call i = o := by
  show Function.update s.call i o i = o
  exact Function.update_self ..

theorem setCall_call_ne {j : Id} (o : Option Task) (h : j ≠ i) :
    (s.setCall i o).call j = s.call j := by
  show Function.update s.call i o j = s.call j
  exact Function.update_of_ne h ..

@[simp] theorem setCall_count (o : Option Task) : (s.setCall i o).count = s.count := rfl

def code (K : Kernel) (err : ℤ) : SemProg ℤ := .ret (if err = 0 then -K.NRF_EAGAIN else 0)

theorem code_taken (K : Kernel) : code K K.taken = .ret 0 := by
  rw [code, if_neg K.taken_ne_zero]

theorem code_zero (K : Kernel) : code K 0 = .ret (-K.NRF_EAGAIN) := by
  rw [code, if_pos rfl]

def deadline (K : Clock) (now : ℕ) (timeout : Int32) : Option ℕ :=
  if tmout timeout = 0 then none else some (now + K.delay (tmout timeout))

theorem begin_take : s.begin K i (nrfModemOsSemTake K.toKernel timeout) =
    if 0 < s.count then
      { s with count := s.count - 1 }.setCall i (some (.running (.ret 0)))
    else s.setCall i (some (.waiting (deadline K s.now timeout) (code K.toKernel))) := by
  rw [nrfModemOsSemTake_eq, State.begin, ← code, code_taken]
  rfl

theorem take_eq_some (hs : step K s (.take i timeout) = some t) :
    s.call i = none ∧ t = s.begin K i (nrfModemOsSemTake K.toKernel timeout) := by
  rw [step] at hs
  cases hc : s.call i with
  | none =>
    rw [hc] at hs
    exact ⟨rfl, (Option.some.inj hs).symm⟩
  | some c =>
    rw [hc] at hs
    cases hs

inductive Moves (K : Clock) (i : Id) (s : State Id) : Action Id → State Id → Prop where
  | take (timeout : Int32) : s.call i = none → Moves K i s (.take i timeout)
        (s.begin K i (nrfModemOsSemTake K.toKernel timeout))
  | resume (d : Option ℕ) (k : ℤ → SemProg ℤ) : s.call i = some (.waiting d k) →
      0 < s.count → Moves K i s (.resume i)
        ({ s with count := s.count - 1 }.setCall i (some (.running (k K.taken))))
  | expire (d : ℕ) (k : ℤ → SemProg ℤ) : s.call i = some (.waiting (some d) k) → d ≤ s.now →
      Moves K i s (.expire i) (s.setCall i (some (.running (k 0))))
  | ret (r : ℤ) : s.call i = some (.running (.ret r)) → Moves K i s (.ret i r) (s.setCall i none)

theorem moves_of_own (hs : step K s a = some t) (ha : a.own i = true) : Moves K i s a t := by
  cases a with
  | init n => cases ha
  | give => cases ha
  | tick => cases ha
  | take j timeout =>
    obtain rfl : j = i := of_decide_eq_true ha
    obtain ⟨hc, rfl⟩ := take_eq_some hs
    exact .take timeout hc
  | resume j =>
    obtain rfl : j = i := of_decide_eq_true ha
    simp only [step] at hs
    split at hs
    · next d k hc =>
      obtain ⟨hn, hs⟩ := Option.ite_none_right_eq_some.mp hs
      obtain rfl := Option.some.inj hs
      exact .resume d k hc hn
    · cases hs
  | expire j =>
    obtain rfl : j = i := of_decide_eq_true ha
    simp only [step] at hs
    split at hs
    · next d k hc =>
      obtain ⟨hn, hs⟩ := Option.ite_none_right_eq_some.mp hs
      obtain rfl := Option.some.inj hs
      exact .expire d k hc hn
    · cases hs
  | ret j r =>
    obtain rfl : j = i := of_decide_eq_true ha
    simp only [step] at hs
    split at hs
    · next r' hc =>
      obtain ⟨rfl, ht⟩ := Option.ite_none_right_eq_some.mp hs
      obtain rfl := Option.some.inj ht
      exact .ret r' hc
    · cases hs

theorem Moves.of_waiting {dl : Option ℕ} {k : ℤ → SemProg ℤ} (h : Moves K i s a t)
    (hc : s.call i = some (.waiting dl k)) :
    0 < s.count ∧
        t = { s with count := s.count - 1 }.setCall i (some (.running (k K.taken))) ∨
      (∃ d, dl = some d ∧ d ≤ s.now) ∧ t = s.setCall i (some (.running (k 0))) := by
  cases h with
  | take timeout hn => exact absurd (hc.symm.trans hn) (by simp)
  | resume d k' hw hn =>
    obtain ⟨rfl, rfl⟩ := Task.waiting.inj (Option.some.inj (hc.symm.trans hw))
    exact .inl ⟨hn, rfl⟩
  | expire d k' hw hn =>
    obtain ⟨rfl, rfl⟩ := Task.waiting.inj (Option.some.inj (hc.symm.trans hw))
    exact .inr ⟨⟨d, rfl, hn⟩, rfl⟩
  | ret r hr => exact absurd (hc.symm.trans hr) (by simp)

theorem Moves.of_running (h : Moves K i s a t) (hc : s.call i = some (.running (.ret r))) :
    a = .ret i r ∧ t = s.setCall i none := by
  cases h with
  | take timeout hn => exact absurd (hc.symm.trans hn) (by simp)
  | resume d k hw hn => exact absurd (hc.symm.trans hw) (by simp)
  | expire d k hw hn => exact absurd (hc.symm.trans hw) (by simp)
  | ret r' hr =>
    have he : r = r' := by simpa using hc.symm.trans hr
    rw [he]
    exact ⟨rfl, rfl⟩

theorem setCall_of_not_own {j : Id} (o : Option Task) (hj : ¬decide (j = i) = true) :
    (s.setCall j o).call i = s.call i :=
  setCall_call_ne o fun he => hj (decide_eq_true he.symm)

theorem call_of_not_own (hs : step K s a = some t) (ha : ¬a.own i = true) :
    t.call i = s.call i := by
  cases a with
  | init n =>
    cases hs
    rfl
  | give =>
    cases hs
    rfl
  | tick =>
    cases hs
    rfl
  | take j timeout =>
    obtain ⟨_, rfl⟩ := take_eq_some hs
    rw [begin_take]
    split_ifs
    · exact setCall_of_not_own _ ha
    · exact setCall_of_not_own _ ha
  | _ j =>
    cases moves_of_own (i := j) hs (decide_eq_true rfl) with
    | _ => exact setCall_of_not_own _ ha

theorem now_le_of_step (hs : step K s a = some t) : s.now ≤ t.now := by
  cases a with
  | init n =>
    cases hs
    exact le_rfl
  | give =>
    cases hs
    exact le_rfl
  | tick =>
    cases hs
    exact Nat.le_succ _
  | take j timeout =>
    obtain ⟨_, rfl⟩ := take_eq_some hs
    rw [begin_take]
    split_ifs <;> exact le_rfl
  | _ j =>
    cases moves_of_own (i := j) hs (decide_eq_true rfl) with
    | _ => exact le_rfl

/-- What a call has drawn from the count by the time it stands where it does. -/
def Balanced (K : Clock) (i : Id) (x : State Id × ℤ) : Prop :=
  (∃ dl, x.1.call i = some (.waiting dl (code K.toKernel))) ∧ x.2 = 0 ∨
    x.1.call i = some (.running (.ret 0)) ∧ x.2 = -1 ∨
    x.1.call i = some (.running (.ret (-K.NRF_EAGAIN))) ∧ x.2 = 0

theorem drawn_of_step {d : ℤ} (hs : step K s a = some t) (ha : a.own i = true) :
    drawn K i d s a = d + t.count - s.count := by
  rw [drawn, if_pos ha, hs]
  rfl

theorem balanced_take {x : State Id × ℤ}
    (hs : Schedule.ghost (step K) (drawn K i) (s, 0) (.take i timeout) = some x) :
    Balanced K i x := by
  obtain ⟨t, d⟩ := x
  obtain ⟨ht, rfl⟩ := Schedule.ghost_eq_some.mp hs
  rw [drawn_of_step ht (decide_eq_true rfl)]
  obtain ⟨_, rfl⟩ := take_eq_some ht
  rw [begin_take]
  by_cases hn : 0 < s.count
  · rw [if_pos hn]
    refine .inr (.inl ⟨setCall_call_self _, ?_⟩)
    show (0 : ℤ) + (s.count - 1 : ℕ) - s.count = -1
    omega
  · rw [if_neg hn]
    refine .inl ⟨⟨_, setCall_call_self _⟩, ?_⟩
    rw [setCall_count]
    omega

theorem balanced_step {x y : State Id × ℤ} (h : Balanced K i x) (ha : ∀ r, a ≠ .ret i r)
    (hs : Schedule.ghost (step K) (drawn K i) x a = some y) : Balanced K i y := by
  obtain ⟨s, d⟩ := x
  obtain ⟨t, e⟩ := y
  obtain ⟨ht, rfl⟩ := Schedule.ghost_eq_some.mp hs
  by_cases ho : a.own i = true
  · rw [drawn_of_step ht ho]
    have hm : Moves K i s a t := moves_of_own ht ho
    rcases h with ⟨⟨dl, hc⟩, hd⟩ | ⟨hc, -⟩ | ⟨hc, -⟩
    · have hd : d = 0 := hd
      rw [hd]
      rcases hm.of_waiting hc with ⟨hn, rfl⟩ | ⟨-, rfl⟩
      · -- the wait has ended with a unit: the call is to return 0
        refine .inr (.inl ⟨?_, ?_⟩)
        · rw [setCall_call_self, code_taken]
        · show (0 : ℤ) + (s.count - 1 : ℕ) - s.count = -1
          omega
      · refine .inr (.inr ⟨?_, ?_⟩)
        · rw [setCall_call_self, code_zero]
        · rw [setCall_count]
          omega
    · exact absurd (hm.of_running hc).1 (ha 0)
    · exact absurd (hm.of_running hc).1 (ha (-K.NRF_EAGAIN))
  · have hd : drawn K i d s a = d := if_neg ho
    rw [hd]
    have hc := call_of_not_own ht ho
    unfold Balanced at h ⊢
    rwa [hc]

theorem returnsWhatItTook (K : Clock) (s : State Id) (i : Id) (timeout : Int32) :
    ReturnsWhatItTook K s i timeout := by
  intro as r t d ha hr
  rw [← List.cons_append] at hr
  obtain ⟨x, hx, hr⟩ := Schedule.run_append_eq_some.mp hr
  obtain ⟨y, hy, hx⟩ := Schedule.run_cons_eq_some.mp hx
  have hb : Balanced K i x := by
    refine (Schedule.steps_of_forall fun a h _ => ha a h).run_invariant
      (G := fun _ a => ∀ r, a ≠ .ret i r) (I := Balanced K i) ?_ (balanced_take hy) hx
    intro x a y hx hg hs
    exact balanced_step hx hg hs
  obtain ⟨u, e⟩ := x
  rw [Schedule.run_singleton, Schedule.ghost_eq_some] at hr
  obtain ⟨hs, rfl⟩ := hr
  have ho : (Action.ret i r : Action Id).own i = true := decide_eq_true rfl
  rw [drawn_of_step hs ho]
  cases moves_of_own hs ho with
  | ret _ hc =>
    rw [setCall_count, Int.add_sub_cancel]
    rcases hb with ⟨⟨dl, h⟩, -⟩ | ⟨h, hd⟩ | ⟨h, hd⟩
    · exact absurd (hc.symm.trans h) (by simp)
    · have hr : r = 0 := by simpa using hc.symm.trans h
      exact .inl ⟨hr, hd⟩
    · have hr : r = -K.NRF_EAGAIN := by simpa using hc.symm.trans h
      exact .inr ⟨hr, hd⟩

section

variable {b : Schedule.Behaviour (step K : State Id → Action Id → Option (State Id))} {n : ℕ}

theorem now_le_of_le {m : ℕ} (h : n ≤ m) : (b.state n).now ≤ (b.state m).now := by
  refine b.keeps (P := fun s => (b.state n).now ≤ s.now) ?_ le_rfl m h
  intro s a t hs ht
  exact le_trans hs (now_le_of_step ht)

theorem running_of_own {dl : Option ℕ} (hs : step K s a = some t) (ha : a.own i = true)
    (hc : s.call i = some (.waiting dl (code K.toKernel))) :
    ∃ r, t.call i = some (.running (.ret r)) := by
  rcases (moves_of_own hs ha).of_waiting hc with ⟨-, rfl⟩ | ⟨-, rfl⟩
  · exact ⟨_, setCall_call_self _⟩
  · exact ⟨_, setCall_call_self _⟩

theorem stays {o : Option Task} (hs : step K s a = some t) (hc : s.call i = o)
    (ha : ¬a.own i = true) : t.call i = o := by
  rw [call_of_not_own hs ha, hc]

theorem returns_of_running (hf : b.Fair fun a => a.own i = true)
    (hn : (b.state n).call i = some (.running (.ret r))) : ∃ n r, b.action n = .ret i r := by
  have hen : ∀ s : State Id, s.call i = some (.running (.ret r)) →
      ∃ a t, a.own i = true ∧ step K s a = some t := by
    intro s hs
    refine ⟨.ret i r, s.setCall i none, decide_eq_true rfl, ?_⟩
    rw [step, hs]
    exact if_pos rfl
  obtain ⟨j, -, hj, ho⟩ := b.ends hf hn (fun s a t hs ho ht => stays ht hs ho) hen
  have hret : b.action j = .ret i r := ((moves_of_own (b.next j) ho).of_running hj).1
  exact ⟨j, r, hret⟩

theorem returns_of_deadline {d : ℕ} (hf : b.Fair fun a => a.own i = true)
    (ht : ∀ T, ∃ n, T ≤ (b.state n).now)
    (hn : (b.state n).call i = some (.waiting (some d) (code K.toKernel))) :
    ∃ n r, b.action n = .ret i r := by
  let P : State Id → Prop := fun s => s.call i = some (.waiting (some d) (code K.toKernel))
  have hstay : ∀ s a t, P s → ¬a.own i = true → step K s a = some t → P t :=
    fun s a t hs ho ht => stays ht hs ho
  have hend : ∃ j, P (b.state j) ∧ (b.action j).own i = true := by
    obtain ⟨N, hN⟩ := ht d
    have hmax : d ≤ (b.state (max n N)).now := le_trans hN (now_le_of_le (le_max_right n N))
    rcases b.keeps_or_ends hn hstay (max n N) (le_max_left n N) with hw | ⟨j, _, hj, ho⟩
    · -- past the deadline the wait can end in every state
      have hen : ∀ s : State Id, P s ∧ d ≤ s.now →
          ∃ a t, a.own i = true ∧ step K s a = some t := by
        rintro s ⟨hs, hd⟩
        have hown : (Action.expire i).own i = true := decide_eq_true rfl
        refine ⟨.expire i, s.setCall i (some (.running (code K.toKernel 0))), hown, ?_⟩
        rw [step, hs]
        exact if_pos hd
      obtain ⟨j, -, hj, ho⟩ := b.ends hf (P := fun s => P s ∧ d ≤ s.now) ⟨hw, hmax⟩
        (fun s a t hs ho ht => ⟨stays ht hs.1 ho, le_trans hs.2 (now_le_of_step ht)⟩) hen
      exact ⟨j, hj.1, ho⟩
    · exact ⟨j, hj, ho⟩
  obtain ⟨j, hj, ho⟩ := hend
  obtain ⟨r, hr⟩ := running_of_own (b.next j) ho hj
  exact returns_of_running hf hr

end

theorem finishes_of_unit_or_deadline (h : 0 < s.count ∨ tmout timeout ≠ 0) :
    Finishes K s i timeout := by
  intro b h0 ha hf ht
  have hs := b.next 0
  rw [h0, ha] at hs
  obtain ⟨_, hs⟩ := take_eq_some hs
  rw [begin_take] at hs
  by_cases hn : 0 < s.count
  · rw [if_pos hn] at hs
    apply returns_of_running (n := 1) (r := 0) hf
    rw [hs, setCall_call_self]
  · rw [if_neg hn, deadline, if_neg (h.resolve_left hn)] at hs
    apply returns_of_deadline (n := 1) hf ht
    rw [hs, setCall_call_self]

def idleRun (K : Clock) (s : State Id) (i : Id) (timeout : Int32) (h : s.call i = none) :
    Schedule.Behaviour (step K : State Id → Action Id → Option (State Id)) where
  state n := match n with
    | 0 => s
    | n + 1 =>
      let t := s.begin K i (nrfModemOsSemTake K.toKernel timeout)
      { t with now := t.now + n }
  action n := match n with
    | 0 => .take i timeout
    | _ + 1 => .tick
  next n := by
    cases n with
    | zero =>
      show step K s (.take i timeout) = _
      rw [step, h]
      rfl
    | succ n => rfl

/-- Without a unit and without a deadline no step of a waiting call is enabled. -/
theorem not_own_of_waiting (hc : s.call i = some (.waiting none (code K.toKernel)))
    (hn : s.count = 0) (hs : step K s a = some t) : ¬a.own i = true := by
  intro ha
  rcases (moves_of_own hs ha).of_waiting hc with ⟨hpos, -⟩ | ⟨⟨d, hd, -⟩, -⟩
  · exact absurd hn (Nat.ne_of_gt hpos)
  · exact absurd hd (by simp)

theorem not_finishes (h : s.call i = none) (hn : s.count = 0) (ht : tmout timeout = 0) :
    ¬Finishes K s i timeout := by
  intro hfin
  have hbegin : s.begin K i (nrfModemOsSemTake K.toKernel timeout) =
      s.setCall i (some (.waiting none (code K.toKernel))) := by
    rw [begin_take, if_neg (by omega), deadline, if_pos ht]
  have hwait (n : ℕ) : ((idleRun K s i timeout h).state (n + 1)).call i =
      some (.waiting none (code K.toKernel)) := by
    show (s.begin K i (nrfModemOsSemTake K.toKernel timeout)).call i = _
    rw [hbegin, setCall_call_self]
  have hcount (n : ℕ) : ((idleRun K s i timeout h).state (n + 1)).count = 0 := by
    show (s.begin K i (nrfModemOsSemTake K.toKernel timeout)).count = 0
    rw [hbegin, setCall_count, hn]
  have hfair : (idleRun K s i timeout h).Fair fun a => a.own i = true := by
    -- the call is never able to take a step, so it is owed none
    intro n hen
    obtain ⟨a, t, ha, hs⟩ := hen (n + 1) (Nat.le_succ n)
    exact absurd ha (not_own_of_waiting (hwait n) (hcount n) hs)
  have htime : ∀ T, ∃ n, T ≤ ((idleRun K s i timeout h).state n).now :=
    fun T => ⟨T + 1, Nat.le_add_left T _⟩
  obtain ⟨n, r, hr⟩ := hfin (idleRun K s i timeout h) rfl rfl hfair htime
  cases n <;> cases hr

/-- A call of `nrf_modem_os_sem_take` keeps the law of a timed semaphore exactly when it
finds a unit or its timeout does not come out as 0 in the argument of the kernel. -/
theorem timedSemaphoreLaw_iff (K : Clock) (h : s.call i = none) (ht : 0 ≤ timeout) :
    TimedSemaphoreLaw K s i timeout ↔ 0 < s.count ∨ timeout.toInt % 2 ^ 29 ≠ 0 := by
  rw [ne_eq, ← tmout_eq_zero_iff ht]
  constructor
  · rintro ⟨hfin, -⟩
    by_contra hno
    obtain ⟨hn, h0⟩ := not_or.mp hno
    exact not_finishes h (Nat.eq_zero_of_not_pos hn) (not_not.mp h0) hfin
  · intro hor
    exact ⟨finishes_of_unit_or_deadline hor, returnsWhatItTook K s i timeout⟩

def sampleClock : Clock where
  toKernel := sampleKernel
  delay usec := usec.toInt.toNat

def sampleState : State ℕ := ⟨0, 0, fun _ => none⟩

theorem timedSemaphoreLaw_iff_sample : TimedSemaphoreLaw sampleClock sampleState 1 5 := by
  exact (timedSemaphoreLaw_iff sampleClock rfl (by decide)).mpr (.inr (by decide))

/-- A poll of an empty semaphore. -/
theorem poll_hangs : ¬TimedSemaphoreLaw sampleClock sampleState 1 0 := by
  intro h
  exact not_finishes rfl rfl (by decide) h.1

end Nrf9160.Semaphore
