import Nrf9160.Lib.Run
import Nrf9160.Modem.SleepingList
import Nrf9160.Modem.Timedwait

/-! The state that `nrf_modem.c` shares between threads and the IPC interrupt, and its
steps. A call of `nrf_modem_os_timedwait` is named by the address of its `td`; the address
is free again when the call has returned. -/

namespace Nrf9160.Modem

structure State (Ptr : Type) where
  links : Ring.Links Ptr
  sem : Ptr → ℕ
  context : Ptr → UInt32
  initialized : Bool
  call : Ptr → Option Call

/-- One atomic step. `notify` and `shutdown` carry a bound on the rounds of their loop, and
a loop that the bound does not end is no step. `setInitialized` is the modem library, which
keeps the flag behind `nrf_modem_is_initialized`. -/
inductive Action (Ptr : Type) where
  | call (p : Ptr) (context : UInt32) (timeout : Int32)
  | check (p : Ptr)
  | yield (p : Ptr)
  | setup (p : Ptr)
  | append (p : Ptr)
  | wait (p : Ptr)
  | remove (p : Ptr)
  | recheck (p : Ptr)
  | ret (p : Ptr) (r : ℤ)
  | notify (context : UInt32) (fuel : ℕ)
  | shutdown (fuel : ℕ)
  | setInitialized (b : Bool)
  | init
  deriving DecidableEq

variable {Ptr : Type}

def State.atPoint (s : State Ptr) (p : Ptr) (pt : Point) (f : Call → State Ptr) :
    Option (State Ptr) :=
  (s.call p).bind fun c => if c.pt = pt then some (f c) else none

theorem atPoint_eq_some {s t : State Ptr} {p : Ptr} {pt : Point} {f : Call → State Ptr} :
    s.atPoint p pt f = some t ↔ ∃ c, s.call p = some c ∧ c.pt = pt ∧ f c = t := by
  simp only [State.atPoint, Option.bind_eq_some_iff, Option.ite_none_right_eq_some,
    Option.some.injEq]

variable [DecidableEq Ptr]

def State.setCall (s : State Ptr) (p : Ptr) (c : Option Call) : State Ptr :=
  { s with call := Function.update s.call p c }

def nrfModemOsEventNotify (E : Env Ptr) (context : UInt32) (fuel : ℕ) (s : State Ptr) :
    Option (State Ptr) :=
  (postLoop E s.links (fun td => s.context td = context ∨ context = 0) fuel
    (tdFirst E s.links) s.sem).map fun sem => { s with sem }

def nrfModemOsShutdown (E : Env Ptr) (fuel : ℕ) (s : State Ptr) : Option (State Ptr) :=
  (postLoop E s.links (fun _ => true) fuel (tdFirst E s.links) s.sem).map fun sem =>
    { s with sem }

def nrfModemOsInit (E : Env Ptr) (s : State Ptr) : State Ptr :=
  { s with links := E.list.init s.links E.sleepingThreadList }

/-- The stores of a call to its own `td`: `memset`, `mdx_sem_init` and `td.context`. -/
def State.setupTd (E : Env Ptr) (s : State Ptr) (p : Ptr) (context : UInt32) : State Ptr :=
  { s with
    links := ⟨Function.update s.links.next p E.NULL, Function.update s.links.prev p E.NULL⟩
    sem := Function.update s.sem p 0
    context := Function.update s.context p context }

def step (E : Env Ptr) (s : State Ptr) : Action Ptr → Option (State Ptr)
  | .call p context timeout =>
    -- a new frame lies at an address that no live frame and no static variable has
    if p ≠ E.NULL ∧ p ≠ E.sleepingThreadList ∧ s.call p = none then
      some (s.setCall p (some { context := context, val := timeout }))
    else none
  | .check p => s.atPoint p .check fun c =>
      s.setCall p (some { c with pt := entryPoint E.toKernel s.initialized c.val })
  | .yield p => s.atPoint p .yield fun c =>
      s.setCall p (some { c with pt := .ret (-E.NRF_EAGAIN) })
  | .setup p => s.atPoint p .setup fun c =>
      (s.setupTd E p c.context).setCall p (some { c with pt := .append })
  | .append p => s.atPoint p .append fun c =>
      { s with links := E.list.append s.links E.sleepingThreadList p }.setCall p
        (some { c with pt := .wait })
  | .wait p => s.atPoint p .wait fun c =>
      let w := mdxSemWaitEnd E.toKernel (s.sem p)
      { s with sem := Function.update s.sem p w.2 }.setCall p
        (some { c with err := w.1, pt := .remove })
  | .remove p => s.atPoint p .remove fun c =>
      { s with links := E.list.remove s.links p }.setCall p (some { c with pt := .recheck })
  | .recheck p => s.atPoint p .recheck fun c =>
      s.setCall p (some { c with pt := .ret (exitCode E.toKernel s.initialized c.val c.err) })
  | .ret p r => s.atPoint p (.ret r) fun _ => s.setCall p none
  | .notify context fuel => nrfModemOsEventNotify E context fuel s
  | .shutdown fuel => nrfModemOsShutdown E fuel s
  | .setInitialized b => some { s with initialized := b }
  | .init => some (nrfModemOsInit E s)

variable {E : Env Ptr} {s t : State Ptr} {p q : Ptr} {c : Call} {a : Action Ptr}

@[simp] theorem setCall_call_self (o : Option Call) : (s.setCall p o).call p = o := by
  show Function.update s.call p o p = o
  exact Function.update_self ..

theorem setCall_call_ne (o : Option Call) (h : q ≠ p) : (s.setCall p o).call q = s.call q := by
  show Function.update s.call p o q = s.call q
  exact Function.update_of_ne h ..

@[simp] theorem setCall_sem (o : Option Call) : (s.setCall p o).sem = s.sem := rfl

@[simp] theorem setCall_context (o : Option Call) : (s.setCall p o).context = s.context := rfl

@[simp] theorem setCall_initialized (o : Option Call) :
    (s.setCall p o).initialized = s.initialized := rfl

def Action.own (p : Ptr) : Action Ptr → Bool
  | .call q _ _ => q = p
  | .check q => q = p
  | .yield q => q = p
  | .setup q => q = p
  | .append q => q = p
  | .wait q => q = p
  | .remove q => q = p
  | .recheck q => q = p
  | .ret q _ => q = p
  | _ => false

theorem step_call_of_not_own (h : step E s a = some t) (ha : a.own p = false) :
    t.call p = s.call p := by
  cases a with
  | call q context timeout =>
    simp only [step, Option.ite_none_right_eq_some, Option.some.injEq] at h
    obtain ⟨_, rfl⟩ := h
    exact setCall_call_ne _ (Ne.symm (of_decide_eq_false ha))
  | notify context fuel =>
    simp only [step, nrfModemOsEventNotify, Option.map_eq_some_iff] at h
    obtain ⟨sem, _, rfl⟩ := h
    rfl
  | shutdown fuel =>
    simp only [step, nrfModemOsShutdown, Option.map_eq_some_iff] at h
    obtain ⟨sem, _, rfl⟩ := h
    rfl
  | setInitialized b =>
    simp only [step, Option.some.injEq] at h
    subst h
    rfl
  | init =>
    simp only [step, Option.some.injEq] at h
    subst h
    rfl
  | _ =>
    simp only [step, atPoint_eq_some] at h
    obtain ⟨c, _, _, rfl⟩ := h
    exact setCall_call_ne _ (Ne.symm (of_decide_eq_false ha))

def Point.action (p : Ptr) : Point → Action Ptr
  | .check => .check p
  | .yield => .yield p
  | .setup => .setup p
  | .append => .append p
  | .wait => .wait p
  | .remove => .remove p
  | .recheck => .recheck p
  | .ret r => .ret p r

theorem call_none_of_step {context : UInt32} {timeout : Int32}
    (h : step E s (.call p context timeout) = some t) : s.call p = none := by
  simp only [step, Option.ite_none_right_eq_some] at h
  exact h.1.2.2

theorem own_action (h : step E s a = some t) (ha : a.own p = true) (hs : s.call p = some c) :
    a = c.pt.action p := by
  cases a with
  | call q context timeout =>
    obtain rfl : q = p := of_decide_eq_true ha
    cases (call_none_of_step h).symm.trans hs
  | notify | shutdown | setInitialized | init => cases ha
  | _ q =>
    obtain rfl : q = p := of_decide_eq_true ha
    obtain ⟨d, hd, hpt, _⟩ := atPoint_eq_some.mp h
    obtain rfl : d = c := Option.some.inj (hd.symm.trans hs)
    rw [hpt, Point.action]

/-- What a call of the program text does at the kernel, and the answer to it. -/
def TdCall.effect (E : Env Ptr) (p : Ptr) (s : State Ptr) :
    (op : TdCall) → State Ptr × op.Answer
  | .isInitialized => (s, s.initialized)
  | .threadYield => (s, ())
  | .setup context => (s.setupTd E p context, ())
  | .listAppend => ({ s with links := E.list.append s.links E.sleepingThreadList p }, ())
  | .semTimedwait _ =>
    let w := mdxSemWaitEnd E.toKernel (s.sem p)
    ({ s with sem := Function.update s.sem p w.2 }, w.1)
  | .listRemove => ({ s with links := E.list.remove s.links p }, ())

/-- The steps of a call run the text of `nrf_modem_os_timedwait`: each makes the next call
of what is left of it and goes on with the answer. -/
theorem step_prog {c' : Call} (h : step E s a = some t) (ha : a.own p = true)
    (hs : s.call p = some c) (ht : t.call p = some c') :
    ∃ op k, c.prog E.toKernel = .call op k ∧ t = (op.effect E p s).1.setCall p (some c') ∧
      c'.prog E.toKernel = k (op.effect E p s).2 := by
  cases a with
  | call q context timeout =>
    obtain rfl : q = p := of_decide_eq_true ha
    cases (call_none_of_step h).symm.trans hs
  | check q =>
    obtain rfl : q = p := of_decide_eq_true ha
    obtain ⟨d, hd, hpt, rfl⟩ := atPoint_eq_some.mp h
    obtain rfl : d = c := Option.some.inj (hd.symm.trans hs)
    rw [setCall_call_self] at ht
    cases ht
    exact ⟨_, _, prog_check hpt, rfl, rfl⟩
  | ret q r =>
    obtain rfl : q = p := of_decide_eq_true ha
    obtain ⟨d, hd, hpt, rfl⟩ := atPoint_eq_some.mp h
    rw [setCall_call_self] at ht
    cases ht
  | notify | shutdown | setInitialized | init => cases ha
  | _ q =>
    obtain rfl : q = p := of_decide_eq_true ha
    obtain ⟨d, hd, hpt, rfl⟩ := atPoint_eq_some.mp h
    obtain rfl : d = c := Option.some.inj (hd.symm.trans hs)
    rw [setCall_call_self] at ht
    cases ht
    simp only [Call.prog, hpt]
    exact ⟨_, _, rfl, rfl, rfl⟩

/-- The steps that a call still has before it returns, at most. -/
def Point.rank : Point → ℕ
  | .check => 6
  | .setup => 5
  | .append => 4
  | .wait => 3
  | .remove => 2
  | .recheck => 1
  | .yield => 1
  | .ret _ => 0

theorem rank_entryPoint {K : Kernel} {i : Bool} {val : Int32} :
    (entryPoint K i val).rank < 6 := by
  unfold entryPoint
  split_ifs <;> simp only [Point.rank, Nat.reduceLT]

theorem action_own (p : Ptr) (pt : Point) : (pt.action p).own p = true := by
  cases pt <;> exact decide_eq_true rfl

theorem enabled_of_call (hc : s.call p = some c) : ∃ t, step E s (c.pt.action p) = some t := by
  cases hpt : c.pt with
  | _ => exact ⟨_, atPoint_eq_some.mpr ⟨c, hc, hpt, rfl⟩⟩

theorem call_of_own (hs : step E s (c.pt.action p) = some t) (hc : s.call p = some c)
    (hr : ∀ r, c.pt ≠ .ret r) :
    ∃ c', t.call p = some c' ∧ c'.val = c.val ∧ c'.pt.rank < c.pt.rank := by
  cases hpt : c.pt with
  | ret r => exact absurd hpt (hr r)
  | _ =>
    rw [hpt] at hs
    obtain ⟨d, hd, -, rfl⟩ := atPoint_eq_some.mp hs
    obtain rfl : c = d := Option.some.inj (hc.symm.trans hd)
    refine ⟨_, setCall_call_self _, rfl, ?_⟩
    first
      | exact rank_entryPoint
      | exact Nat.lt_succ_self _

/-- A call can always take its next step, and its own steps alone bring it to its return. -/
theorem exists_return (hc : s.call p = some c) :
    ∃ as r t, (∀ a ∈ as, a.own p = true ∧ ∀ r', a ≠ .ret p r') ∧
      Schedule.run (step E) s (as ++ [.ret p r]) = some t := by
  induction hn : c.pt.rank using Nat.strong_induction_on generalizing s c with
  | h n ih =>
    obtain ⟨t, ht⟩ := enabled_of_call (E := E) hc
    by_cases hr : ∃ r, c.pt = .ret r
    · obtain ⟨r, hr⟩ := hr
      rw [hr] at ht
      refine ⟨[], r, t, fun a ha => absurd ha List.not_mem_nil, ?_⟩
      rwa [List.nil_append, Schedule.run_singleton]
    · have hr (r : ℤ) : c.pt ≠ .ret r := fun he => hr ⟨r, he⟩
      obtain ⟨c', hc', -, hlt⟩ := call_of_own ht hc hr
      obtain ⟨as, r, u, has, hu⟩ := ih _ (hn ▸ hlt) hc' rfl
      refine ⟨c.pt.action p :: as, r, u, List.forall_mem_cons.mpr ⟨⟨action_own p _, ?_⟩, has⟩,
        Schedule.run_cons_eq_some.mpr ⟨t, ht, hu⟩⟩
      intro r' he
      cases hpt : c.pt with
      | ret r => exact hr r hpt
      | _ =>
        rw [hpt] at he
        cases he

/-! A concrete environment, on which runs can be evaluated. -/

def sampleEnv : Env ℕ where
  toKernel := sampleKernel
  NULL := 0
  sleepingThreadList := 1
  list := Ring.relink
  list_ne_null := by decide

def sampleState : State ℕ where
  links := ⟨fun _ => 0, fun _ => 0⟩
  sem := fun _ => 0
  context := fun _ => 0
  initialized := true
  call := fun _ => none

def fallAsleep (p : ℕ) (context : UInt32) (timeout : Int32) : List (Action ℕ) :=
  [.call p context timeout, .check p, .setup p, .append p]

end Nrf9160.Modem
