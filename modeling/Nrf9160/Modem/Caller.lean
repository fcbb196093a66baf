import Nrf9160.Modem.Queue

/-! One call of `nrf_modem_os_timedwait` seen alone. What it reads of the shared state is
its own record, the flag and the units its wait can take, and these move by a machine that
knows nothing of the other threads. -/

namespace Nrf9160.Modem

structure Caller where
  call : Option Call
  initialized : Bool
  units : ℕ

variable {Ptr : Type}

def State.caller (s : State Ptr) (p : Ptr) : Caller where
  call := s.call p
  initialized := s.initialized
  units := if (s.call p).any fun c => c.pt = .wait then s.sem p else 0

def Caller.move (k : Caller) (f : Call → Call) : Caller := { k with call := k.call.map f }

def Caller.post (k : Caller) (wanted : Call → Bool) : Caller :=
  { k with
    units := if k.call.any fun c => c.pt = .wait ∧ wanted c then mdxSemPost k.units
      else k.units }

def Caller.own (K : Kernel) (k : Caller) : Action Ptr → Caller
  | .call _ context timeout => { k with call := some { context := context, val := timeout } }
  | .check _ => k.move fun c => { c with pt := entryPoint K k.initialized c.val }
  | .yield _ => k.move fun c => { c with pt := .ret (-K.NRF_EAGAIN) }
  | .setup _ => k.move fun c => { c with pt := .append }
  | .append _ => k.move fun c => { c with pt := .wait }
  | .wait _ => { k with units := 0 }.move fun c =>
      { c with err := (mdxSemWaitEnd K k.units).1, pt := .remove }
  | .remove _ => k.move fun c => { c with pt := .recheck }
  | .recheck _ => k.move fun c => { c with pt := .ret (exitCode K k.initialized c.val c.err) }
  | .ret _ _ => { k with call := none }
  | _ => k

def Caller.env (k : Caller) : Action Ptr → Caller
  | .notify context _ => k.post fun c => c.context = context ∨ context = 0
  | .shutdown _ => k.post fun _ => true
  | .setInitialized b => { k with initialized := b }
  | _ => k

variable {E : Env Ptr} {s t : State Ptr} {p q : Ptr} {c : Call}
  {a : Action Ptr} {as bs : List (Action Ptr)} {xs : List Ptr} {context : UInt32}

theorem caller_of_call (h : s.call p = some c) :
    s.caller p = ⟨some c, s.initialized, if c.pt = .wait then s.sem p else 0⟩ := by
  simp only [State.caller, h, Option.any_some, decide_eq_true_eq]

theorem caller_congr {u : State Ptr} (hc : u.call p = s.call p)
    (hi : u.initialized = s.initialized) (hs : u.sem p = s.sem p) : u.caller p = s.caller p := by
  rw [State.caller, State.caller, hc, hi, hs]

theorem caller_post {wanted : Call → Bool} {posted : Ptr → Bool}
    (hp : posted p = (s.call p).any fun c => c.queued ∧ wanted c) :
    ({ s with sem := fun q => if posted q then mdxSemPost (s.sem q) else s.sem q } :
      State Ptr).caller p = (s.caller p).post wanted := by
  cases hc : s.call p with
  | none => simp [State.caller, Caller.post, hc]
  | some c =>
    rw [hc, Option.any_some] at hp
    simp only [State.caller, Caller.post, hc, Option.any_some, hp, Call.queued,
      decide_eq_true_eq]
    by_cases hw : c.pt = .wait
    · simp only [hw, true_or, true_and, if_true]
    · simp only [hw, false_and, if_false]

variable [DecidableEq Ptr]

def callerStep (E : Env Ptr) (p : Ptr) (k : Caller) (a : Action Ptr) : Caller :=
  if a.own p then k.own E.toKernel a else k.env a

theorem callerStep_of_not_own {k : Caller} (ha : a.own p = false) :
    callerStep E p k a = k.env a := by
  rw [callerStep, if_neg (by simp [ha])]

theorem callerStep_of_own {k : Caller} (ha : a.own p = true) :
    callerStep E p k a = k.own E.toKernel a := by
  rw [callerStep, if_pos ha]

theorem caller_setCall_self :
    (s.setCall p (some c)).caller p =
      ⟨some c, s.initialized, if c.pt = .wait then s.sem p else 0⟩ := by
  rw [caller_of_call (setCall_call_self _), setCall_initialized, setCall_sem]

theorem caller_of_ne {u : State Ptr} {o : Option Call} (h : p ≠ q)
    (hc : u.call p = s.call p) (hi : u.initialized = s.initialized) (hs : u.sem p = s.sem p) :
    (u.setCall q o).caller p = s.caller p := by
  apply caller_congr
  · rw [setCall_call_ne _ h, hc]
  · rw [setCall_initialized, hi]
  · rw [setCall_sem, hs]

theorem caller_step_own (h : Queue E s xs) (ha : a.own p = true) (hs : step E s a = some t) :
    t.caller p = (s.caller p).own E.toKernel a := by
  cases a with
  | call q context timeout =>
    obtain rfl : q = p := of_decide_eq_true ha
    simp only [step, Option.ite_none_right_eq_some, Option.some.injEq] at hs
    obtain ⟨⟨_, _, hc⟩, rfl⟩ := hs
    rw [caller_setCall_self, State.caller, hc]
    rfl
  | ret q r =>
    obtain rfl : q = p := of_decide_eq_true ha
    obtain ⟨c, hc, hpt, rfl⟩ := atPoint_eq_some.mp hs
    simp [State.caller, Caller.own, hc, hpt]
  | check q =>
    obtain rfl : q = p := of_decide_eq_true ha
    obtain ⟨c, hc, hpt, rfl⟩ := atPoint_eq_some.mp hs
    have he : entryPoint E.toKernel s.initialized c.val ≠ .wait := by
      unfold entryPoint
      split_ifs <;> simp
    rw [caller_setCall_self, caller_of_call hc, if_neg he, if_neg (by simp [hpt])]
    rfl
  | append q =>
    obtain rfl : q = p := of_decide_eq_true ha
    obtain ⟨c, hc, hpt, rfl⟩ := atPoint_eq_some.mp hs
    -- the semaphore still holds what `mdx_sem_init` has put there
    rw [caller_setCall_self, caller_of_call hc, if_pos rfl, if_neg (by simp [hpt]),
      (h.ok q).fresh c hc hpt]
    rfl
  | wait q =>
    obtain rfl : q = p := of_decide_eq_true ha
    obtain ⟨c, hc, hpt, rfl⟩ := atPoint_eq_some.mp hs
    rw [caller_setCall_self, caller_of_call hc, if_pos hpt]
    rfl
  | notify | shutdown | setInitialized | init => cases ha
  | _ q =>
    obtain rfl : q = p := of_decide_eq_true ha
    obtain ⟨c, hc, hpt, rfl⟩ := atPoint_eq_some.mp hs
    rw [caller_setCall_self, caller_of_call hc, if_neg (by simp), if_neg (by simp [hpt])]
    rfl

theorem caller_step_env (h : Queue E s xs) (hi : a ≠ .init) (ha : a.own p = false)
    (hs : step E s a = some t) : t.caller p = (s.caller p).env a := by
  cases a with
  | call q context timeout =>
    simp only [step, Option.ite_none_right_eq_some, Option.some.injEq] at hs
    obtain ⟨_, rfl⟩ := hs
    exact caller_of_ne (Ne.symm (of_decide_eq_false ha)) rfl rfl rfl
  | notify context fuel =>
    have hn := (Option.ite_none_right_eq_some.mp ((h.notify_eq context fuel).symm.trans hs)).2
    cases hn
    apply caller_post
    simp [State.wakes]
  | shutdown fuel =>
    have hn := (Option.ite_none_right_eq_some.mp ((h.shutdown_eq fuel).symm.trans hs)).2
    cases hn
    apply caller_post
    simp [State.queued]
  | setInitialized b =>
    cases hs
    rfl
  | init => exact absurd rfl hi
  | _ q =>
    obtain ⟨c, hc, hpt, rfl⟩ := atPoint_eq_some.mp hs
    have hq : p ≠ q := Ne.symm (of_decide_eq_false ha)
    apply caller_of_ne hq
    · rfl
    · rfl
    · simp [State.setupTd, Function.update_of_ne hq]

/-- The machine of one call simulates every step of the system that is not a further
`nrf_modem_os_init`. -/
theorem caller_step (h : Queue E s xs) (ha : a ≠ .init) (hs : step E s a = some t) :
    t.caller p = callerStep E p (s.caller p) a := by
  by_cases ho : a.own p = true
  · rw [callerStep_of_own ho]
    exact caller_step_own h ho hs
  · have ho' := eq_false_of_ne_true ho
    rw [callerStep_of_not_own ho']
    exact caller_step_env h ha ho' hs

end Nrf9160.Modem
