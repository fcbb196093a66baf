import Nrf9160.Modem.Caller

/-! Which notifies a sleeping thread cannot miss. -/

namespace Nrf9160.Modem

def Call.passedEntry (c : Call) : Prop :=
  c.pt = .setup ∨ c.pt = .append ∨ c.pt = .wait ∨ c.pt = .remove

def Call.awaiting (c : Call) : Prop := c.pt = .wait ∨ c.pt = .remove ∧ c.err ≠ 0

variable {Ptr : Type}

/-- The call has taken a unit, or has one to take, and will not see the flag down. -/
def Caller.Secured (k : Caller) : Prop :=
  k.initialized = true ∧ ∃ c, k.call = some c ∧ (c.pt = .wait ∧ 0 < k.units ∨
    (c.pt = .remove ∨ c.pt = .recheck) ∧ c.err ≠ 0 ∨ c.pt = .ret 0)

variable {E : Env Ptr} {s t : State Ptr} {p : Ptr} {c : Call} {k : Caller} {a : Action Ptr}
  {xs : List Ptr} {context : UInt32} {fuel : ℕ}

theorem le_post_units (wanted : Call → Bool) : k.units ≤ (k.post wanted).units := by
  unfold Caller.post mdxSemPost
  split_ifs
  · exact Nat.le_succ _
  · exact le_rfl

theorem secured_env (h : k.Secured) (ha : a ≠ .setInitialized false) : (k.env a).Secured := by
  obtain ⟨hi, c, hc, hpt⟩ := h
  have post (wanted : Call → Bool) : (k.post wanted).Secured := by
    refine ⟨hi, c, hc, hpt.imp_left ?_⟩
    rintro ⟨hw, hs⟩
    exact ⟨hw, lt_of_lt_of_le hs (le_post_units wanted)⟩
  cases a with
  | notify context fuel => exact post _
  | shutdown fuel => exact post _
  | setInitialized b =>
    cases b with
    | false => exact absurd rfl ha
    | true => exact ⟨rfl, c, hc, hpt⟩
  | _ => exact ⟨hi, c, hc, hpt⟩

theorem secured_own {K : Kernel} (h : k.Secured) (hc : k.call = some c)
    (hr : ∀ r, c.pt ≠ .ret r) : (k.own K (c.pt.action p)).Secured := by
  obtain ⟨hi, d, hd, hpt⟩ := h
  obtain rfl : d = c := Option.some.inj (hd.symm.trans hc)
  rcases hpt with ⟨hw, hs⟩ | ⟨hw | hw, he⟩ | hw
  · rw [hw]
    refine ⟨hi, _, congrArg (Option.map _) hc, .inr (.inl ⟨.inl rfl, ?_⟩)⟩
    intro he
    exact Nat.ne_of_gt hs (mdxSemWaitEnd_fst_eq_zero.mp he)
  · rw [hw]
    exact ⟨hi, _, congrArg (Option.map _) hc, .inr (.inl ⟨.inr rfl, he⟩)⟩
  · rw [hw]
    refine ⟨hi, _, congrArg (Option.map _) hc, .inr (.inr ?_)⟩
    simp [exitCode, hi, he]
  · exact absurd hw (hr 0)

variable [DecidableEq Ptr]

/-- In every run, a call with a positive timeout returns 0 when a notify that is meant for
it runs while it stands in `window`, and the modem stays initialised from then on. -/
def WakesUp (E : Env Ptr) (window : Call → Prop) : Prop :=
  ∀ s p c context fuel t as r u, State.Reached E s → s.initialized = true →
    s.call p = some c → 0 < c.val → window c → context = c.context ∨ context = 0 →
    step E s (.notify context fuel) = some t →
    (∀ a ∈ as, a ≠ .init ∧ a ≠ .setInitialized false ∧ ∀ r', a ≠ .ret p r') →
    Schedule.run (step E) t (as ++ [.ret p r]) = some u → r = 0

theorem secured_step (h : Queue E s xs) (hk : (s.caller p).Secured) (hs : step E s a = some t)
    (ha : a ≠ .init ∧ a ≠ .setInitialized false ∧ ∀ r, a ≠ .ret p r) :
    (t.caller p).Secured := by
  obtain ⟨hi, hf, hr⟩ := ha
  rw [caller_step h hi hs]
  by_cases ho : a.own p = true
  · obtain ⟨_, c, hc, _⟩ := id hk
    have he := own_action hs ho hc
    rw [callerStep_of_own ho, he]
    apply secured_own hk hc
    intro r hpt
    rw [hpt] at he
    exact hr r he
  · rw [callerStep_of_not_own (eq_false_of_ne_true ho)]
    exact secured_env hk hf

theorem secured_notify (h : Queue E s xs) (hs : step E s (.notify context fuel) = some t)
    (hi : s.initialized = true) (hc : s.call p = some c) (hw : c.awaiting)
    (hx : context = c.context ∨ context = 0) : (t.caller p).Secured := by
  have hk := caller_step (p := p) h (by simp) hs
  rw [hk, callerStep_of_not_own rfl]
  refine ⟨hi, c, hc, ?_⟩
  rcases hw with hw | ⟨hw, he⟩
  · refine .inl ⟨hw, ?_⟩
    have hp : (c.context = context ∨ context = 0) := hx.imp_left Eq.symm
    simp [Caller.env, Caller.post, State.caller, hc, hw, hp, mdxSemPost]
  · exact .inr (.inl ⟨.inl hw, he⟩)

/-- A call that is secured and returns can only return 0. -/
theorem eq_zero_of_secured {as : List (Action Ptr)} {u : State Ptr} {r : ℤ} (hq : Queue E t xs)
    (hk : (t.caller p).Secured)
    (has : ∀ a ∈ as, a ≠ .init ∧ a ≠ .setInitialized false ∧ ∀ r', a ≠ .ret p r')
    (hu : Schedule.run (step E) t (as ++ [.ret p r]) = some u) : r = 0 := by
  obtain ⟨v, hv, hu⟩ := Schedule.run_append_eq_some.mp hu
  have hI : (∃ xs, Queue E v xs) ∧ (v.caller p).Secured := by
    refine (Schedule.steps_of_forall fun a ha _ => has a ha).run_invariant
      (G := fun _ a => a ≠ .init ∧ a ≠ .setInitialized false ∧ ∀ r', a ≠ .ret p r')
      (I := fun v => (∃ xs, Queue E v xs) ∧ (v.caller p).Secured) ?_ ⟨⟨xs, hq⟩, hk⟩ hv
    rintro v a w ⟨⟨xs, h⟩, hk⟩ ha hs
    exact ⟨⟨_, h.step (fun he => absurd he ha.1) hs⟩, secured_step h hk hs ha⟩
  obtain ⟨_, _, d, hd, hpt⟩ := hI
  rw [Schedule.run_singleton] at hu
  obtain ⟨e, he, hre, _⟩ := atPoint_eq_some.mp hu
  obtain rfl : d = e := Option.some.inj (hd.symm.trans he)
  rw [hre] at hpt
  simpa using hpt

/-- A notify that comes after the append and before the wait has timed out is not lost. -/
theorem wakesUp_awaiting (E : Env Ptr) : WakesUp E Call.awaiting := by
  intro s p c context fuel t as r u hr hi hc _ hw hx hn has hu
  obtain ⟨xs, hq⟩ := queue_of_reached hr
  exact eq_zero_of_secured (hq.step (fun he => by cases he) hn) (secured_notify hq hn hi hc hw hx)
    has hu

/-- The call that the notify is meant for does return 0: its own steps bring it there. -/
theorem exists_return_of_notify (hr : s.Reached E) (hi : s.initialized = true)
    (hc : s.call p = some c) (hw : c.awaiting) (hx : context = c.context ∨ context = 0)
    (hn : step E s (.notify context fuel) = some t) :
    ∃ as u, (∀ a ∈ as, a.own p = true) ∧
      Schedule.run (step E) t (as ++ [.ret p 0]) = some u := by
  obtain ⟨xs, hq⟩ := queue_of_reached hr
  obtain ⟨as, r, u, has, hu⟩ := exists_return ((step_call_of_not_own hn rfl).trans hc)
  have hquiet : ∀ a ∈ as, a ≠ .init ∧ a ≠ .setInitialized false ∧ ∀ r', a ≠ .ret p r' := by
    intro a ha
    obtain ⟨ho, hret⟩ := has a ha
    refine ⟨?_, ?_, hret⟩
    · rintro rfl
      cases ho
    · rintro rfl
      cases ho
  obtain rfl := eq_zero_of_secured (hq.step (fun he => by cases he) hn)
    (secured_notify hq hn hi hc hw hx) hquiet hu
  exact ⟨as, u, fun a ha => (has a ha).1, hu⟩

theorem wakesUp_awaiting_sample : ∃ s t,
    Schedule.run (step sampleEnv) sampleState (.init :: fallAsleep 2 7 100) = some s ∧
      step sampleEnv s (.notify 7 2) = some t ∧
      (Schedule.run (step sampleEnv) t
        ([.wait 2, .remove 2, .recheck 2] ++ [.ret 2 0])).isSome = true ∧
      ∀ r u, Schedule.run (step sampleEnv) t
        ([.wait 2, .remove 2, .recheck 2] ++ [.ret 2 r]) = some u → r = 0 := by
  have h : (Schedule.run (step sampleEnv) sampleState (.init :: fallAsleep 2 7 100)).any
      (fun s => s.initialized ∧ s.call 2 = some { context := 7, val := 100, pt := .wait } ∧
        (step sampleEnv s (.notify 7 2)).any fun t => (Schedule.run (step sampleEnv) t
          ([.wait 2, .remove 2, .recheck 2] ++ [.ret 2 0])).isSome) = true := by decide
  obtain ⟨s, hs, h⟩ := (Option.any_eq_true ..).mp h
  obtain ⟨hi, hc, h⟩ := of_decide_eq_true h
  obtain ⟨t, ht, hu⟩ := (Option.any_eq_true ..).mp h
  refine ⟨s, t, hs, ht, hu, ?_⟩
  intro r u hr
  have hreach : s.Reached sampleEnv := sample_reached (by decide) hs
  exact wakesUp_awaiting sampleEnv s 2 _ 7 2 t _ r u hreach hi hc (by decide) (.inl rfl)
    (.inl rfl) ht (by simp) hr

/-- A run of the sample in which the call at 2 stands at `pt` when the notify for it runs, and
returns `-NRF_EAGAIN` all the same. -/
theorem not_wakesUp_of_run {window : Call → Prop} {pt : Point} {fuel : ℕ}
    {as bs : List (Action ℕ)} (hpt : ∀ c : Call, c.pt = pt → window c)
    (has : ∀ a ∈ as, a ≠ .init)
    (hbs : ∀ b ∈ bs, b ≠ .init ∧ b ≠ .setInitialized false ∧ ∀ r, b ≠ .ret 2 r)
    (h : (Schedule.run (step sampleEnv) sampleState (.init :: as)).any (fun s =>
      s.initialized ∧ s.call 2 = some { context := 7, val := 100, pt } ∧
        (step sampleEnv s (.notify 7 fuel)).any fun t => (Schedule.run (step sampleEnv) t
          (bs ++ [.ret 2 (-11)])).isSome) = true) : ¬WakesUp sampleEnv window := by
  intro hw
  obtain ⟨s, hs, h⟩ := (Option.any_eq_true ..).mp h
  obtain ⟨hi, hc, h⟩ := of_decide_eq_true h
  obtain ⟨t, ht, h⟩ := (Option.any_eq_true ..).mp h
  obtain ⟨u, hu⟩ := Option.isSome_iff_exists.mp h
  have hval : (0 : Int32) < 100 := by decide
  have hr := hw s 2 _ 7 fuel t bs (-11) u (sample_reached has hs) hi hc hval (hpt _ rfl)
    (.inl rfl) ht hbs hu
  exact absurd hr (by decide)

/-- The notify that falls between the entry check and the append of the call at 2. -/
theorem not_wakesUp_passedEntry : ¬WakesUp sampleEnv Call.passedEntry := by
  have h : (Schedule.run (step sampleEnv) sampleState
      (.init :: [.call 2 7 100, .check 2])).any
      (fun s => s.initialized ∧ s.call 2 = some { context := 7, val := 100, pt := .setup } ∧
        (step sampleEnv s (.notify 7 1)).any fun t => (Schedule.run (step sampleEnv) t
          ([.setup 2, .append 2, .wait 2, .remove 2, .recheck 2] ++ [.ret 2 (-11)])).isSome) =
      true := by decide
  exact not_wakesUp_of_run (fun _ => Or.inl) (by decide) (by simp) h

/-- The notify that falls between the end of a wait by its timeout and the removal. -/
theorem not_wakesUp_remove : ¬WakesUp sampleEnv fun c => c.pt = .remove := by
  have h : (Schedule.run (step sampleEnv) sampleState
      (.init :: (fallAsleep 2 7 100 ++ [.wait 2]))).any
      (fun s => s.initialized ∧ s.call 2 = some { context := 7, val := 100, pt := .remove } ∧
        (step sampleEnv s (.notify 7 2)).any fun t => (Schedule.run (step sampleEnv) t
          ([.remove 2, .recheck 2] ++ [.ret 2 (-11)])).isSome) = true := by decide
  exact not_wakesUp_of_run (fun _ hc => hc) (by decide) (by simp) h

end Nrf9160.Modem
