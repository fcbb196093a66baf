import Nrf9160.Modem.Queue

/-! Sleeping threads over a shutdown and a further `nrf_modem_os_init`, which empties the
list whatever is linked into it. -/

namespace Nrf9160.Modem

variable {Ptr : Type} [DecidableEq Ptr]

/-- The `td` that the loops over the list come to in round `n`, or `NULL` after their end. -/
def visit (E : Env Ptr) (L : Ring.Links Ptr) : ℕ → Ptr
  | 0 => tdFirst E L
  | n + 1 => if visit E L n = E.NULL then E.NULL else tdNext E L (visit E L n)

def OnList (E : Env Ptr) (L : Ring.Links Ptr) (p : Ptr) : Prop :=
  p ≠ E.NULL ∧ ∃ n, visit E L n = p

/-- Every queued call is reachable from the list head, and a notify that is meant for it
posts to it. -/
def SleepersReachable (E : Env Ptr) (s : State Ptr) : Prop :=
  ∀ p, s.queued p = true → OnList E s.links p ∧ ∀ context, s.wakes context p = true →
    ∃ fuel t, nrfModemOsEventNotify E context fuel s = some t ∧ t.sem p = mdxSemPost (s.sem p)

def QuietInit (s : State Ptr) (a : Action Ptr) : Prop := a = .init → ∀ p, s.queued p = false

variable {E : Env Ptr} {s t : State Ptr} {L : Ring.Links Ptr} {xs : List Ptr} {p : Ptr}
  {a : Action Ptr}

theorem visit_eq (h : Ring.Rep L E.sleepingThreadList xs) (hn : E.NULL ∉ xs) (n : ℕ) :
    visit E L n = (xs.drop n).headD E.NULL := by
  induction n with
  | zero => exact tdFirst_eq h
  | succ n ih =>
    rw [visit, ih]
    cases hd : xs.drop n with
    | nil =>
      have hd' : xs.drop (n + 1) = [] := List.drop_eq_nil_of_le <| by
        have := List.drop_eq_nil_iff.mp hd
        omega
      rw [hd', List.headD_nil, if_pos rfl]
    | cons x ys =>
      have hx : x ≠ E.NULL := by
        intro he
        apply hn
        rw [← he]
        exact List.mem_of_mem_drop (hd ▸ List.mem_cons_self)
      have hs : xs.take n ++ x :: ys = xs := hd ▸ List.take_append_drop n xs
      have hd' : xs.drop (n + 1) = ys := by
        rw [← List.drop_drop, hd, List.drop_one, List.tail_cons]
      rw [List.headD_cons, if_neg hx, tdNext_eq (hs.symm ▸ h), hd']

theorem onList_iff (h : Ring.Rep L E.sleepingThreadList xs) (hn : E.NULL ∉ xs) :
    OnList E L p ↔ p ∈ xs := by
  simp only [OnList, visit_eq h hn]
  constructor
  · rintro ⟨hp, n, he⟩
    cases hd : xs.drop n with
    | nil =>
      rw [hd] at he
      exact absurd he.symm hp
    | cons x ys =>
      rw [hd, List.headD_cons] at he
      exact List.mem_of_mem_drop (he ▸ hd ▸ List.mem_cons_self)
  · intro hp
    obtain ⟨n, hlt, he⟩ := List.mem_iff_getElem.mp hp
    refine ⟨fun hp' => hn (hp' ▸ hp), n, ?_⟩
    rw [List.drop_eq_getElem_cons hlt, List.headD_cons, he]

theorem Queue.sleepersReachable (h : Queue E s xs) : SleepersReachable E s := by
  intro p hp
  refine ⟨(onList_iff h.ring h.null_notMem).mpr ((h.ok p).mem_iff.mpr hp), fun context hw => ?_⟩
  refine ⟨xs.length + 1, _, (h.notify_eq ..).trans (if_pos (Nat.lt_succ_self _)), ?_⟩
  exact if_pos hw

theorem quietInit_of_sleepersReachable (hs : step E s a = some t) (ht : SleepersReachable E t) :
    QuietInit s a := by
  rintro rfl p
  obtain rfl : nrfModemOsInit E s = t := Option.some.inj hs
  by_contra hp
  obtain ⟨⟨hn, hv⟩, _⟩ := ht p (eq_true_of_ne_false hp)
  -- the ring is empty after the reset, so no round of the loop comes to `p`
  have hr : Ring.Rep (nrfModemOsInit E s).links E.sleepingThreadList [] := E.list.init_rep _ _
  exact List.not_mem_nil ((onList_iff hr List.not_mem_nil).mp ⟨hn, hv⟩)

/-- The sleepers of a run stay reachable exactly when every further `nrf_modem_os_init`
in it comes at a moment when no call is queued. -/
theorem sleepersReachable_iff (h0 : s.Idle) (as : List (Action Ptr)) :
    Schedule.Always (step E) (SleepersReachable E) (nrfModemOsInit E s) as ↔
      Schedule.Steps (step E) QuietInit (nrfModemOsInit E s) as := by
  refine Schedule.always_iff_steps (I := fun v => ∃ xs, Queue E v xs) (q := fun _ => True)
    ?_ ?_ ?_ (fun _ _ => trivial) ⟨[], queue_init h0⟩
  · rintro v ⟨xs, h⟩
    exact h.sleepersReachable
  · rintro v a w - ⟨xs, h⟩ hg hs
    refine ⟨_, h.step (fun ha => ?_) hs⟩
    apply List.eq_nil_iff_forall_not_mem.mpr
    intro p hp
    exact Bool.false_ne_true ((hg ha p).symm.trans ((h.ok p).mem_iff.mp hp))
  · intro v a w _ _ hs hw
    exact quietInit_of_sleepersReachable hs hw

theorem call_of_run {as : List (Action Ptr)} (ha : ∀ a ∈ as, a.own p = false)
    (hr : Schedule.run (step E) s as = some t) : t.call p = s.call p := by
  refine (Schedule.steps_of_forall fun a h _ => ha a h).run_invariant
    (G := fun _ a => a.own p = false) (I := fun v => v.call p = s.call p) ?_ rfl hr
  intro v a w hv ha hs
  exact (step_call_of_not_own hs ha).trans hv

/-- The call at 2 comes and goes, and the list is initialised again when it has returned. -/
def comesAndGoes : List (Action ℕ) :=
  fallAsleep 2 7 100 ++ [.shutdown 2, .wait 2, .remove 2, .recheck 2, .ret 2 0]

theorem sleepersReachable_iff_sample :
    Schedule.Always (step sampleEnv) (SleepersReachable sampleEnv)
      (nrfModemOsInit sampleEnv sampleState)
      (comesAndGoes ++ .init :: (fallAsleep 3 8 100 ++ [.shutdown 2])) := by
  apply (sleepersReachable_iff (fun _ => rfl) _).mpr
  have quiet (s : State ℕ) (as : List (Action ℕ)) (has : ∀ a ∈ as, a ≠ .init) :
      Schedule.Steps (step sampleEnv) QuietInit s as :=
    Schedule.steps_of_forall fun a ha _ he => absurd he (has a ha)
  refine (quiet _ _ (by decide)).append fun t ht u _ => ⟨fun _ p => ?_, quiet _ _ (by decide)⟩
  have hcall : t.call p = none := by
    by_cases hp : p = 2
    · have h : (Schedule.run (step sampleEnv) (nrfModemOsInit sampleEnv sampleState)
          comesAndGoes).all (fun t => t.call 2 = none) = true := by decide
      rw [ht] at h
      exact hp ▸ of_decide_eq_true h
    · refine call_of_run (s := nrfModemOsInit sampleEnv sampleState) ?_ ht
      simp [comesAndGoes, fallAsleep, Action.own, Ne.symm hp]
  rw [State.queued, hcall]
  rfl

theorem visit_eq_null (h : tdFirst E L = E.NULL) (n : ℕ) : visit E L n = E.NULL := by
  induction n with
  | zero => exact h
  | succ n ih => rw [visit, if_pos ih]

/-- The call at 2 is queued over a shutdown and a re-initialisation, the one at 3 comes
after it, and the late removal of 2 closes the ring at its head. -/
def lateRemove : List (Action ℕ) :=
  fallAsleep 2 7 100 ++ [.setInitialized false, .shutdown 2, .init, .setInitialized true] ++
    fallAsleep 3 8 100 ++ [.wait 2, .remove 2]

theorem lateRemove_drops_three : ∃ t,
    Schedule.run (step sampleEnv) (nrfModemOsInit sampleEnv sampleState) lateRemove = some t ∧
      t.queued 3 = true ∧ ¬OnList sampleEnv t.links 3 := by
  have h : (Schedule.run (step sampleEnv) (nrfModemOsInit sampleEnv sampleState) lateRemove).any
      (fun t => t.queued 3 ∧ tdFirst sampleEnv t.links = sampleEnv.NULL) = true := by decide
  obtain ⟨t, hr, ht⟩ := Option.any_eq_true .. |>.mp h
  obtain ⟨hq, hf⟩ := of_decide_eq_true ht
  refine ⟨t, hr, hq, ?_⟩
  rintro ⟨hn, n, hv⟩
  rw [visit_eq_null hf] at hv
  exact hn hv.symm

end Nrf9160.Modem
