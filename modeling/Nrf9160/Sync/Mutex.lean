import Mathlib.Data.Int.Notation
import Mathlib.Logic.Function.Basic
import Mathlib.Tactic.SplitIfs
import Nrf9160.Lib.Prog
import Nrf9160.Lib.Run

/-! The mutexes of the modem library: the text of `nrf_modem_os_mutex_lock` and
`nrf_modem_os_mutex_unlock`, and the system of all threads that call them. -/

namespace Nrf9160.Mutex

inductive MtxCall where
  | lock
  | timedlock (usec : Int32)
  | unlock

/-- Only `mdx_mutex_timedlock` has an answer: whether it acquired the mutex. -/
@[reducible] def MtxCall.Answer : MtxCall → Type
  | .timedlock _ => Bool
  | _ => Unit

abbrev MtxProg := Prog MtxCall MtxCall.Answer

def mdxMutexLock : MtxProg Unit := .call .lock .ret

def mdxMutexTimedlock (usec : Int32) : MtxProg Bool := .call (.timedlock usec) .ret

def mdxMutexUnlock : MtxProg Unit := .call .unlock .ret

def nrfModemOsMutexLock (timeout : Int32) : MtxProg ℤ := do
  if timeout = -1 then
    mdxMutexLock
  else
    -- whether it has acquired the mutex is not looked at
    let _ ← mdxMutexTimedlock (timeout * 1000)
  return 0

def nrfModemOsMutexUnlock : MtxProg ℤ := do
  mdxMutexUnlock
  return 0

inductive Job where
  | lock
  | unlock
  deriving DecidableEq

structure Running (Mtx : Type) where
  mutex : Mtx
  job : Job
  prog : MtxProg ℤ

/-- `inside m t`: thread `t` is in its critical section for `m`, which it enters when
`nrf_modem_os_mutex_lock` has returned 0 and leaves by calling the unlock. -/
structure State (Thread Mtx : Type) where
  owner : Mtx → Option Thread
  inside : Mtx → Thread → Bool
  running : Thread → Option (Running Mtx)

/-- `acquire`, `expire` and `release` are the kernel: it ends a lock with the mutex held, a
timed lock without it, and an unlock. -/
inductive Action (Thread Mtx : Type) where
  | init (m : Mtx)
  | lock (t : Thread) (m : Mtx) (timeout : Int32)
  | unlock (t : Thread) (m : Mtx)
  | acquire (t : Thread)
  | expire (t : Thread)
  | release (t : Thread)
  | ret (t : Thread)
  deriving DecidableEq

/-- `mdx_mutex_unlock`: the mutex of its owner is free after it, and what it does for a
thread that is not the owner is the kernel's own. -/
structure Kernel (Thread : Type) where
  unlock : Option Thread → Thread → Option Thread
  unlock_owner : ∀ t, unlock (some t) t = none

variable {Thread Mtx : Type}

section

variable [DecidableEq Thread] [DecidableEq Mtx]

def State.setRunning (s : State Thread Mtx) (t : Thread) (j : Option (Running Mtx)) :
    State Thread Mtx :=
  { s with running := Function.update s.running t j }

def State.setOwner (s : State Thread Mtx) (m : Mtx) (o : Option Thread) : State Thread Mtx :=
  { s with owner := Function.update s.owner m o }

def State.setInside (s : State Thread Mtx) (m : Mtx) (t : Thread) (b : Bool) :
    State Thread Mtx :=
  { s with inside := Function.update s.inside m (Function.update (s.inside m) t b) }

def State.grant (s : State Thread Mtx) (t : Thread) (j : Running Mtx) (p : MtxProg ℤ) :
    Option (State Thread Mtx) :=
  if s.owner j.mutex = none then
    some ((s.setOwner j.mutex (some t)).setRunning t (some { j with prog := p }))
  else none

def step (K : Kernel Thread) (s : State Thread Mtx) :
    Action Thread Mtx → Option (State Thread Mtx)
  | .init m => some (s.setOwner m none)
  | .lock t m timeout =>
    if (s.running t).isNone then
      some (s.setRunning t (some ⟨m, .lock, nrfModemOsMutexLock timeout⟩))
    else none
  | .unlock t m =>
    if (s.running t).isNone ∧ s.inside m t then
      some ((s.setInside m t false).setRunning t (some ⟨m, .unlock, nrfModemOsMutexUnlock⟩))
    else none
  | .acquire t => (s.running t).bind fun j => match j.prog with
    | .call .lock k => s.grant t j (k ())
    | .call (.timedlock _) k => s.grant t j (k true)
    | _ => none
  | .expire t => (s.running t).bind fun j => match j.prog with
    | .call (.timedlock _) k => some (s.setRunning t (some { j with prog := k false }))
    | _ => none
  | .release t => (s.running t).bind fun j => match j.prog with
    | .call .unlock k => some ((s.setOwner j.mutex (K.unlock (s.owner j.mutex) t)).setRunning t
        (some { j with prog := k () }))
    | _ => none
  | .ret t => (s.running t).bind fun j => match j.prog with
    | .ret r =>
      if j.job = .lock ∧ r = 0 then some ((s.setInside j.mutex t true).setRunning t none)
      else some (s.setRunning t none)
    | _ => none

def Exclusive (m : Mtx) (s : State Thread Mtx) : Prop :=
  ∀ t u, s.inside m t = true → s.inside m u = true → t = u

/-- The step is not the end of a timed lock of `m` because its time ran out. -/
def InTime (m : Mtx) (s : State Thread Mtx) : Action Thread Mtx → Prop
  | .expire t => ∀ j, s.running t = some j → j.mutex ≠ m
  | _ => True

def State.Unused (s : State Thread Mtx) (m : Mtx) : Prop :=
  ∀ t, s.inside m t = false ∧ ∀ j, s.running t = some j → j.mutex ≠ m

inductive Stage : Job → MtxProg ℤ → Prop where
  | lock : Stage .lock (.call .lock fun _ => .ret 0)
  | timedlock (usec : Int32) : Stage .lock (.call (.timedlock usec) fun _ => .ret 0)
  | locked : Stage .lock (.ret 0)
  | unlock : Stage .unlock (.call .unlock fun _ => .ret 0)
  | unlocked : Stage .unlock (.ret 0)

/-- The thread has the mutex by what it has run: a lock that is about to return, or an
unlock that has not reached the kernel. -/
def Running.holds (j : Running Mtx) : Bool :=
  match j.job, j.prog with
  | .lock, .ret _ => true
  | .unlock, .call _ _ => true
  | _, _ => false

structure Pending (s : State Thread Mtx) (m : Mtx) (t : Thread) (j : Running Mtx) : Prop where
  stage : Stage j.job j.prog
  owns : j.holds = true → s.owner m = some t
  left : j.job = .unlock → j.holds = true → s.inside m t = false

structure Owns (s : State Thread Mtx) (m : Mtx) (t : Thread) : Prop where
  inside : s.inside m t = true → s.owner m = some t
  pending : ∀ j, s.running t = some j → j.mutex = m → Pending s m t j

end

variable {K : Kernel Thread} {s s' : State Thread Mtx} {m : Mtx} {t u : Thread}
  {j : Running Mtx} {a : Action Thread Mtx} {as : List (Action Thread Mtx)}

theorem nrfModemOsMutexLock_eq (timeout : Int32) :
    nrfModemOsMutexLock timeout = if timeout = -1 then .call .lock fun _ => .ret 0
      else .call (.timedlock (timeout * 1000)) fun _ => .ret 0 := by
  unfold nrfModemOsMutexLock
  split_ifs <;> rfl

theorem pending_lock (n : Mtx) (timeout : Int32) :
    Pending s m t ⟨n, .lock, nrfModemOsMutexLock timeout⟩ := by
  rw [nrfModemOsMutexLock_eq]
  constructor
  · split_ifs
    · exact .lock
    · exact .timedlock _
  · split_ifs <;> exact fun h => nomatch h
  · exact fun h => nomatch h

theorem Owns.frame (h : Owns s m u) (hi : s'.inside m u = s.inside m u)
    (ho : s'.owner m = s.owner m ∨ s.owner m ≠ some u)
    (hr : s'.running u = s.running u ∨ ∀ j, s'.running u = some j → j.mutex ≠ m) :
    Owns s' m u := by
  have own {P : Prop} (hP : P → s.owner m = some u) (hp : P) : s'.owner m = some u := by
    rcases ho with ho | ho
    · exact ho.trans (hP hp)
    · exact absurd (hP hp) ho
  constructor
  · rw [hi]
    exact own h.inside
  · intro j hj hm
    rcases hr with hr | hr
    · have hp := h.pending j (hr ▸ hj) hm
      refine ⟨hp.stage, own hp.owns, ?_⟩
      rw [hi]
      exact hp.left
    · exact absurd hm (hr j hj)

theorem owns_of_local (h : ∀ u, Owns s m u) (ht : Owns s' m t)
    (hi : ∀ u, u ≠ t → s'.inside m u = s.inside m u)
    (ho : ∀ u, u ≠ t → s'.owner m = s.owner m ∨ s.owner m ≠ some u)
    (hr : ∀ u, u ≠ t → s'.running u = s.running u) : ∀ u, Owns s' m u := by
  intro u
  by_cases hu : u = t
  · exact hu ▸ ht
  · exact (h u).frame (hi u hu) (ho u hu) (.inl (hr u hu))

theorem owns_of_other (h : ∀ u, Owns s m u) (hi : s'.inside m = s.inside m)
    (ho : s'.owner m = s.owner m) (ht : ∀ j, s'.running t = some j → j.mutex ≠ m)
    (hr : ∀ u, u ≠ t → s'.running u = s.running u) : ∀ u, Owns s' m u := by
  intro u
  refine (h u).frame (congrFun hi u) (.inl ho) ?_
  by_cases hu : u = t
  · subst hu
    exact .inr ht
  · exact .inl (hr u hu)

theorem exclusive_of_owns (h : ∀ u, Owns s m u) : Exclusive m s := by
  intro t u ht hu
  exact Option.some.inj (((h t).inside ht).symm.trans ((h u).inside hu))

section

variable [DecidableEq Thread]

@[simp] theorem setRunning_running_self (o : Option (Running Mtx)) :
    (s.setRunning t o).running t = o := by
  show Function.update s.running t o t = o
  exact Function.update_self ..

theorem eq_of_setRunning {i : Running Mtx} (h : (s.setRunning t (some i)).running t = some j) :
    i = j := by
  rw [setRunning_running_self] at h
  exact Option.some.inj h

theorem setRunning_none_ne (j : Running Mtx) : (s.setRunning t none).running t ≠ some j := by
  rw [setRunning_running_self]
  exact fun h => nomatch h

theorem setRunning_running_ne (o : Option (Running Mtx)) (h : u ≠ t) :
    (s.setRunning t o).running u = s.running u := by
  show Function.update s.running t o u = s.running u
  exact Function.update_of_ne h ..

@[simp] theorem setRunning_inside (o : Option (Running Mtx)) :
    (s.setRunning t o).inside = s.inside := rfl

theorem running_mutex_ne {n : Mtx} {job : Job} {p : MtxProg ℤ} (h : n ≠ m) :
    ∀ j, (s.setRunning t (some ⟨n, job, p⟩)).running t = some j → j.mutex ≠ m := by
  intro j hj
  exact eq_of_setRunning hj ▸ h

end

section

variable [DecidableEq Mtx]

@[simp] theorem setOwner_owner_self (o : Option Thread) : (s.setOwner m o).owner m = o := by
  show Function.update s.owner m o m = o
  exact Function.update_self ..

theorem setOwner_owner_ne {n : Mtx} (o : Option Thread) (h : m ≠ n) :
    (s.setOwner n o).owner m = s.owner m := by
  show Function.update s.owner n o m = s.owner m
  exact Function.update_of_ne h ..

end

variable [DecidableEq Thread] [DecidableEq Mtx]

@[simp] theorem setInside_inside_self (b : Bool) : (s.setInside m t b).inside m t = b := by
  show Function.update s.inside m (Function.update (s.inside m) t b) m t = b
  rw [Function.update_self, Function.update_self]

theorem setInside_inside_ne {n : Mtx} (b : Bool) (h : m ≠ n ∨ u ≠ t) :
    (s.setInside n t b).inside m u = s.inside m u := by
  show Function.update s.inside n (Function.update (s.inside n) t b) m u = s.inside m u
  by_cases hm : m = n
  · subst hm
    rw [Function.update_self, Function.update_of_ne (h.resolve_left fun hn => hn rfl)]
  · rw [Function.update_of_ne hm]

theorem acquire_cases (hs : step K s (.acquire t) = some s') :
    ∃ n job p p', s.running t = some ⟨n, job, p⟩ ∧ s.owner n = none ∧
      s' = (s.setOwner n (some t)).setRunning t (some ⟨n, job, p'⟩) ∧
      (Stage job p → job = .lock ∧ p' = .ret 0) := by
  obtain ⟨⟨n, job, p⟩, hj, hs⟩ := Option.bind_eq_some_iff.mp hs
  cases p with
  | ret r => cases hs
  | call c k =>
    cases c with
    | unlock => cases hs
    | lock =>
      obtain ⟨hn, hs⟩ := Option.ite_none_right_eq_some.mp hs
      refine ⟨n, job, _, k (), hj, hn, (Option.some.inj hs).symm, ?_⟩
      rintro ⟨⟩
      exact ⟨rfl, rfl⟩
    | timedlock usec =>
      obtain ⟨hn, hs⟩ := Option.ite_none_right_eq_some.mp hs
      refine ⟨n, job, _, k true, hj, hn, (Option.some.inj hs).symm, ?_⟩
      rintro ⟨⟩
      exact ⟨rfl, rfl⟩

theorem expire_cases (hs : step K s (.expire t) = some s') :
    ∃ n job p p', s.running t = some ⟨n, job, p⟩ ∧
      s' = s.setRunning t (some ⟨n, job, p'⟩) := by
  obtain ⟨⟨n, job, p⟩, hj, hs⟩ := Option.bind_eq_some_iff.mp hs
  cases p with
  | ret r => cases hs
  | call c k =>
    cases c with
    | timedlock usec => exact ⟨n, job, _, k false, hj, (Option.some.inj hs).symm⟩
    | _ => cases hs

theorem release_cases (hs : step K s (.release t) = some s') :
    ∃ n job p p', s.running t = some ⟨n, job, p⟩ ∧
      s' = (s.setOwner n (K.unlock (s.owner n) t)).setRunning t (some ⟨n, job, p'⟩) ∧
      (Stage job p → (⟨n, job, p⟩ : Running Mtx).holds = true ∧ job = .unlock ∧ p' = .ret 0) := by
  obtain ⟨⟨n, job, p⟩, hj, hs⟩ := Option.bind_eq_some_iff.mp hs
  cases p with
  | ret r => cases hs
  | call c k =>
    cases c with
    | unlock =>
      refine ⟨n, job, _, k (), hj, (Option.some.inj hs).symm, ?_⟩
      rintro ⟨⟩
      exact ⟨rfl, rfl, rfl⟩
    | _ => cases hs

theorem ret_cases (hs : step K s (.ret t) = some s') :
    ∃ n job r, s.running t = some ⟨n, job, .ret r⟩ ∧
      (job = .lock ∧ s' = (s.setInside n t true).setRunning t none ∨
        s' = s.setRunning t none) := by
  obtain ⟨⟨n, job, p⟩, hj, hs⟩ := Option.bind_eq_some_iff.mp hs
  cases p with
  | ret r =>
    refine ⟨n, job, r, hj, ?_⟩
    by_cases hl : job = .lock ∧ r = 0
    · exact .inl ⟨hl.1, (Option.some.inj ((if_pos hl).symm.trans hs)).symm⟩
    · exact .inr (Option.some.inj ((if_neg hl).symm.trans hs)).symm
  | call c k => cases hs

theorem owns_acquire (h : ∀ u, Owns s m u) (hs : step K s (.acquire t) = some s') :
    ∀ u, Owns s' m u := by
  obtain ⟨n, job, p, p', hj, hn, rfl, hp⟩ := acquire_cases hs
  by_cases hm : n = m
  · subst hm
    obtain ⟨rfl, rfl⟩ := hp ((h t).pending _ hj rfl).stage
    refine owns_of_local h ⟨?_, ?_⟩ (fun u _ => rfl) ?_ fun u hu => setRunning_running_ne _ hu
    · intro _
      exact setOwner_owner_self _
    · intro j hj' _
      obtain rfl := eq_of_setRunning hj'
      exact ⟨.locked, fun _ => setOwner_owner_self _, fun hl => nomatch hl⟩
    · intro u _
      rw [hn]
      exact .inr (by simp)
  · exact owns_of_other h rfl (setOwner_owner_ne _ (Ne.symm hm)) (running_mutex_ne hm)
      fun u hu => setRunning_running_ne _ hu

theorem owns_expire (h : ∀ u, Owns s m u) (hg : InTime m s (.expire t))
    (hs : step K s (.expire t) = some s') : ∀ u, Owns s' m u := by
  obtain ⟨n, job, p, p', hj, rfl⟩ := expire_cases hs
  -- the lock is one of another mutex
  exact owns_of_other h rfl rfl (running_mutex_ne (hg _ hj))
    fun u hu => setRunning_running_ne _ hu

theorem owns_release (h : ∀ u, Owns s m u) (hs : step K s (.release t) = some s') :
    ∀ u, Owns s' m u := by
  obtain ⟨n, job, p, p', hj, rfl, hp⟩ := release_cases hs
  by_cases hm : n = m
  · subst hm
    have hpend := (h t).pending _ hj rfl
    obtain ⟨hh, rfl, rfl⟩ := hp hpend.stage
    have ho : s.owner n = some t := hpend.owns hh
    have hin : s.inside n t = false := hpend.left rfl hh
    refine owns_of_local h ⟨?_, ?_⟩ (fun u _ => rfl) ?_ fun u hu => setRunning_running_ne _ hu
    · intro hb
      exact absurd (hin.symm.trans hb) Bool.false_ne_true
    · intro j hj' _
      obtain rfl := eq_of_setRunning hj'
      refine ⟨.unlocked, ?_, fun _ => ?_⟩ <;> exact fun hb => nomatch hb
    · -- whatever the kernel makes of the owner, only `t` was it
      intro u hu
      rw [ho]
      exact .inr fun he => hu (Option.some.inj he).symm
  · exact owns_of_other h rfl (setOwner_owner_ne _ (Ne.symm hm)) (running_mutex_ne hm)
      fun u hu => setRunning_running_ne _ hu

theorem owns_ret (h : ∀ u, Owns s m u) (hs : step K s (.ret t) = some s') :
    ∀ u, Owns s' m u := by
  obtain ⟨n, job, r, hj, ⟨rfl, rfl⟩ | rfl⟩ := ret_cases hs
  · by_cases hm : n = m
    · subst hm
      have ho : s.owner n = some t := ((h t).pending _ hj rfl).owns rfl
      refine owns_of_local h ⟨fun _ => ho, ?_⟩ ?_ (fun u _ => .inl rfl)
        fun u hu => setRunning_running_ne _ hu
      · intro j hj' _
        exact absurd hj' (setRunning_none_ne j)
      · intro u hu
        exact setInside_inside_ne _ (.inr hu)
    · refine owns_of_other h ?_ rfl ?_ fun u hu => setRunning_running_ne _ hu
      · funext u
        exact setInside_inside_ne _ (.inl (Ne.symm hm))
      · intro j hj'
        exact absurd hj' (setRunning_none_ne j)
  · refine owns_of_local h ⟨(h t).inside, ?_⟩ (fun u _ => rfl) (fun u _ => .inl rfl)
      fun u hu => setRunning_running_ne _ hu
    intro j hj' _
    exact absurd hj' (setRunning_none_ne j)

theorem owns_unlock {n : Mtx} (h : ∀ u, Owns s m u) (hs : step K s (.unlock t n) = some s') :
    ∀ u, Owns s' m u := by
  obtain ⟨⟨_, hin⟩, hs⟩ := Option.ite_none_right_eq_some.mp hs
  obtain rfl := Option.some.inj hs
  by_cases hm : n = m
  · subst hm
    refine owns_of_local h ⟨?_, ?_⟩ ?_ (fun u _ => .inl rfl)
      fun u hu => setRunning_running_ne _ hu
    · intro hb
      rw [setRunning_inside, setInside_inside_self] at hb
      cases hb
    · intro j hj' _
      obtain rfl := eq_of_setRunning hj'
      exact ⟨.unlock, fun _ => (h t).inside hin, fun _ _ => setInside_inside_self _⟩
    · intro u hu
      exact setInside_inside_ne _ (.inr hu)
  · refine owns_of_other h ?_ rfl (running_mutex_ne hm) fun u hu => setRunning_running_ne _ hu
    funext u
    exact setInside_inside_ne _ (.inl (Ne.symm hm))

theorem owns_lock {n : Mtx} {timeout : Int32} (h : ∀ u, Owns s m u)
    (hs : step K s (.lock t n timeout) = some s') : ∀ u, Owns s' m u := by
  obtain ⟨_, hs⟩ := Option.ite_none_right_eq_some.mp hs
  obtain rfl := Option.some.inj hs
  refine owns_of_local h ⟨(h t).inside, ?_⟩ (fun u _ => rfl) (fun u _ => .inl rfl)
    fun u hu => setRunning_running_ne _ hu
  intro j hj' _
  obtain rfl := eq_of_setRunning hj'
  exact pending_lock n timeout

theorem owns_step (h : ∀ u, Owns s m u) (ha : a ≠ .init m) (hg : InTime m s a)
    (hs : step K s a = some s') : ∀ u, Owns s' m u := by
  cases a with
  | init n =>
    cases hs
    have hm : m ≠ n := fun he => ha (he ▸ rfl)
    exact fun u => (h u).frame rfl (.inl (setOwner_owner_ne _ hm)) (.inl rfl)
  | lock t n timeout => exact owns_lock h hs
  | unlock t n => exact owns_unlock h hs
  | acquire t => exact owns_acquire h hs
  | expire t => exact owns_expire h hg hs
  | release t => exact owns_release h hs
  | ret t => exact owns_ret h hs

/-- Mutual exclusion, in every run from the initialisation of the mutex on in which no
timed lock of it runs out of time. -/
theorem exclusive_of_inTime (K : Kernel Thread) (h0 : s.Unused m) (ha : ∀ a ∈ as, a ≠ .init m)
    (hr : Schedule.run (step K) s (.init m :: as) = some s')
    (hg : Schedule.Steps (step K) (InTime m) s (.init m :: as)) : Exclusive m s' := by
  obtain ⟨v, hv, hr⟩ := Schedule.run_cons_eq_some.mp hr
  have hgv := (hg v hv).2.and ha
  -- the mutex was unused, so its initialisation leaves nothing to own
  have hv0 : ∀ u, Owns v m u := by
    cases hv
    intro u
    constructor
    · intro hu
      exact absurd ((h0 u).1.symm.trans hu) Bool.false_ne_true
    · intro j hj hm
      exact absurd hm ((h0 u).2 j hj)
  refine exclusive_of_owns (hgv.run_invariant (I := fun v => ∀ u, Owns v m u) ?_ hv0 hr)
  intro v a w hv hg hs
  exact owns_step hv hg.2 hg.1 hs

/-- A timed lock that runs out of time lets its thread in all the same, whoever is inside
and whoever owns the mutex. -/
theorem expired_lock_enters {usec : Int32}
    (hj : s.running t = some ⟨m, .lock, .call (.timedlock usec) fun _ => .ret 0⟩) :
    ∃ s', Schedule.run (step K) s [.expire t, .ret t] = some s' ∧ s'.inside m t = true ∧
      s'.owner = s.owner ∧ ∀ u, u ≠ t → s'.inside m u = s.inside m u := by
  have h₁ : step K s (.expire t) = some (s.setRunning t (some ⟨m, .lock, .ret 0⟩)) := by
    rw [step, hj]
    rfl
  have h₂ : step K (s.setRunning t (some ⟨m, .lock, .ret 0⟩)) (.ret t) = some
      (((s.setRunning t (some ⟨m, .lock, .ret 0⟩)).setInside m t true).setRunning t none) := by
    rw [step, setRunning_running_self]
    rfl
  refine ⟨_, Schedule.run_cons_eq_some.mpr ⟨_, h₁, Schedule.run_singleton.trans h₂⟩, ?_, rfl, ?_⟩
  · exact setInside_inside_self true
  · intro u hu
    exact setInside_inside_ne true (.inr hu)

/-! A kernel in which only the owner can release a mutex, and one mutex nobody uses. -/

def sampleKernel : Kernel ℕ where
  unlock o t := if o = some t then none else o
  unlock_owner _ := if_pos rfl

def sampleState : State ℕ Unit where
  owner := fun _ => none
  inside := fun _ _ => false
  running := fun _ => none

theorem exclusive_of_inTime_sample : ∃ s, Schedule.run (step sampleKernel) sampleState
    [.init (), .lock 1 () 5, .lock 2 () (-1), .acquire 1, .ret 1, .unlock 1 (), .release 1,
      .acquire 2, .ret 2] = some s ∧ s.inside () 2 = true ∧ Exclusive () s := by
  have h : (Schedule.run (step sampleKernel) sampleState
      [.init (), .lock 1 () 5, .lock 2 () (-1), .acquire 1, .ret 1, .unlock 1 (), .release 1,
        .acquire 2, .ret 2]).any (fun s => s.inside () 2) = true := by decide
  obtain ⟨s, hs, hi⟩ := (Option.any_eq_true ..).mp h
  refine ⟨s, hs, hi, exclusive_of_inTime sampleKernel ?_ (by decide) hs ?_⟩
  · exact fun _ => ⟨rfl, fun _ hj => nomatch hj⟩
  · apply Schedule.steps_of_forall
    intro a ha s
    cases a with
    | expire t => simp at ha
    | _ => trivial

/-- Thread 1 is inside when the timed lock of thread 2 runs out of time. -/
theorem expired_lock_overlaps : ∃ s, Schedule.run (step sampleKernel) sampleState
    [.init (), .lock 1 () (-1), .acquire 1, .ret 1, .lock 2 () 5, .expire 2, .ret 2] = some s ∧
      ¬Exclusive () s := by
  have h : (Schedule.run (step sampleKernel) sampleState
      [.init (), .lock 1 () (-1), .acquire 1, .ret 1, .lock 2 () 5, .expire 2, .ret 2]).any
      (fun s => s.inside () 1 ∧ s.inside () 2) = true := by decide
  obtain ⟨s, hs, hi⟩ := (Option.any_eq_true ..).mp h
  obtain ⟨h1, h2⟩ := of_decide_eq_true hi
  refine ⟨s, hs, ?_⟩
  intro he
  exact absurd (he 1 2 h1 h2) (by decide)

end Nrf9160.Mutex
