import Nrf9160.Modem.Caller

/-! What `nrf_modem_os_timedwait` returns, in terms of what happened to the call, and that
nothing else bears on it. -/

namespace Nrf9160.Modem

/-- What happened to one call: the flag as its two checks read it, its operations on the
list, the posts meant for it between its append and the end of its wait, and what
`mdx_sem_timedwait` returned. -/
structure Log where
  entry : Option Bool := none
  exit : Option Bool := none
  listOps : ℕ := 0
  posts : ℕ := 0
  woken : Option ℤ := none
  deriving DecidableEq

def Log.post (l : Log) : Log :=
  if l.listOps = 1 ∧ l.woken = none then { l with posts := l.posts + 1 } else l

variable {Ptr : Type} [DecidableEq Ptr]

def Log.note (E : Env Ptr) (p : Ptr) (context : UInt32) (l : Log) (s : State Ptr) :
    Action Ptr → Log
  | .check q => if q = p then { l with entry := some s.initialized } else l
  | .append q => if q = p then { l with listOps := l.listOps + 1 } else l
  | .wait q => if q = p then { l with woken := some (mdxSemWaitEnd E.toKernel (s.sem p)).1 } else l
  | .remove q => if q = p then { l with listOps := l.listOps + 1 } else l
  | .recheck q => if q = p then { l with exit := some s.initialized } else l
  | .notify c _ => if c = context ∨ c = 0 then l.post else l
  | .shutdown _ => l.post
  | _ => l

structure ReturnCode (K : Kernel) (val : Int32) (l : Log) (r : ℤ) : Prop where
  shutdown : r = -K.NRF_ESHUTDOWN ↔ l.entry = some false ∨ l.exit = some false
  poll : r ≠ -K.NRF_ESHUTDOWN → val = 0 → r = -K.NRF_EAGAIN ∧ l.listOps = 0
  forever : r ≠ -K.NRF_ESHUTDOWN → val < 0 → r = 0
  timed : r ≠ -K.NRF_ESHUTDOWN → 0 < val →
    (r = 0 ↔ (∃ e, l.woken = some e ∧ e ≠ 0) ∧ 0 < l.posts)

/-- The actions that can bear on the call at `p`. -/
def Action.audible (p : Ptr) (context : UInt32) : Action Ptr → Bool
  | .notify c _ => c = context ∨ c = 0
  | .shutdown _ => true
  | .setInitialized _ => true
  | .init => true
  | a => a.own p

def Log.slept (listOps posts : ℕ) (err : ℤ) : Log :=
  { entry := some true, listOps, posts, woken := some err }

def Log.Fits (K : Kernel) (val : Int32) (l : Log) (k : Caller) (c : Call) : Prop :=
  match c.pt with
  | .check => l = {}
  | .yield => l = { entry := some true } ∧ val = 0
  | .setup => l = { entry := some true } ∧ val ≠ 0
  | .append => l = { entry := some true } ∧ val ≠ 0
  | .wait => l = { entry := some true, listOps := 1, posts := k.units } ∧ val ≠ 0
  | .remove => ∃ n, l = .slept 1 n c.err ∧ val ≠ 0 ∧ (c.err = 0 ↔ n = 0)
  | .recheck => ∃ n, l = .slept 2 n c.err ∧ val ≠ 0 ∧ (c.err = 0 ↔ n = 0)
  | .ret r => l = { entry := some false } ∧ r = -K.NRF_ESHUTDOWN ∨
      l = { entry := some true } ∧ val = 0 ∧ r = -K.NRF_EAGAIN ∨
      ∃ n b, l = { Log.slept 2 n c.err with exit := some b } ∧ val ≠ 0 ∧ (c.err = 0 ↔ n = 0) ∧
        r = exitCode K b val c.err

def Log.Tracks (K : Kernel) (context : UInt32) (val : Int32) (l : Log) (k : Caller) : Prop :=
  ∃ c, k.call = some c ∧ c.context = context ∧ c.val = val ∧ l.Fits K val k c

variable {E : Env Ptr} {K : Kernel} {s t u : State Ptr} {p : Ptr} {c : Call} {k : Caller}
  {a : Action Ptr} {as : List (Action Ptr)} {xs : List Ptr} {context : UInt32} {val : Int32}
  {l : Log} {r : ℤ}

theorem fits_check (b : Bool) :
    Log.Fits K c.val { entry := some b } k { c with pt := entryPoint K b c.val } := by
  cases b with
  | false => exact .inl ⟨rfl, rfl⟩
  | true =>
    by_cases hv : c.val = 0
    · simp [Log.Fits, entryPoint, hv]
    · simp [Log.Fits, entryPoint, hv]

theorem fits_own (hc : s.call p = some c) (h : l.Fits E.toKernel c.val (s.caller p) c)
    (hr : ∀ r, c.pt ≠ .ret r) :
    ∃ d, ((s.caller p).own E.toKernel (c.pt.action p)).call = some d ∧ d.context = c.context ∧
      d.val = c.val ∧ (l.note E p c.context s (c.pt.action p)).Fits E.toKernel c.val
        ((s.caller p).own E.toKernel (c.pt.action p)) d := by
  rw [caller_of_call hc] at h ⊢
  cases hpt : c.pt with
  | check =>
    obtain rfl : l = {} := by simpa only [Log.Fits, hpt] using h
    refine ⟨_, rfl, rfl, rfl, ?_⟩
    simp only [Point.action, Log.note, if_true]
    exact fits_check s.initialized
  | yield =>
    obtain ⟨rfl, hv⟩ : l = { entry := some true } ∧ c.val = 0 := by
      simpa only [Log.Fits, hpt] using h
    exact ⟨_, rfl, rfl, rfl, .inr (.inl ⟨rfl, hv, rfl⟩)⟩
  | setup =>
    obtain ⟨rfl, hv⟩ : l = { entry := some true } ∧ c.val ≠ 0 := by
      simpa only [Log.Fits, hpt] using h
    exact ⟨_, rfl, rfl, rfl, rfl, hv⟩
  | append =>
    obtain ⟨rfl, hv⟩ : l = { entry := some true } ∧ c.val ≠ 0 := by
      simpa only [Log.Fits, hpt] using h
    refine ⟨_, rfl, rfl, rfl, ?_, hv⟩
    simp only [Point.action, Log.note, Caller.own, Caller.move, if_true, reduceCtorEq, if_false]
  | wait =>
    obtain ⟨rfl, hv⟩ : l = { entry := some true, listOps := 1, posts := s.sem p } ∧
        c.val ≠ 0 := by
      simpa only [Log.Fits, hpt, if_true] using h
    -- the wait ends by a unit exactly when a post has come to it
    refine ⟨_, rfl, rfl, rfl, s.sem p, ?_, hv, ?_⟩
    · simp only [Point.action, Log.note, Log.slept, if_true]
    · simp only [if_true]
      exact mdxSemWaitEnd_fst_eq_zero
  | remove =>
    obtain ⟨n, rfl, hv, he⟩ : ∃ n, l = .slept 1 n c.err ∧ c.val ≠ 0 ∧ (c.err = 0 ↔ n = 0) := by
      simpa only [Log.Fits, hpt] using h
    refine ⟨_, rfl, rfl, rfl, n, ?_, hv, he⟩
    simp only [Point.action, Log.note, Log.slept, if_true]
  | recheck =>
    obtain ⟨n, rfl, hv, he⟩ : ∃ n, l = .slept 2 n c.err ∧ c.val ≠ 0 ∧ (c.err = 0 ↔ n = 0) := by
      simpa only [Log.Fits, hpt] using h
    refine ⟨_, rfl, rfl, rfl, .inr (.inr ⟨n, s.initialized, ?_, hv, he, rfl⟩)⟩
    simp only [Point.action, Log.note, if_true]
  | ret r => exact absurd hpt (hr r)

theorem fits_post {wanted : Call → Bool} (hc : k.call = some c) (hw : wanted c = true)
    (h : l.Fits K val k c) : l.post.Fits K val (k.post wanted) c := by
  cases hpt : c.pt with
  | wait =>
    simp only [Log.Fits, hpt] at h ⊢
    obtain ⟨rfl, hv⟩ := h
    simp [Log.post, Caller.post, hc, hpt, hw, hv, mdxSemPost]
  | ret r =>
    simp only [Log.Fits, hpt] at h ⊢
    rcases h with ⟨rfl, h⟩ | ⟨rfl, h⟩ | ⟨n, b, rfl, h⟩
    · exact .inl ⟨rfl, h⟩
    · exact .inr (.inl ⟨rfl, h⟩)
    · exact .inr (.inr ⟨n, b, rfl, h⟩)
  | remove =>
    simp only [Log.Fits, hpt] at h ⊢
    obtain ⟨n, rfl, h⟩ := h
    exact ⟨n, rfl, h⟩
  | recheck =>
    simp only [Log.Fits, hpt] at h ⊢
    obtain ⟨n, rfl, h⟩ := h
    exact ⟨n, rfl, h⟩
  | check =>
    simp only [Log.Fits, hpt] at h ⊢
    subst h
    rfl
  | _ =>
    simp only [Log.Fits, hpt] at h ⊢
    obtain ⟨rfl, h⟩ := h
    exact ⟨rfl, h⟩

theorem post_of_unwanted {wanted : Call → Bool} (hc : k.call = some c) (hw : wanted c = false) :
    k.post wanted = k := by
  have hn : (k.call.any fun c => c.pt = .wait ∧ wanted c) = false := by simp [hc, hw]
  rw [Caller.post, hn, if_neg Bool.false_ne_true]

theorem fits_env (hc : k.call = some c) (ha : a.own p = false) (h : l.Fits K val k c) :
    (l.note E p c.context s a).Fits K val (k.env a) c := by
  cases a with
  | notify context fuel =>
    by_cases hx : context = c.context ∨ context = 0
    · rw [Log.note, if_pos hx]
      apply fits_post hc _ h
      exact decide_eq_true (hx.imp_left Eq.symm)
    · rw [Log.note, if_neg hx, Caller.env, post_of_unwanted hc]
      · exact h
      · exact decide_eq_false fun hx' => hx (hx'.imp_left Eq.symm)
  | shutdown fuel => exact fits_post hc rfl h
  | setInitialized b => exact h
  | init => exact h
  | call q context timeout => exact h
  | yield q => exact h
  | setup q => exact h
  | ret q r => exact h
  | _ q =>
    rw [Log.note, if_neg (of_decide_eq_false ha)]
    exact h

theorem tracks_step (hq : Queue E s xs) (h : l.Tracks E.toKernel context val (s.caller p))
    (ha : a ≠ .init ∧ ∀ r, a ≠ .ret p r) (hs : step E s a = some t) :
    (l.note E p context s a).Tracks E.toKernel context val (t.caller p) := by
  obtain ⟨c, hc, rfl, rfl, hf⟩ := h
  rw [caller_step hq ha.1 hs]
  by_cases ho : a.own p = true
  · obtain rfl := own_action hs ho hc
    rw [callerStep_of_own ho]
    apply fits_own hc hf
    intro r hpt
    rw [hpt] at ha
    exact ha.2 r rfl
  · have ho' := eq_false_of_ne_true ho
    rw [callerStep_of_not_own ho']
    have hc' : ((s.caller p).env a).call = some c := by
      rw [← caller_step_env hq ha.1 ho' hs]
      exact (step_call_of_not_own hs ho').trans hc
    exact ⟨c, hc', rfl, rfl, fits_env hc ho' hf⟩

theorem exitCode_true (val : Int32) (err : ℤ) :
    exitCode K true val err = if err = 0 ∧ ¬val < 0 then -K.NRF_EAGAIN else 0 := by
  simp only [exitCode, Bool.not_true, Bool.false_eq_true, if_false, ite_and, ite_not]

theorem exitCode_true_ne (val : Int32) (err : ℤ) :
    exitCode K true val err ≠ -K.NRF_ESHUTDOWN := by
  have hne := K.eshutdown_ne_eagain
  have hpos := K.eshutdown_pos
  rw [exitCode_true]
  split_ifs <;> omega

theorem returnCode_slept (b : Bool) (err : ℤ) {n : ℕ} (hv : val ≠ 0) (he : err = 0 ↔ n = 0) :
    ReturnCode K val { Log.slept 2 n err with exit := some b } (exitCode K b val err) := by
  cases b with
  | false =>
    refine ⟨⟨fun _ => .inr rfl, fun _ => rfl⟩, ?_, ?_, ?_⟩
    all_goals
      intro hr
      exact absurd rfl hr
  | true =>
    have hr := exitCode_true_ne (K := K) val err
    refine ⟨⟨fun h => absurd h hr, ?_⟩, fun _ h => absurd h hv, fun _ hn => ?_, fun _ hp => ?_⟩
    · rintro (h | h) <;> cases h
    · rw [exitCode_true, if_neg fun h => h.2 hn]
    · have hn : ¬val < 0 := Int32.lt_asymm hp
      have hpos := K.eagain_pos
      rw [exitCode_true]
      constructor
      · intro h
        have herr : err ≠ 0 := by
          intro h0
          rw [if_pos ⟨h0, hn⟩] at h
          omega
        refine ⟨⟨err, rfl, herr⟩, Nat.pos_of_ne_zero ?_⟩
        intro h0
        exact herr (he.mpr h0)
      · rintro ⟨⟨e, h, h0⟩, _⟩
        obtain rfl : err = e := Option.some.inj h
        rw [if_neg fun h => h0 h.1]

theorem returnCode_of_fits (hpt : c.pt = .ret r) (h : l.Fits K val k c) :
    ReturnCode K val l r := by
  have hne := K.eshutdown_ne_eagain
  simp only [Log.Fits, hpt] at h
  rcases h with ⟨rfl, rfl⟩ | ⟨rfl, rfl, rfl⟩ | ⟨n, b, rfl, hv, he, rfl⟩
  · refine ⟨⟨fun _ => .inl rfl, fun _ => rfl⟩, ?_, ?_, ?_⟩
    all_goals
      intro hr
      exact absurd rfl hr
  · refine ⟨⟨fun h => ?_, ?_⟩, fun _ _ => ⟨rfl, rfl⟩, ?_, ?_⟩
    · exact absurd (Int.neg_inj.mp h).symm hne
    · rintro (h | h) <;> cases h
    all_goals
      intro _ h
      exact absurd h (by decide)
  · exact returnCode_slept b c.err hv he

theorem callerStep_of_inaudible (hc : k.call = some c) (ha : a.audible p c.context = false) :
    callerStep E p k a = k := by
  cases a with
  | notify context fuel =>
    rw [callerStep_of_not_own rfl, Caller.env, post_of_unwanted hc]
    exact decide_eq_false fun h => of_decide_eq_false ha (h.imp_left Eq.symm)
  | shutdown fuel => cases ha
  | setInitialized b => cases ha
  | init => cases ha
  | _ => exact callerStep_of_not_own ha

def Tracked (E : Env Ptr) (p : Ptr) (context : UInt32) (val : Int32) (x : State Ptr × Log) :
    Prop :=
  (∃ xs, Queue E x.1 xs) ∧ x.2.Tracks E.toKernel context val (x.1.caller p)

variable {x y : State Ptr × Log}

theorem tracked_call (h : s.Reached E) (hs : Schedule.ghost (step E) (Log.note E p context)
    (s, {}) (.call p context val) = some x) :
    Tracked E p context val x ∧ x.1.caller p = ⟨some { context, val }, s.initialized, 0⟩ := by
  obtain ⟨v, m⟩ := x
  obtain ⟨hv, rfl⟩ := Schedule.ghost_eq_some.mp hs
  obtain ⟨xs, hq⟩ := queue_of_reached h
  have hcv : v.caller p = ⟨some { context, val }, s.initialized, 0⟩ := by
    have hn : s.call p = none := (Option.ite_none_right_eq_some.mp hv).1.2.2
    have ho : (Action.call p context val).own p = true := decide_eq_true rfl
    rw [caller_step hq (by simp) hv, callerStep_of_own ho, State.caller, hn]
    rfl
  refine ⟨⟨⟨_, hq.step (fun he => by cases he) hv⟩, ?_⟩, hcv⟩
  rw [hcv]
  exact ⟨_, rfl, rfl, rfl, rfl⟩

theorem tracked_step (ha : a ≠ .init ∧ ∀ r, a ≠ .ret p r) (hx : Tracked E p context val x)
    (hs : Schedule.ghost (step E) (Log.note E p context) x a = some y) :
    Tracked E p context val y := by
  obtain ⟨v, m⟩ := x
  obtain ⟨w, n⟩ := y
  obtain ⟨hv, rfl⟩ := Schedule.ghost_eq_some.mp hs
  obtain ⟨⟨xs, hq⟩, ht⟩ := hx
  exact ⟨⟨_, hq.step (fun he => absurd he ha.1) hv⟩, tracks_step hq ht ha hv⟩

theorem tracked_view (ha : a ≠ .init ∧ ∀ r, a ≠ .ret p r) (hx : Tracked E p context val x)
    (hs : Schedule.ghost (step E) (Log.note E p context) x a = some y) :
    y.1.caller p = if a.audible p context then callerStep E p (x.1.caller p) a
      else x.1.caller p := by
  obtain ⟨v, m⟩ := x
  obtain ⟨w, n⟩ := y
  obtain ⟨hv, rfl⟩ := Schedule.ghost_eq_some.mp hs
  obtain ⟨⟨xs, hq⟩, c, hc, rfl, -⟩ := hx
  show w.caller p = _
  rw [caller_step hq ha.1 hv]
  split_ifs with hb
  · rfl
  · exact callerStep_of_inaudible hc (eq_false_of_ne_true hb)

/-- What is known of a call after any run that begins with it and has not seen it return. -/
theorem tracked_of_run (h : s.Reached E) (ha : ∀ a ∈ as, a ≠ .init ∧ ∀ r, a ≠ .ret p r)
    (hr : Schedule.run (Schedule.ghost (step E) (Log.note E p context)) (s, {})
      (.call p context val :: as) = some x) :
    Tracked E p context val x ∧
      x.1.caller p = (as.filter (Action.audible p context)).foldl (callerStep E p)
        ⟨some { context, val }, s.initialized, 0⟩ := by
  obtain ⟨y, hy, hr⟩ := Schedule.run_cons_eq_some.mp hr
  obtain ⟨ht, hc⟩ := tracked_call h hy
  constructor
  · refine Schedule.Steps.run_invariant (Schedule.steps_of_forall fun a h _ => ha a h) ?_ ht hr
    intro x a y hx hg hs
    exact tracked_step hg hx hs
  · rw [← hc]
    refine Schedule.run_view (fun x : State Ptr × Log => x.1.caller p) (callerStep E p)
      (Action.audible p context) (I := Tracked E p context val) ?_ ?_ ha ht hr
    · intro x a y hg hx hs
      exact tracked_step hg hx hs
    · intro x a y hg hx hs
      exact tracked_view hg hx hs

theorem returned_of_run (h : s.Reached E) (ha : ∀ a ∈ as, a ≠ .init ∧ ∀ r, a ≠ .ret p r)
    (hr : Schedule.run (Schedule.ghost (step E) (Log.note E p context)) (s, {})
      (.call p context val :: (as ++ [.ret p r])) = some (t, l)) :
    ∃ (k : Caller) (c : Call), k = (as.filter (Action.audible p context)).foldl (callerStep E p)
        ⟨some { context, val }, s.initialized, 0⟩ ∧
      k.call = some c ∧ c.pt = .ret r ∧ l.Fits E.toKernel val k c := by
  rw [← List.cons_append] at hr
  obtain ⟨⟨v, m⟩, hv, hr⟩ := Schedule.run_append_eq_some.mp hr
  obtain ⟨⟨-, c, hc, -, -, hf⟩, hk⟩ := tracked_of_run h ha hv
  rw [Schedule.run_singleton, Schedule.ghost_eq_some] at hr
  obtain ⟨hs, rfl⟩ := hr
  obtain ⟨d, hd, hpt, -⟩ := atPoint_eq_some.mp hs
  obtain rfl : c = d := Option.some.inj (hc.symm.trans hd)
  exact ⟨v.caller p, c, hk, hc, hpt, hf⟩

theorem audible_of_not_quiet (ha : ¬(a ≠ .init ∧ ∀ r, a ≠ .ret p r)) :
    a.audible p context = true := by
  by_cases hi : a = .init
  · rw [hi]
    rfl
  · have hr : ∃ r, a = .ret p r := by
      by_contra hn
      exact ha ⟨hi, fun r hr => hn ⟨r, hr⟩⟩
    obtain ⟨r, rfl⟩ := hr
    exact decide_eq_true rfl

theorem quiet_of_filter_eq {bs : List (Action Ptr)}
    (hf : bs.filter (Action.audible p context) = as.filter (Action.audible p context))
    (ha : ∀ a ∈ as, a ≠ .init ∧ ∀ r, a ≠ .ret p r) :
    ∀ b ∈ bs, b ≠ .init ∧ ∀ r, b ≠ .ret p r := by
  intro b hb
  by_contra hn
  have hm : b ∈ bs.filter (Action.audible p context) :=
    List.mem_filter.mpr ⟨hb, audible_of_not_quiet hn⟩
  rw [hf] at hm
  exact hn (ha b (List.mem_filter.mp hm).1)

/-- The return code of a call, from what happened to it. Any run that agrees on the flag at
its start and on the actions audible to it, whatever else it does, gives it the same. -/
theorem timedwait_return_code (h : s.Reached E)
    (ha : ∀ a ∈ as, a ≠ .init ∧ ∀ r, a ≠ .ret p r)
    (hr : Schedule.run (Schedule.ghost (step E) (Log.note E p context)) (s, {})
      (.call p context val :: (as ++ [.ret p r])) = some (t, l)) :
    ReturnCode E.toKernel val l r ∧
      ∀ s' bs r' t', State.Reached E s' → s'.initialized = s.initialized →
        bs.filter (Action.audible p context) = as.filter (Action.audible p context) →
        Schedule.run (step E) s' (.call p context val :: (bs ++ [.ret p r'])) = some t' →
        r' = r := by
  obtain ⟨k, c, hk, hc, hpt, hf⟩ := returned_of_run h ha hr
  refine ⟨returnCode_of_fits hpt hf, ?_⟩
  intro s' bs r' t' h' hi hfilter hr'
  have hb := quiet_of_filter_eq hfilter ha
  obtain ⟨l', hg⟩ := Schedule.exists_ghost (Log.note E p context) {} hr'
  obtain ⟨k', c', hk', hc', hpt', -⟩ := returned_of_run h' hb hg
  -- both runs show the call the same actions, so they leave it at the same point
  have hkk : k' = k := by rw [hk, hk', hfilter, hi]
  obtain rfl : c' = c := by
    rw [hkk, hc] at hc'
    exact (Option.some.inj hc').symm
  exact Point.ret.inj (hpt'.symm.trans hpt)

/-- Every call has such a run: its own steps are always possible and end in its return. -/
theorem exists_returned_run (hp : p ≠ E.NULL ∧ p ≠ E.sleepingThreadList)
    (hc : s.call p = none) : ∃ as r t l, (∀ a ∈ as, a ≠ .init ∧ ∀ r', a ≠ .ret p r') ∧
      Schedule.run (Schedule.ghost (step E) (Log.note E p context)) (s, {})
        (.call p context val :: (as ++ [.ret p r])) = some (t, l) := by
  have hcall : step E s (.call p context val) = some (s.setCall p (some { context, val })) :=
    if_pos ⟨hp.1, hp.2, hc⟩
  obtain ⟨as, r, t, has, ht⟩ := exists_return (E := E) (setCall_call_self (s := s) _)
  obtain ⟨l, hl⟩ := Schedule.exists_ghost (Log.note E p context) {}
    (Schedule.run_cons_eq_some.mpr ⟨_, hcall, ht⟩)
  refine ⟨as, r, t, l, fun a ha => ⟨?_, (has a ha).2⟩, hl⟩
  rintro rfl
  cases (has _ ha).1

/-- The notify for 8 wakes the call at 3 and does not bear on the one at 2. -/
theorem timedwait_return_code_sample : ∃ s t l,
    Schedule.run (Schedule.ghost (step sampleEnv) (Log.note sampleEnv 2 7)) (s, {})
        (.call 2 7 100 :: ([.check 2, .setup 2, .append 2, .notify 8 3, .wait 2, .remove 2,
          .recheck 2] ++ [.ret 2 (-11)])) = some (t, l) ∧
      l = { Log.slept 2 0 0 with exit := some true } ∧
      ReturnCode sampleEnv.toKernel 100 l (-11) ∧
      ∀ r t', Schedule.run (step sampleEnv) s
        (.call 2 7 100 :: ([.check 2, .setup 2, .append 2, .wait 2, .remove 2, .recheck 2] ++
          [.ret 2 r])) = some t' → r = -11 := by
  have h : (Schedule.run (step sampleEnv) sampleState (.init :: fallAsleep 3 8 100)).any
      (fun s => (Schedule.run (Schedule.ghost (step sampleEnv) (Log.note sampleEnv 2 7)) (s, {})
        (.call 2 7 100 :: ([.check 2, .setup 2, .append 2, .notify 8 3, .wait 2, .remove 2,
          .recheck 2] ++ [.ret 2 (-11)]))).any
        fun x => x.2 = { Log.slept 2 0 0 with exit := some true }) = true := by decide
  obtain ⟨s, hs, h⟩ := (Option.any_eq_true ..).mp h
  obtain ⟨⟨t, l⟩, ht, hl⟩ := (Option.any_eq_true ..).mp h
  have hs' := sample_reached (by decide) hs
  have hr := timedwait_return_code hs' (by simp) ht
  refine ⟨s, t, l, ht, of_decide_eq_true hl, hr.1, ?_⟩
  intro r t' hr'
  exact hr.2 s [.check 2, .setup 2, .append 2, .wait 2, .remove 2, .recheck 2] r t' hs' rfl
    (by decide) hr'

end Nrf9160.Modem
