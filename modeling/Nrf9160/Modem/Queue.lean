import Nrf9160.Modem.System

/-! The invariant that ties the links at `sleeping_thread_list` to the calls in progress:
the ring holds the nodes of the calls between `list_append` and `list_remove`, in the
order of their appends. -/

namespace Nrf9160.Modem

variable {Ptr : Type}

/-- The address holds the `td` of a call that has appended and not yet removed it. -/
def State.queued (s : State Ptr) (p : Ptr) : Bool := (s.call p).any Call.queued

theorem queued_of_call {s : State Ptr} {p : Ptr} {c : Call} (h : s.call p = some c) :
    s.queued p = c.queued := by
  simp only [State.queued, h, Option.any_some]

theorem queued_iff {s : State Ptr} {p : Ptr} :
    s.queued p = true ↔ ∃ c, s.call p = some c ∧ c.queued = true := by
  simp only [State.queued, Option.any_eq_true]

structure TdOk (E : Env Ptr) (s : State Ptr) (xs : List Ptr) (p : Ptr) : Prop where
  mem_iff : p ∈ xs ↔ s.queued p = true
  placed : ∀ c, s.call p = some c → p ≠ E.NULL ∧ p ≠ E.sleepingThreadList
  context_eq : ∀ c, s.call p = some c → c.pt = .append ∨ c.queued = true →
    s.context p = c.context
  fresh : ∀ c, s.call p = some c → c.pt = .append → s.sem p = 0

structure Queue (E : Env Ptr) (s : State Ptr) (xs : List Ptr) : Prop where
  ring : Ring.Rep s.links E.sleepingThreadList xs
  ok : ∀ p, TdOk E s xs p

variable {E : Env Ptr} {s t : State Ptr} {p q : Ptr} {c c' : Call} {a : Action Ptr}
  {xs ys : List Ptr} {context : UInt32} {fuel : ℕ}

theorem TdOk.congr (h : TdOk E s xs p) (hm : p ∈ ys ↔ p ∈ xs) (hc : t.call p = s.call p)
    (hx : t.context p = s.context p) (hs : s.queued p = false → t.sem p = s.sem p) :
    TdOk E t ys p := by
  have hq : t.queued p = s.queued p := by rw [State.queued, hc, State.queued]
  constructor
  · rw [hm, hq, h.mem_iff]
  · intro c h'
    exact h.placed c (hc ▸ h')
  · intro c h' hpt
    rw [hx]
    exact h.context_eq c (hc ▸ h') hpt
  · intro c h' hpt
    rw [hc] at h'
    -- a call before its append is not queued, so nobody has posted to its semaphore
    rw [hs, h.fresh c h' hpt]
    rw [queued_of_call h']
    simp only [Call.queued, hpt, reduceCtorEq, or_self, decide_false]

theorem TdOk.of_call (hc : t.call p = some c) (hp : p ≠ E.NULL ∧ p ≠ E.sleepingThreadList)
    (hm : p ∈ ys ↔ c.queued = true)
    (hx : c.pt = .append ∨ c.queued = true → t.context p = c.context)
    (hf : c.pt = .append → t.sem p = 0) : TdOk E t ys p := by
  constructor
  · rw [hm, queued_of_call hc]
  · intro d _
    exact hp
  · intro d hd
    exact Option.some.inj (hc.symm.trans hd) ▸ hx
  · intro d hd
    exact Option.some.inj (hc.symm.trans hd) ▸ hf

theorem Queue.null_notMem (h : Queue E s xs) : E.NULL ∉ xs := by
  intro hm
  obtain ⟨c, hc, _⟩ := queued_iff.mp (((h.ok E.NULL).mem_iff).mp hm)
  exact ((h.ok E.NULL).placed c hc).1 rfl

theorem Queue.call_of_mem (h : Queue E s xs) (hp : p ∈ xs) :
    ∃ c, s.call p = some c ∧ c.queued = true ∧ s.context p = c.context := by
  obtain ⟨c, hc, hq⟩ := queued_iff.mp (((h.ok p).mem_iff).mp hp)
  exact ⟨c, hc, hq, (h.ok p).context_eq c hc (.inr hq)⟩

theorem not_queued_of_pt (hc : c.pt ≠ .wait) (hr : c.pt ≠ .remove) : c.queued = false := by
  simp only [Call.queued, hc, hr, or_self, decide_false]

theorem Queue.notMem (h : Queue E s xs) (hc : s.call p = some c) (hw : c.pt ≠ .wait)
    (hr : c.pt ≠ .remove) : p ∉ xs := by
  rw [(h.ok p).mem_iff, queued_of_call hc, not_queued_of_pt hw hr]
  exact Bool.false_ne_true

theorem Queue.mem (h : Queue E s xs) (hc : s.call p = some c) (hq : c.queued = true) :
    p ∈ xs := by
  rw [(h.ok p).mem_iff, queued_of_call hc, hq]

def State.Idle (s : State Ptr) : Prop := ∀ p, s.call p = none

theorem queue_init (h : s.Idle) : Queue E (nrfModemOsInit E s) [] := by
  refine ⟨E.list.init_rep _ _, fun p => ?_⟩
  have hc : (nrfModemOsInit E s).call p = none := h p
  constructor
  · simp only [State.queued, hc, Option.any_none, List.not_mem_nil, Bool.false_eq_true]
  all_goals
    intro c h'
    rw [hc] at h'
    cases h'

theorem Queue.post (h : Queue E s xs) {sem : Ptr → ℕ} (hs : ∀ q, q ∉ xs → sem q = s.sem q) :
    Queue E { s with sem } xs := by
  refine ⟨h.ring, fun q => (h.ok q).congr Iff.rfl rfl rfl fun hq => hs q ?_⟩
  rw [(h.ok q).mem_iff, hq]
  exact Bool.false_ne_true

/-- A notify for `context` is meant for the call whose `td` is at `q`. -/
def State.wakes (s : State Ptr) (context : UInt32) (q : Ptr) : Bool :=
  (s.call q).any fun c => c.queued ∧ (c.context = context ∨ context = 0)

theorem Queue.wakes_iff (h : Queue E s xs) :
    q ∈ xs ∧ (s.context q = context ∨ context = 0) ↔ s.wakes context q = true := by
  constructor
  · rintro ⟨hm, hx⟩
    obtain ⟨c, hc, hq, he⟩ := h.call_of_mem hm
    rw [State.wakes, hc, Option.any_some, ← he]
    exact decide_eq_true ⟨hq, hx⟩
  · intro hw
    cases hc : s.call q with
    | none =>
      rw [State.wakes, hc] at hw
      cases hw
    | some c =>
      rw [State.wakes, hc, Option.any_some] at hw
      obtain ⟨hq, hx⟩ := of_decide_eq_true hw
      refine ⟨h.mem hc hq, ?_⟩
      rwa [(h.ok q).context_eq c hc (.inr hq)]

variable [DecidableEq Ptr]

/-- What a step does to the nodes that are queued, oldest first. -/
def queueStep (xs : List Ptr) : Action Ptr → List Ptr
  | .append p => xs ++ [p]
  | .remove p => xs.erase p
  | .init => []
  | _ => xs

def queueAfter (as : List (Action Ptr)) : List Ptr := as.foldl queueStep []

/-- The exact effect of the loops over the list, for every bound on their rounds. -/
theorem Queue.postLoop_eq (h : Queue E s xs) (wanted : Ptr → Bool) :
    postLoop E s.links wanted fuel (tdFirst E s.links) s.sem =
      if xs.length < fuel then
        some fun q => if q ∈ xs ∧ wanted q = true then mdxSemPost (s.sem q) else s.sem q
      else none := by
  rw [tdFirst_eq h.ring]
  exact Modem.postLoop_eq [] wanted fuel s.sem h.ring h.null_notMem

theorem Queue.of_postLoop (h : Queue E s xs) {wanted : Ptr → Bool} {sem : Ptr → ℕ}
    (hl : postLoop E s.links wanted fuel (tdFirst E s.links) s.sem = some sem) :
    Queue E { s with sem } xs := by
  rw [h.postLoop_eq, Option.ite_none_right_eq_some, Option.some.injEq] at hl
  obtain ⟨_, rfl⟩ := hl
  apply h.post
  intro q hq
  rw [if_neg fun hm => hq hm.1]

theorem Queue.of_local (h : Queue E s xs) (hr : Ring.Rep t.links E.sleepingThreadList ys)
    (hne : ∀ q, q ≠ p → (q ∈ ys ↔ q ∈ xs) ∧ t.call q = s.call q ∧ t.context q = s.context q ∧
      t.sem q = s.sem q) (hp : TdOk E t ys p) : Queue E t ys := by
  refine ⟨hr, fun q => ?_⟩
  by_cases hq : q = p
  · exact hq ▸ hp
  · obtain ⟨h1, h2, h3, h4⟩ := hne q hq
    exact (h.ok q).congr h1 h2 h3 fun _ => h4

theorem Queue.move (h : Queue E s xs) (hc : s.call p = some c) (hq : c'.queued = c.queued)
    (hx : c'.context = c.context) (ha : c'.pt ≠ .append) : Queue E (s.setCall p (some c')) xs := by
  refine h.of_local h.ring (fun q hq => ⟨Iff.rfl, setCall_call_ne _ hq, rfl, rfl⟩) ?_
  apply TdOk.of_call (setCall_call_self _) ((h.ok p).placed c hc)
  · rw [(h.ok p).mem_iff, queued_of_call hc, hq]
  · intro hpt
    rw [setCall_context, hx]
    exact (h.ok p).context_eq c hc (.inr (hq ▸ hpt.resolve_left ha))
  · intro hpt
    exact absurd hpt ha

theorem Queue.setup (h : Queue E s xs) (hc : s.call p = some c) (hpt : c.pt = .setup) :
    Queue E ((s.setupTd E p c.context).setCall p (some { c with pt := .append })) xs := by
  have hpl := (h.ok p).placed c hc
  have hp : p ∉ xs := h.notMem hc (by simp [hpt]) (by simp [hpt])
  have hne : ∀ y ∈ E.sleepingThreadList :: xs, y ≠ p := by
    intro y hy he
    rcases List.mem_cons.mp hy with hy | hy
    · exact hpl.2 (he ▸ hy)
    · exact hp (he ▸ hy)
  refine h.of_local (p := p) (h.ring.frame (fun y hy => ?_) fun y hy => ?_) (fun q hq => ?_) ?_
  · exact Function.update_of_ne (hne y hy) ..
  · exact Function.update_of_ne (hne y hy) ..
  · exact ⟨Iff.rfl, setCall_call_ne _ hq, Function.update_of_ne hq .., Function.update_of_ne hq ..⟩
  · apply TdOk.of_call (setCall_call_self _) hpl
    · exact ⟨fun hm => absurd hm hp, fun hm => nomatch hm⟩
    · intro _
      exact Function.update_self ..
    · intro _
      exact Function.update_self ..

theorem Queue.append (h : Queue E s xs) (hc : s.call p = some c) (hpt : c.pt = .append) :
    Queue E ({ s with links := E.list.append s.links E.sleepingThreadList p }.setCall p
      (some { c with pt := .wait })) (xs ++ [p]) := by
  have hpl := (h.ok p).placed c hc
  have hp : p ∉ xs := h.notMem hc (by simp [hpt]) (by simp [hpt])
  have hr := E.list.append_rep h.ring (by simp [hpl.2, hp] : p ∉ E.sleepingThreadList :: xs)
  refine h.of_local (p := p) hr (fun q hq => ⟨?_, setCall_call_ne _ hq, rfl, rfl⟩) ?_
  · simp [hq]
  · apply TdOk.of_call (setCall_call_self _) hpl
    · simp [Call.queued]
    · intro _
      exact (h.ok p).context_eq c hc (.inl hpt)
    · intro hw
      cases hw

theorem Queue.wait (h : Queue E s xs) (hc : s.call p = some c) (hpt : c.pt = .wait) (n : ℕ)
    (err : ℤ) : Queue E ({ s with sem := Function.update s.sem p n }.setCall p
      (some { c with err, pt := .remove })) xs := by
  have hq : c.queued = true := by simp [Call.queued, hpt]
  refine h.of_local (p := p) h.ring (fun q hq => ⟨Iff.rfl, setCall_call_ne _ hq, rfl, ?_⟩) ?_
  · exact Function.update_of_ne hq ..
  · apply TdOk.of_call (setCall_call_self _) ((h.ok p).placed c hc)
    · exact ⟨fun _ => rfl, fun _ => h.mem hc hq⟩
    · intro _
      exact (h.ok p).context_eq c hc (.inr hq)
    · intro hw
      cases hw

theorem Queue.remove (h : Queue E s xs) (hc : s.call p = some c) (hpt : c.pt = .remove) :
    Queue E ({ s with links := E.list.remove s.links p }.setCall p
      (some { c with pt := .recheck })) (xs.erase p) := by
  have hp : p ∈ xs := h.mem hc (by simp [Call.queued, hpt])
  have hr := E.list.remove_erase h.ring hp
  refine h.of_local (p := p) hr (fun q hq => ⟨?_, setCall_call_ne _ hq, rfl, rfl⟩) ?_
  · exact List.mem_erase_of_ne hq
  · apply TdOk.of_call (setCall_call_self _) ((h.ok p).placed c hc)
    · simp [h.ring.nodup_tail.mem_erase_iff, Call.queued]
    · intro hw
      simp [Call.queued] at hw
    · intro hw
      cases hw

theorem Queue.call (h : Queue E s xs) {timeout : Int32} (hn : p ≠ E.NULL)
    (hl : p ≠ E.sleepingThreadList) (hc : s.call p = none) :
    Queue E (s.setCall p (some { context, val := timeout, pt := .check })) xs := by
  refine h.of_local (p := p) h.ring (fun q hq => ⟨Iff.rfl, setCall_call_ne _ hq, rfl, rfl⟩) ?_
  apply TdOk.of_call (setCall_call_self _) ⟨hn, hl⟩
  · show p ∈ xs ↔ _
    rw [(h.ok p).mem_iff, State.queued, hc]
    exact Iff.rfl
  · rintro (hpt | hpt) <;> cases hpt
  · intro hpt
    cases hpt

theorem Queue.ret (h : Queue E s xs) {r : ℤ} (hc : s.call p = some c) (hpt : c.pt = .ret r) :
    Queue E (s.setCall p none) xs := by
  have hp : p ∉ xs := h.notMem hc (by simp [hpt]) (by simp [hpt])
  refine h.of_local (p := p) h.ring (fun q hq => ⟨Iff.rfl, setCall_call_ne _ hq, rfl, rfl⟩) ?_
  have hn : (s.setCall p none).call p = none := setCall_call_self _
  constructor
  · simp [State.queued, hp]
  all_goals
    intro d hd
    rw [hn] at hd
    cases hd

theorem Queue.step (h : Queue E s xs) (hi : a = .init → xs = [])
    (hs : Modem.step E s a = some t) : Queue E t (queueStep xs a) := by
  cases a with
  | call p context timeout =>
    simp only [Modem.step, Option.ite_none_right_eq_some, Option.some.injEq] at hs
    obtain ⟨⟨hn, hl, hc⟩, rfl⟩ := hs
    exact h.call hn hl hc
  | check p =>
    obtain ⟨c, hc, hpt, rfl⟩ := atPoint_eq_some.mp hs
    apply h.move hc
    · simp only [Call.queued, hpt, entryPoint]
      split_ifs <;> rfl
    · rfl
    · simp only [entryPoint]
      split_ifs <;> simp
  | yield p =>
    obtain ⟨c, hc, hpt, rfl⟩ := atPoint_eq_some.mp hs
    apply h.move hc
    · simp only [Call.queued, hpt]
      rfl
    · rfl
    · simp
  | setup p =>
    obtain ⟨c, hc, hpt, rfl⟩ := atPoint_eq_some.mp hs
    exact h.setup hc hpt
  | append p =>
    obtain ⟨c, hc, hpt, rfl⟩ := atPoint_eq_some.mp hs
    exact h.append hc hpt
  | wait p =>
    obtain ⟨c, hc, hpt, rfl⟩ := atPoint_eq_some.mp hs
    exact h.wait hc hpt _ _
  | remove p =>
    obtain ⟨c, hc, hpt, rfl⟩ := atPoint_eq_some.mp hs
    exact h.remove hc hpt
  | recheck p =>
    obtain ⟨c, hc, hpt, rfl⟩ := atPoint_eq_some.mp hs
    apply h.move hc
    · simp only [Call.queued, hpt]
      rfl
    · rfl
    · simp
  | ret p r =>
    obtain ⟨c, hc, hpt, rfl⟩ := atPoint_eq_some.mp hs
    exact h.ret hc hpt
  | notify context fuel =>
    simp only [Modem.step, nrfModemOsEventNotify, Option.map_eq_some_iff] at hs
    obtain ⟨sem, hl, rfl⟩ := hs
    exact h.of_postLoop hl
  | shutdown fuel =>
    simp only [Modem.step, nrfModemOsShutdown, Option.map_eq_some_iff] at hs
    obtain ⟨sem, hl, rfl⟩ := hs
    exact h.of_postLoop hl
  | setInitialized b =>
    simp only [Modem.step, Option.some.injEq] at hs
    subst hs
    exact ⟨h.ring, fun q => (h.ok q).congr Iff.rfl rfl rfl fun _ => rfl⟩
  | init =>
    simp only [Modem.step, Option.some.injEq] at hs
    subst hs
    -- the reset forgets every node that is linked, and here none is
    refine ⟨E.list.init_rep _ _, fun q => (h.ok q).congr ?_ rfl rfl fun _ => rfl⟩
    rw [hi rfl]
    rfl

theorem queue_of_run {as : List (Action Ptr)} (h0 : s.Idle) (hi : ∀ a ∈ as, a ≠ .init)
    (hr : Schedule.run (Modem.step E) s (.init :: as) = some t) : Queue E t (queueAfter as) := by
  obtain ⟨u, hu, hr⟩ := Schedule.run_cons_eq_some.mp hr
  obtain rfl : nrfModemOsInit E s = u := Option.some.inj hu
  revert hi
  refine Schedule.run_history
    (R := fun as v => (∀ a ∈ as, a ≠ .init) → Queue E v (queueAfter as)) ?_ ?_ hr
  · intro _
    exact queue_init h0
  · intro as v a w hv hs hi
    have ha : a ≠ .init := hi a (List.mem_append_right as List.mem_cons_self)
    have hq := hv fun b hb => hi b (List.mem_append_left [a] hb)
    rw [queueAfter, List.foldl_append]
    exact hq.step (fun he => absurd he ha) hs

/-- The state comes after one `nrf_modem_os_init` and any steps but a further one. -/
def State.Reached (E : Env Ptr) (s : State Ptr) : Prop :=
  ∃ (s₀ : State Ptr) (pre : List (Action Ptr)), s₀.Idle ∧ (∀ a ∈ pre, a ≠ .init) ∧
    Schedule.run (Modem.step E) s₀ (.init :: pre) = some s

theorem queue_of_reached (h : s.Reached E) : ∃ xs, Queue E s xs := by
  obtain ⟨s₀, pre, h0, hi, hr⟩ := h
  exact ⟨_, queue_of_run h0 hi hr⟩

theorem sample_reached {s : State ℕ} {as : List (Action ℕ)} (ha : ∀ a ∈ as, a ≠ .init)
    (hs : Schedule.run (Modem.step sampleEnv) sampleState (.init :: as) = some s) :
    s.Reached sampleEnv := by
  exact ⟨sampleState, as, fun _ => rfl, ha, hs⟩

theorem Queue.notify_eq (h : Queue E s xs) (context : UInt32) (fuel : ℕ) :
    nrfModemOsEventNotify E context fuel s = if xs.length < fuel then
      some { s with
        sem := fun q => if s.wakes context q then mdxSemPost (s.sem q) else s.sem q }
      else none := by
  rw [nrfModemOsEventNotify, h.postLoop_eq]
  simp only [decide_eq_true_eq, h.wakes_iff]
  split_ifs <;> rfl

theorem Queue.shutdown_eq (h : Queue E s xs) (fuel : ℕ) :
    nrfModemOsShutdown E fuel s = if xs.length < fuel then
      some { s with sem := fun q => if s.queued q then mdxSemPost (s.sem q) else s.sem q }
      else none := by
  rw [nrfModemOsShutdown, h.postLoop_eq]
  simp only [and_true, (h.ok _).mem_iff]
  split_ifs <;> rfl

/-- The list of sleeping threads after any run that begins with `nrf_modem_os_init`, and
the effect of a notify on it. -/
theorem sleeping_list_exact {as : List (Action Ptr)} (h0 : s.Idle) (hi : ∀ a ∈ as, a ≠ .init)
    (hr : Schedule.run (Modem.step E) s (.init :: as) = some t) :
    Ring.Rep t.links E.sleepingThreadList (queueAfter as) ∧
      (∀ p, p ∈ queueAfter as ↔ ∃ c, t.call p = some c ∧ (c.pt = .wait ∨ c.pt = .remove)) ∧
      ∀ context, (∃ n, ∀ fuel, n < fuel → (nrfModemOsEventNotify E context fuel t).isSome) ∧
        ∀ fuel u, nrfModemOsEventNotify E context fuel t = some u → u = { t with
          sem := fun q => if t.wakes context q then mdxSemPost (t.sem q) else t.sem q } := by
  have h := queue_of_run h0 hi hr
  refine ⟨h.ring, fun p => ?_, fun context => ⟨⟨(queueAfter as).length, ?_⟩, ?_⟩⟩
  · rw [(h.ok p).mem_iff, queued_iff]
    simp only [Call.queued, decide_eq_true_eq]
  · intro fuel hf
    rw [h.notify_eq, if_pos hf]
    rfl
  · intro fuel u hu
    rw [h.notify_eq, Option.ite_none_right_eq_some] at hu
    exact (Option.some.inj hu.2).symm

theorem sleeping_list_exact_two : ∃ t, Schedule.run (Modem.step sampleEnv) sampleState
    (.init :: (fallAsleep 2 7 100 ++ fallAsleep 3 8 100 ++ [.notify 7 3, .wait 2, .remove 2])) =
      some t ∧ Ring.Rep t.links 1 [3] := by
  have h : (Schedule.run (Modem.step sampleEnv) sampleState (.init ::
      (fallAsleep 2 7 100 ++ fallAsleep 3 8 100 ++ [.notify 7 3, .wait 2, .remove 2]))).isSome := by
    decide
  have hr := (Option.some_get h).symm
  exact ⟨_, hr, (sleeping_list_exact (fun _ => rfl) (by decide) hr).1⟩

end Nrf9160.Modem
