import Nrf9160.Ipc.Driver
import Nrf9160.Lib.Behaviour

/-! Which events the interrupt handler delivers. It works from one snapshot of the pending
register and clears a flag before it calls the handler for it: a raise is never lost, and
what the handler disables in the meantime is delivered all the same. -/

namespace Nrf9160.Ipc

variable {Handler Context : Type}

theorem pending_bit_iff (pending : BitVec 32) (i : Channel) :
    pending &&& 1#32 <<< i.val ≠ 0 ↔ pending.getLsbD i = true := by
  have h0 : BitVec.twoPow 32 i.val ≠ 0 := by
    intro h
    have hb := twoPow_bit i.val i
    rw [h] at hb
    simp at hb
  rw [← BitVec.twoPow_eq, BitVec.and_twoPow]
  cases hp : pending.getLsbD i.val with
  | false => simp
  | true => simpa using h0

/-- What is left of the handler when it has these channels still to serve. -/
def serve : List Channel → IrqProg Unit
  | [] => .ret ()
  | i :: is => .call (.clearEvent i) fun _ => .call (.handler i) fun _ => serve is

theorem irqLoop_eq (pending : BitVec 32) (is : List Channel) :
    irqLoop pending is = serve (is.filter fun i => pending.getLsbD i) := by
  induction is with
  | nil => rfl
  | cons i is ih =>
    rw [irqLoop, ih]
    by_cases hi : pending.getLsbD i = true
    · rw [if_pos ((pending_bit_iff pending i).mpr hi), List.filter_cons, if_pos hi]
      rfl
    · rw [if_neg fun h => hi ((pending_bit_iff pending i).mp h), List.filter_cons, if_neg hi]

/-- The channels that an interrupt with this snapshot serves. -/
def pendingChannels (pending : BitVec 32) : List Channel :=
  (List.finRange IPC_CONF_NUM).filter fun i => pending.getLsbD i

theorem nrfxIpcIrqHandler_eq : nrfxIpcIrqHandler = .call .readIntpend fun pending =>
    serve (pendingChannels pending) := by
  show Prog.call _ _ = _
  congr 1
  funext pending
  exact irqLoop_eq pending _

inductive Due (s : State Handler Context) : List Channel → Prop where
  | idle : s.irq = none → s.handling = false → Due s []
  | start : s.irq = some nrfxIpcIrqHandler → s.handling = false → Due s []
  | loop (ds : List Channel) : s.irq = some (serve ds) → s.handling = false → Due s ds
  | next (i : Channel) (ds : List Channel) :
      s.irq = some (.call (.handler i) fun _ => serve ds) → s.handling = false → Due s (i :: ds)
  | handling (i : Channel) (ds : List Channel) :
      s.irq = some (.call (.handler i) fun _ => serve ds) → s.handling = true → Due s ds

def State.callsNext (s : State Handler Context) (j : Channel) : Prop :=
  (∃ k, s.irq = some (.call (.handler j) k)) ∧ s.handling = false

def Action.called : Action Handler Context → List Channel
  | .call i => [i]
  | _ => []

def called (as : List (Action Handler Context)) : List Channel := as.flatMap Action.called

variable {D : Driver} {s t u v : State Handler Context} {a : Action Handler Context}
  {as : List (Action Handler Context)} {ds : List Channel} {i j : Channel}
  {op : Op Handler Context}

theorem Due.congr (h : Due s ds) (hi : t.irq = s.irq) (hh : t.handling = s.handling) :
    Due t ds := by
  cases h with
  | idle h1 h2 => exact .idle (hi.trans h1) (hh.trans h2)
  | start h1 h2 => exact .start (hi.trans h1) (hh.trans h2)
  | loop ds h1 h2 => exact .loop ds (hi.trans h1) (hh.trans h2)
  | next i ds h1 h2 => exact .next i ds (hi.trans h1) (hh.trans h2)
  | handling i ds h1 h2 => exact .handling i ds (hi.trans h1) (hh.trans h2)

theorem called_cons : called (a :: as) = a.called ++ called as := List.flatMap_cons

theorem op_irq : (op.run D s).irq = s.irq := by
  cases op <;> rfl

theorem op_handling : (op.run D s).handling = s.handling := by
  cases op <;> rfl

theorem op_events : (op.run D s).regs.events = s.regs.events := by
  cases op <;> rfl

/-! What the interrupt has left to run when it takes a step, and the state after it. -/

theorem intpend_eq_some (hs : step D s .intpend = some t) :
    ∃ k, s.irq = some (.call .readIntpend k) ∧
      t = { s with irq := some (k s.regs.intpend) } := by
  simp only [step] at hs
  split at hs
  · next k hk => exact ⟨k, hk, (Option.some.inj hs).symm⟩
  · cases hs

theorem clear_eq_some (hs : step D s (.clear i) = some t) :
    ∃ k, s.irq = some (.call (.clearEvent i) k) ∧
      t = { s with regs := s.regs.clear i, irq := some (k ()) } := by
  simp only [step] at hs
  split at hs
  · next i' k hk =>
    obtain ⟨rfl, ht⟩ := Option.ite_none_right_eq_some.mp hs
    exact ⟨k, hk, (Option.some.inj ht).symm⟩
  · cases hs

theorem call_eq_some (hs : step D s (.call i) = some t) :
    ∃ k, s.irq = some (.call (.handler i) k) ∧ s.handling = false ∧
      t = { s with handling := true } := by
  simp only [step] at hs
  split at hs
  · next i' k hk =>
    obtain ⟨⟨rfl, hh⟩, ht⟩ := Option.ite_none_right_eq_some.mp hs
    exact ⟨k, hk, hh, (Option.some.inj ht).symm⟩
  · cases hs

theorem handlerRet_eq_some (hs : step D s .handlerRet = some t) :
    ∃ i k, s.irq = some (.call (.handler i) k) ∧ s.handling = true ∧
      t = { s with irq := some (k ()), handling := false } := by
  simp only [step] at hs
  split at hs
  · next i k hk =>
    obtain ⟨hh, ht⟩ := Option.ite_none_right_eq_some.mp hs
    exact ⟨i, k, hk, hh, (Option.some.inj ht).symm⟩
  · cases hs

theorem irqRet_eq_some (hs : step D s .irqRet = some t) :
    s.irq = some (.ret ()) ∧ t = { s with irq := none } := by
  simp only [step] at hs
  split at hs
  · next hk => exact ⟨hk, (Option.some.inj hs).symm⟩
  · cases hs

/-! What is due, by what the interrupt has left to run. -/

theorem Due.of_readIntpend {k : BitVec 32 → IrqProg Unit} (h : Due s ds)
    (hk : s.irq = some (.call .readIntpend k)) :
    ds = [] ∧ s.handling = false ∧ k = fun pending => serve (pendingChannels pending) := by
  cases h with
  | start h1 h2 =>
    rw [h1, nrfxIpcIrqHandler_eq] at hk
    cases hk
    exact ⟨rfl, h2, rfl⟩
  | loop ds h1 =>
    rw [h1] at hk
    cases ds <;> cases hk
  | idle h1 | next _ _ h1 | handling _ _ h1 =>
    rw [h1] at hk
    cases hk

theorem Due.of_clearEvent {k : Unit → IrqProg Unit} (h : Due s ds)
    (hk : s.irq = some (.call (.clearEvent i) k)) :
    ∃ es, ds = i :: es ∧ s.handling = false ∧
      k = fun _ => .call (.handler i) fun _ => serve es := by
  cases h with
  | loop ds h1 h2 =>
    rw [h1] at hk
    cases ds with
    | nil => cases hk
    | cons d ds =>
      cases hk
      exact ⟨ds, rfl, h2, rfl⟩
  | idle h1 | start h1 | next _ _ h1 | handling _ _ h1 =>
    rw [h1] at hk
    cases hk

theorem Due.of_handler {k : Unit → IrqProg Unit} (h : Due s ds)
    (hk : s.irq = some (.call (.handler i) k)) :
    ∃ es, k = (fun _ => serve es) ∧ ds = if s.handling then es else i :: es := by
  cases h with
  | next d ds h1 h2 =>
    rw [h1] at hk
    cases hk
    exact ⟨ds, rfl, by rw [h2, if_neg Bool.false_ne_true]⟩
  | handling d ds h1 h2 =>
    rw [h1] at hk
    cases hk
    exact ⟨ds, rfl, by rw [h2, if_pos rfl]⟩
  | loop ds h1 =>
    rw [h1] at hk
    cases ds <;> cases hk
  | idle h1 | start h1 =>
    rw [h1] at hk
    cases hk

theorem Due.of_ret (h : Due s ds) (hk : s.irq = some (.ret ())) :
    ds = [] ∧ s.handling = false := by
  cases h with
  | loop ds h1 h2 =>
    rw [h1] at hk
    cases ds with
    | nil => exact ⟨rfl, h2⟩
    | cons d ds => cases hk
  | idle h1 | start h1 | next _ _ h1 | handling _ _ h1 =>
    rw [h1] at hk
    cases hk

/-- A step of the system after the snapshot takes the next channel off those that are due,
or leaves them all. -/
theorem due_step (h : Due s ds) (ha : a ≠ .intpend) (hs : step D s a = some t) :
    ∃ es, Due t es ∧ ds = a.called ++ es := by
  cases a with
  | raise j =>
    cases hs
    exact ⟨ds, h.congr rfl rfl, rfl⟩
  | thread op =>
    obtain ⟨_, hs⟩ := Option.ite_none_right_eq_some.mp hs
    cases hs
    exact ⟨ds, h.congr op_irq op_handling, rfl⟩
  | handlerOp op =>
    obtain ⟨_, hs⟩ := Option.ite_none_right_eq_some.mp hs
    cases hs
    exact ⟨ds, h.congr op_irq op_handling, rfl⟩
  | intpend => exact absurd rfl ha
  | irq =>
    obtain ⟨hn, hs⟩ := Option.ite_none_right_eq_some.mp hs
    cases hs
    cases h with
    | idle h1 h2 => exact ⟨[], .start rfl h2, rfl⟩
    | start h1 | loop _ h1 | next _ _ h1 | handling _ _ h1 =>
      rw [h1] at hn
      cases hn
  | clear i =>
    -- a channel stays due from the clear of its flag to its call
    obtain ⟨k, hk, rfl⟩ := clear_eq_some hs
    obtain ⟨es, rfl, hh, rfl⟩ := h.of_clearEvent hk
    exact ⟨i :: es, .next i es rfl hh, rfl⟩
  | call i =>
    obtain ⟨k, hk, hh, rfl⟩ := call_eq_some hs
    obtain ⟨es, rfl, hds⟩ := h.of_handler hk
    rw [hh, if_neg Bool.false_ne_true] at hds
    exact ⟨es, .handling i es hk rfl, hds⟩
  | handlerRet =>
    obtain ⟨i, k, hk, hh, rfl⟩ := handlerRet_eq_some hs
    obtain ⟨es, rfl, hds⟩ := h.of_handler hk
    rw [hh, if_pos rfl] at hds
    exact ⟨es, .loop es rfl rfl, hds⟩
  | irqRet =>
    obtain ⟨hk, rfl⟩ := irqRet_eq_some hs
    obtain ⟨rfl, hh⟩ := h.of_ret hk
    exact ⟨[], .idle rfl hh, rfl⟩

theorem due_intpend (h : Due s ds) (hs : step D s .intpend = some t) :
    ds = [] ∧ t.regs = s.regs ∧ Due t (pendingChannels s.regs.intpend) := by
  obtain ⟨k, hk, rfl⟩ := intpend_eq_some hs
  obtain ⟨rfl, hh, rfl⟩ := h.of_readIntpend hk
  exact ⟨rfl, rfl, .loop _ rfl hh⟩

theorem due_run (h : Due s ds) (ha : ∀ a ∈ as, a ≠ .intpend)
    (hr : Schedule.run (step D) s as = some t) : ∃ es, Due t es ∧ ds = called as ++ es := by
  induction as generalizing s ds with
  | nil =>
    cases hr
    exact ⟨ds, h, rfl⟩
  | cons a as ih =>
    obtain ⟨v, hv, hr⟩ := Schedule.run_cons_eq_some.mp hr
    obtain ⟨es, hes, rfl⟩ := due_step h (ha a List.mem_cons_self) hv
    obtain ⟨fs, hfs, rfl⟩ := ih hes (fun b hb => ha b (List.mem_cons_of_mem a hb)) hr
    refine ⟨fs, hfs, ?_⟩
    rw [called_cons, List.append_assoc]

def State.Quiet (s : State Handler Context) : Prop := s.irq = none ∧ s.handling = false

theorem exists_due_step (h : ∃ ds, Due s ds) (hs : step D s a = some t) : ∃ ds, Due t ds := by
  obtain ⟨ds, hd⟩ := h
  by_cases ha : a = .intpend
  · subst ha
    exact ⟨_, (due_intpend hd hs).2.2⟩
  · obtain ⟨es, hes, -⟩ := due_step hd ha hs
    exact ⟨es, hes⟩

theorem due_of_run (h0 : s.Quiet) (hr : Schedule.run (step D) s as = some t) :
    ∃ ds, Due t ds := by
  refine Schedule.run_invariant (I := fun v => ∃ ds, Due v ds) ?_ ⟨[], .idle h0.1 h0.2⟩ hr
  intro v a w hv hs
  exact exists_due_step hv hs

theorem raise_flag : ({ s with regs := s.regs.raise i } : State Handler Context).flag j =
    (s.flag j || decide (i = j)) := by
  show (s.regs.events ||| BitVec.twoPow 32 i).getLsbD j = _
  rw [BitVec.getLsbD_or, twoPow_bit, State.flag]
  simp only [Fin.val_inj]

theorem clear_bit (h : i ≠ j) (r : Registers) :
    (r.clear i).events.getLsbD j = r.events.getLsbD j := by
  have hne : i.val ≠ j.val := fun he => h (Fin.val_inj.mp he)
  show (r.events &&& ~~~BitVec.twoPow 32 i).getLsbD j = _
  rw [BitVec.getLsbD_and, not_bit, twoPow_bit, decide_eq_false hne, Bool.not_false, Bool.and_true]

/-- What was raised is still flagged, or the interrupt has just cleared the flag and calls
the handler next. -/
def State.saved (s : State Handler Context) (j : Channel) : Prop :=
  s.flag j = true ∨ s.callsNext j

/-- While the call of the handler for `j` is next, only events and that call can happen. -/
theorem step_of_callsNext (h : s.callsNext j) (hs : step D s a = some t) :
    (∃ i, a = .raise i) ∨ a = .call j := by
  obtain ⟨⟨k, hk⟩, hh⟩ := h
  cases a with
  | raise i => exact .inl ⟨i, rfl⟩
  | call i =>
    simp only [step, hk] at hs
    obtain ⟨⟨rfl, _⟩, _⟩ := Option.ite_none_right_eq_some.mp hs
    exact .inr rfl
  | thread op => simp [step, hk] at hs
  | irq => simp [step, hk] at hs
  | intpend => simp [step, hk] at hs
  | clear i => simp [step, hk] at hs
  | handlerOp op => simp [step, hh] at hs
  | handlerRet => simp [step, hk, hh] at hs
  | irqRet => simp [step, hk] at hs

theorem saved_clear (h : Due s ds) (hj : s.flag j = true) (hs : step D s (.clear i) = some t) :
    t.saved j := by
  obtain ⟨k, hk, rfl⟩ := clear_eq_some hs
  obtain ⟨es, -, hh, rfl⟩ := h.of_clearEvent hk
  by_cases hd : i = j
  · -- the flag of `j` is down, but its call comes next
    subst hd
    exact .inr ⟨⟨_, rfl⟩, hh⟩
  · exact .inl ((clear_bit hd s.regs).trans hj)

theorem regs_of_step (hs : step D s a = some t) (ha : a = .irq ∨ a = .intpend ∨
    (∃ i, a = .call i) ∨ a = .handlerRet ∨ a = .irqRet) : t.regs = s.regs := by
  rcases ha with rfl | rfl | ⟨i, rfl⟩ | rfl | rfl
  · obtain ⟨_, ht⟩ := Option.ite_none_right_eq_some.mp hs
    exact Option.some.inj ht ▸ rfl
  · obtain ⟨k, -, rfl⟩ := intpend_eq_some hs
    rfl
  · obtain ⟨k, -, -, rfl⟩ := call_eq_some hs
    rfl
  · obtain ⟨i, k, -, -, rfl⟩ := handlerRet_eq_some hs
    rfl
  · obtain ⟨-, rfl⟩ := irqRet_eq_some hs
    rfl

theorem flag_of_regs (hj : s.flag j = true) (h : t.regs = s.regs) : t.saved j := by
  refine .inl ?_
  rw [State.flag, h]
  exact hj

theorem saved_step (h : Due s ds) (hj : s.saved j) (ha : a ≠ .call j)
    (hs : step D s a = some t) : t.saved j := by
  rcases hj with hj | hj
  · cases a with
    | raise i =>
      cases hs
      refine .inl ?_
      rw [raise_flag, hj, Bool.true_or]
    | clear i => exact saved_clear h hj hs
    | thread op =>
      obtain ⟨_, hs⟩ := Option.ite_none_right_eq_some.mp hs
      cases hs
      exact .inl ((congrArg (fun e => e.getLsbD j) op_events).trans hj)
    | handlerOp op =>
      obtain ⟨_, hs⟩ := Option.ite_none_right_eq_some.mp hs
      cases hs
      exact .inl ((congrArg (fun e => e.getLsbD j) op_events).trans hj)
    | _ => exact flag_of_regs hj (regs_of_step hs (by simp))
  · obtain ⟨i, rfl⟩ := (step_of_callsNext hj hs).resolve_right ha
    cases hs
    exact .inr hj

theorem saved_run (h : Due s ds) (hj : s.saved j) (ha : ∀ a ∈ as, a ≠ .call j)
    (hr : Schedule.run (step D) s as = some t) : t.saved j := by
  refine ((Schedule.steps_of_forall fun a h _ => ha a h).run_invariant
    (G := fun _ a => a ≠ .call j) (I := fun v => (∃ ds, Due v ds) ∧ v.saved j) ?_ ⟨⟨ds, h⟩, hj⟩
    hr).2
  rintro v a w ⟨⟨ds, hd⟩, hj⟩ ha hs
  exact ⟨exists_due_step ⟨ds, hd⟩ hs, saved_step hd hj ha hs⟩

section

variable {b : Schedule.Behaviour (step D : State Handler Context → _ → _)} {n : ℕ}

theorem due_of_behaviour (h0 : (b.state 0).Quiet) (m : ℕ) : ∃ ds, Due (b.state m) ds := by
  refine b.keeps (P := fun v => ∃ ds, Due v ds) ?_ ⟨[], .idle h0.1 h0.2⟩ m (Nat.zero_le m)
  intro v a w hv hs
  exact exists_due_step hv hs

/-- Where the interrupt is not stopped before a call of the handler for ever, a call that
is next is made. -/
theorem called_of_callsNext (hf : b.Fair fun a => ∃ i, a = .call i)
    (hj : (b.state n).callsNext j) : ∃ k, n ≤ k ∧ b.action k = .call j := by
  have hstay : ∀ (s : State Handler Context) a t, s.callsNext j → ¬(∃ i, a = .call i) →
      step D s a = some t → t.callsNext j := by
    intro s a t hs ha ht
    obtain ⟨i, rfl⟩ := (step_of_callsNext hs ht).resolve_right fun he => ha ⟨j, he⟩
    cases ht
    exact hs
  have hen : ∀ s : State Handler Context, s.callsNext j →
      ∃ a t, (∃ i, a = .call i) ∧ step D s a = some t := by
    rintro s ⟨⟨k, hk⟩, hh⟩
    refine ⟨.call j, { s with handling := true }, ⟨j, rfl⟩, ?_⟩
    simp only [step, hk, hh, and_self, if_true]
  obtain ⟨k, hnk, hk, i, hi⟩ := b.ends hf hj hstay hen
  rcases step_of_callsNext hk (b.next k) with ⟨i', hr⟩ | hc
  · rw [hi] at hr
    cases hr
  · exact ⟨k, hnk, hc⟩

theorem called_or_flag (h0 : (b.state 0).Quiet) (hf : b.Fair fun a => ∃ i, a = .call i)
    (hn : b.action n = .raise j) :
    (∃ k, n < k ∧ b.action k = .call j) ∨ ∀ m, n < m → (b.state m).flag j = true := by
  by_cases hcall : ∃ k, n < k ∧ b.action k = .call j
  · exact .inl hcall
  refine .inr fun m hm => ?_
  have hraised : (b.state (n + 1)).saved j := by
    have hs := b.next n
    rw [hn] at hs
    rw [← Option.some.inj hs]
    refine .inl ?_
    rw [raise_flag, decide_eq_true rfl, Bool.or_true]
  have hsaved : (b.state m).saved j := by
    induction m, hm using Nat.le_induction with
    | base => exact hraised
    | succ m hm ih =>
      obtain ⟨ds, hd⟩ := due_of_behaviour h0 m
      exact saved_step hd ih (fun he => hcall ⟨m, hm, he⟩) (b.next m)
  rcases hsaved with hflag | hnext
  · exact hflag
  · obtain ⟨k, hmk, hk⟩ := called_of_callsNext hf hnext
    exact absurd ⟨k, Nat.lt_of_lt_of_le hm hmk, hk⟩ hcall

end

theorem pendingChannels_pairwise (pending : BitVec 32) :
    (pendingChannels pending).Pairwise (· < ·) :=
  (List.pairwise_lt_finRange IPC_CONF_NUM).sublist List.filter_sublist

theorem mem_pendingChannels {pending : BitVec 32} :
    i ∈ pendingChannels pending ↔ pending.getLsbD i = true := by
  simp [pendingChannels]

/-- No event is lost, and one interrupt serves what it found pending, each channel once. A
run that is cut off between the clear of a flag and the call for it has that call next, and
one that goes on makes it. -/
theorem no_event_lost (D : Driver) (h0 : s.Quiet) :
    (∀ as j bs t, Schedule.run (step D) s (as ++ .raise j :: bs) = some t →
      .call j ∈ bs ∨ t.flag j = true ∨ t.callsNext j) ∧
    (∀ as t j, Schedule.run (step D) s as = some t → t.callsNext j →
      ∀ a u, step D t a = some u → (∃ i, a = .raise i) ∨ a = .call j) ∧
    (∀ b : Schedule.Behaviour (step D), b.state 0 = s → (b.Fair fun a => ∃ i, a = .call i) →
      ∀ n j, b.action n = .raise j →
        (∃ k, n < k ∧ b.action k = .call j) ∨ ∀ m, n < m → (b.state m).flag j = true) ∧
    ∀ as v bs t, Schedule.run (step D) s as = some v →
      Schedule.run (step D) v (.intpend :: bs) = some t → (∀ b ∈ bs, b ≠ .intpend) →
      (called bs).Pairwise (· < ·) ∧ ∀ i ∈ called bs, v.regs.intpend.getLsbD i = true := by
  refine ⟨?_, ?_, ?_, ?_⟩
  · intro as j bs t hr
    obtain ⟨v, hv, hr⟩ := Schedule.run_append_eq_some.mp hr
    obtain ⟨w, hw, hr⟩ := Schedule.run_cons_eq_some.mp hr
    obtain ⟨ds, hd⟩ := due_of_run h0 hv
    cases hw
    by_cases hb : .call j ∈ bs
    · exact .inl hb
    · have hd' : Due { v with regs := v.regs.raise j } ds := hd.congr rfl rfl
      refine .inr (saved_run hd' (.inl ?_) (fun a ha he => hb (he ▸ ha)) hr)
      rw [raise_flag, decide_eq_true rfl, Bool.or_true]
  · intro as t j hr hj a u hs
    exact step_of_callsNext hj hs
  · intro b hb hf n j hn
    exact called_or_flag (hb ▸ h0) hf hn
  · intro as v bs t hv hr hb
    obtain ⟨ds, hd⟩ := due_of_run h0 hv
    obtain ⟨w, hw, hr⟩ := Schedule.run_cons_eq_some.mp hr
    obtain ⟨-, -, hdw⟩ := due_intpend hd hw
    obtain ⟨es, -, he⟩ := due_run hdw hb hr
    have hsub : (called bs).Sublist (pendingChannels v.regs.intpend) := by
      rw [he]
      exact List.sublist_append_left _ _
    refine ⟨(pendingChannels_pairwise _).sublist hsub, ?_⟩
    intro i hi
    exact mem_pendingChannels.mp (hsub.subset hi)

/-- Nothing but registrations of the handler that is registered. -/
def idling (D : Driver) (s : State Handler Context) (h : s.irq.isNone = true) :
    Schedule.Behaviour (step D : State Handler Context → _ → _) where
  state _ := s
  action _ := .thread (.init s.cb.handler s.cb.pContext)
  next _ := if_pos h

/-- Events on two channels, served up to the clear of the flag of `j`. -/
def served (i j : Channel) : List (Action Unit Unit) :=
  [.thread (.enable (.ofNat j)), .thread (.enable (.ofNat i)), .raise j, .raise i, .irq, .intpend,
    .clear i, .call i, .handlerRet, .clear j]

/-- A further event on channel `j` comes before the call for the first. -/
def servedAgain (i j : Channel) : List (Action Unit Unit) :=
  served i j ++ .raise j :: [.call j, .handlerRet, .irqRet, .irq, .intpend, .clear j, .call j,
    .handlerRet, .irqRet]

theorem no_event_lost_sample :
    (∃ t, Schedule.run (step sampleDriver) sampleState (servedAgain 1 3) = some t ∧
      (.call 3 ∈ (servedAgain 1 3).drop 11 ∨ t.flag 3 = true ∨ t.callsNext 3)) ∧
    (∃ t, Schedule.run (step sampleDriver) sampleState (served 1 3) = some t ∧ t.callsNext 3 ∧
      ∀ a u, step sampleDriver t a = some u → (∃ i, a = .raise i) ∨ a = .call 3) ∧
    (∃ b : Schedule.Behaviour (step sampleDriver), b.state 0 = sampleState ∧
      b.action 10 = .raise 3 ∧
        ((∃ k, 10 < k ∧ b.action k = .call 3) ∨ ∀ m, 10 < m → (b.state m).flag 3 = true)) ∧
    ∃ v u, Schedule.run (step sampleDriver) sampleState ((served 1 3).take 5) = some v ∧
      Schedule.run (step sampleDriver) v ((served 1 3).drop 5) = some u ∧
      (called ((served 1 3).drop 6)).Pairwise (· < ·) ∧
        ∀ i ∈ called ((served 1 3).drop 6), v.regs.intpend.getLsbD i = true := by
  have hlost := no_event_lost (s := sampleState) sampleDriver ⟨rfl, rfl⟩
  have hend : (Schedule.run (step sampleDriver) sampleState (servedAgain 1 3)).any
      (fun t => t.irq.isNone) = true := by decide
  obtain ⟨t, ht, hirq⟩ := (Option.any_eq_true ..).mp hend
  refine ⟨⟨t, ht, hlost.1 (served 1 3) 3 _ t ht⟩, ?_, ?_, ?_⟩
  · obtain ⟨v, hv, hnext⟩ : ∃ v, Schedule.run (step sampleDriver) sampleState (served 1 3) =
        some v ∧ v.callsNext 3 := ⟨_, rfl, ⟨_, rfl⟩, rfl⟩
    exact ⟨v, hv, hnext, hlost.2.1 (served 1 3) v 3 hv hnext⟩
  · obtain ⟨b, hact, hst, htail⟩ := (idling sampleDriver t hirq).exists_append ht
    have hlen : (servedAgain 1 3).length = 20 := rfl
    rw [hlen] at hact hst htail
    have h0 : b.state 0 = sampleState := (Option.some.inj (hst 0 (by decide))).symm
    have hraise : b.action 10 = .raise 3 := (Option.some.inj (hact 10 (by decide))).symm
    refine ⟨b, h0, hraise, hlost.2.2.1 b h0 (fun n hen => ?_) 10 3 hraise⟩
    -- from the end on no call of the handler is possible
    obtain ⟨a, u, ⟨i, rfl⟩, hs⟩ := hen (20 + n) (Nat.le_add_left n 20)
    obtain ⟨k, hk, -⟩ := call_eq_some hs
    rw [(htail n).1] at hk
    have hk' : t.irq = _ := hk
    rw [hk'] at hirq
    cases hirq
  · have hrun : ((Schedule.run (step sampleDriver) sampleState ((served 1 3).take 5)).bind
        fun v => Schedule.run (step sampleDriver) v ((served 1 3).drop 5)).isSome = true := by
      decide
    obtain ⟨u, hu⟩ := Option.isSome_iff_exists.mp hrun
    obtain ⟨v, hv, hu⟩ := Option.bind_eq_some_iff.mp hu
    exact ⟨v, u, hv, hu, hlost.2.2.2 ((served 1 3).take 5) v ((served 1 3).drop 6) u hv hu (by
      simp [served])⟩

end Nrf9160.Ipc
