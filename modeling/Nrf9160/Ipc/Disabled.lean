import Nrf9160.Ipc.Delivery

/-! Calls of the handler for a channel whose interrupt is disabled. -/

namespace Nrf9160.Ipc

variable {Handler Context : Type}

/-- In every run from `s`, the handler is called for a channel only while the receive
interrupt of the channel is enabled. -/
def CallsEnabledOnly (D : Driver) (s : State Handler Context) : Prop :=
  ∀ as t j u, Schedule.run (step D) s as = some t → step D t (.call j) = some u →
    t.enabled j = true

def Op.disables (j : Channel) : Op Handler Context → Bool
  | .disable i => i.toNat = j.val
  | .uninit => true
  | _ => false

variable {D : Driver} {s t u v : State Handler Context} {a : Action Handler Context}
  {as : List (Action Handler Context)} {ds : List Channel} {i j : Channel}
  {op : Op Handler Context}

theorem op_enabled (h : s.enabled j = true) (hop : op.disables j = false) :
    (op.run D s).enabled j = true := by
  cases op with
  | init handler pContext => exact h
  | configLoad config =>
    refine (D.chanmask_bit _ _ _ j).trans ?_
    split_ifs
    · rfl
    · exact h
  | enable i =>
    refine (D.inten_bit _ _ _ j).trans ?_
    split_ifs
    · rfl
    · exact h
  | disable i =>
    have hne : ¬i.toNat = j.val := of_decide_eq_false hop
    refine (D.inten_bit _ _ _ j).trans ?_
    rw [if_neg hne]
    exact h
  | uninit => cases hop

theorem irq_ne_none (h : Due s ds) (hi : i ∈ ds) : s.irq ≠ none := by
  cases h with
  | idle h1 => exact absurd hi List.not_mem_nil
  | start h1 => exact absurd hi List.not_mem_nil
  | loop ds h1 | next _ _ h1 | handling _ _ h1 => simp [h1]

theorem ne_irqRet (h : Due s ds) (hi : i ∈ ds) (hs : step D s a = some t) : a ≠ .irqRet := by
  rintro rfl
  obtain ⟨hk, -⟩ := irqRet_eq_some hs
  obtain ⟨rfl, -⟩ := h.of_ret hk
  exact List.not_mem_nil hi

theorem inten_of_clear (hs : step D s (.clear i) = some t) : t.regs.inten = s.regs.inten := by
  obtain ⟨k, -, rfl⟩ := clear_eq_some hs
  rfl

theorem enabled_of_inten (hj : s.enabled j = true) (h : t.regs.inten = s.regs.inten) :
    t.enabled j = true := by
  rw [State.enabled, h]
  exact hj

theorem enabled_step (h : Due s ds) (hi : i ∈ ds) (hj : s.enabled j = true)
    (hs : step D s a = some t) :
    t.enabled j = true ∨ ∃ op, a = .handlerOp op ∧ op.disables j = true := by
  cases a with
  | raise k =>
    cases hs
    exact .inl hj
  | thread op =>
    -- no thread runs while an interrupt is in progress
    obtain ⟨hn, _⟩ := Option.ite_none_right_eq_some.mp hs
    exact absurd (Option.isNone_iff_eq_none.mp hn) (irq_ne_none h hi)
  | handlerOp op =>
    obtain ⟨_, hs⟩ := Option.ite_none_right_eq_some.mp hs
    cases hs
    by_cases hd : op.disables j = true
    · exact .inr ⟨op, rfl, hd⟩
    · exact .inl (op_enabled hj (eq_false_of_ne_true hd))
  | clear k => exact .inl (enabled_of_inten hj (inten_of_clear hs))
  | _ => exact .inl (enabled_of_inten hj (congrArg Registers.inten (regs_of_step hs (by simp))))

theorem due_of_call (h : Due s ds) (hs : step D s (.call j) = some t) : j ∈ ds := by
  obtain ⟨es, -, rfl⟩ := due_step h (by simp) hs
  exact List.mem_append_left es (List.mem_singleton_self j)

/-- From a snapshot on, a channel that is called in the end is due all the time. -/
theorem due_until_call (h : Due v ds) (ha : ∀ a ∈ as, a ≠ .intpend)
    (hr : Schedule.run (step D) v as = some t) (hc : step D t (.call j) = some u) : j ∈ ds := by
  obtain ⟨es, hes, rfl⟩ := due_run h ha hr
  exact List.mem_append_right _ (due_of_call hes hc)

theorem ne_irqRet_of_run (h : Due v ds) (ha : ∀ a ∈ as, a ≠ .intpend)
    (hr : Schedule.run (step D) v as = some t) (hc : step D t (.call j) = some u) :
    ∀ a ∈ as, a ≠ .irqRet := by
  induction as generalizing v ds with
  | nil => exact fun a hm => absurd hm List.not_mem_nil
  | cons a as ih =>
    have hdue := due_until_call h ha hr hc
    obtain ⟨w, hw, hr⟩ := Schedule.run_cons_eq_some.mp hr
    obtain ⟨es, hes, -⟩ := due_step h (ha a List.mem_cons_self) hw
    intro b hb
    rcases List.mem_cons.mp hb with rfl | hb
    · exact ne_irqRet h hdue hw
    · exact ih hes (fun b hb => ha b (List.mem_cons_of_mem a hb)) hr b hb

theorem enabled_run (h : Due v ds) (hj : v.enabled j = true) (ha : ∀ a ∈ as, a ≠ .intpend)
    (hr : Schedule.run (step D) v as = some t) (hc : step D t (.call j) = some u) :
    t.enabled j = true ∨ ∃ op, .handlerOp op ∈ as ∧ op.disables j = true := by
  induction as generalizing v ds with
  | nil =>
    cases hr
    exact .inl hj
  | cons a as ih =>
    have hdue := due_until_call h ha hr hc
    obtain ⟨w, hw, hr⟩ := Schedule.run_cons_eq_some.mp hr
    obtain ⟨es, hes, -⟩ := due_step h (ha a List.mem_cons_self) hw
    rcases enabled_step h hdue hj hw with hj | ⟨op, rfl, hop⟩
    · have has : ∀ b ∈ as, b ≠ .intpend := fun b hb => ha b (List.mem_cons_of_mem a hb)
      rcases ih hes hj has hr with ht | ⟨op, hm, hop⟩
      · exact .inl ht
      · exact .inr ⟨op, List.mem_cons_of_mem a hm, hop⟩
    · exact .inr ⟨op, List.mem_cons_self, hop⟩

theorem flag_and_enabled_of_intpend (h : v.regs.intpend.getLsbD j = true) :
    v.flag j = true ∧ v.enabled j = true := by
  rw [Registers.intpend, BitVec.getLsbD_and, Bool.and_eq_true_iff] at h
  exact h

theorem exists_intpend (h0 : s.Quiet) (hr : Schedule.run (step D) s as = some t)
    (hc : step D t (.call j) = some u) : ∃ a ∈ as, a = .intpend := by
  by_contra hno
  have ha : ∀ a ∈ as, a ≠ .intpend := fun a hm he => hno ⟨a, hm, he⟩
  exact List.not_mem_nil (due_until_call (.idle h0.1 h0.2) ha hr hc)

/-- The handler is called for a channel that was raised and enabled when the interrupt took
its snapshot, and that only the handler itself can have disabled since. -/
theorem call_enabled_at_snapshot (D : Driver) (h0 : s.Quiet)
    (hr : Schedule.run (step D) s as = some t) (hc : step D t (.call j) = some u) :
    ∃ bs cs v, as = bs ++ .intpend :: cs ∧ (∀ c ∈ cs, c ≠ .intpend ∧ c ≠ .irqRet) ∧
      Schedule.run (step D) s bs = some v ∧ v.flag j = true ∧ v.enabled j = true ∧
      (t.enabled j = true ∨ ∃ op, .handlerOp op ∈ cs ∧ op.disables j = true) := by
  obtain ⟨bs, b, cs, rfl, rfl, hcs⟩ := Schedule.exists_last (exists_intpend h0 hr hc)
  obtain ⟨v, hv, hr⟩ := Schedule.run_append_eq_some.mp hr
  obtain ⟨w, hw, hr⟩ := Schedule.run_cons_eq_some.mp hr
  obtain ⟨ds, hd⟩ := due_of_run h0 hv
  obtain ⟨-, hregs, hdw⟩ := due_intpend hd hw
  have hpend := mem_pendingChannels.mp (due_until_call hdw hcs hr hc)
  obtain ⟨hf, he⟩ := flag_and_enabled_of_intpend hpend
  have hew : w.enabled j = true := enabled_of_inten he (congrArg Registers.inten hregs)
  refine ⟨bs, cs, v, rfl, ?_, hv, hf, he, enabled_run hdw hew hcs hr hc⟩
  intro c hm
  exact ⟨hcs c hm, ne_irqRet_of_run hdw hcs hr hc c hm⟩

/-- Channels 0 and 1 are pending, and the handler disables 1 when it is called for 0. -/
def disableInHandler : List (Action Unit Unit) :=
  [.thread (.enable 0), .thread (.enable 1), .raise 0, .raise 1, .irq, .intpend, .clear 0,
    .call 0, .handlerOp (.disable 1), .handlerRet, .clear 1]

theorem not_callsEnabledOnly : ¬CallsEnabledOnly sampleDriver sampleState := by
  intro hall
  have h : (Schedule.run (step sampleDriver) sampleState disableInHandler).any (fun t =>
      (step sampleDriver t (.call 1)).isSome ∧ t.enabled 1 = false) = true := by decide
  obtain ⟨t, ht, h⟩ := (Option.any_eq_true ..).mp h
  obtain ⟨hs, he⟩ := of_decide_eq_true h
  obtain ⟨u, hu⟩ := Option.isSome_iff_exists.mp hs
  have hj := hall _ t 1 u ht hu
  rw [he] at hj
  cases hj

theorem call_enabled_at_snapshot_sample : ∃ t u : State Unit Unit,
    Schedule.run (step sampleDriver) sampleState disableInHandler = some t ∧
      step sampleDriver t (.call 1) = some u ∧
      ∃ bs cs v, disableInHandler = bs ++ .intpend :: cs ∧
        Schedule.run (step sampleDriver) sampleState bs = some v ∧ v.enabled 1 = true := by
  have h : (Schedule.run (step sampleDriver) sampleState disableInHandler).any (fun t =>
      (step sampleDriver t (.call 1)).isSome) = true := by decide
  obtain ⟨t, ht, h⟩ := (Option.any_eq_true ..).mp h
  obtain ⟨u, hu⟩ := Option.isSome_iff_exists.mp h
  obtain ⟨bs, cs, v, he, _, hv, _, hen, _⟩ :=
    call_enabled_at_snapshot sampleDriver ⟨rfl, rfl⟩ ht hu
  exact ⟨t, u, ht, hu, bs, cs, v, he, hv, hen⟩

end Nrf9160.Ipc
