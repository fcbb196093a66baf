import Nrf9160.Ipc.Delivery
import Nrf9160.Lib.Atomic

/-! The operations of `nrfx_ipc.c` write by write, with the interrupt in between any two of the
writes: when they are as good as the operations at once. -/

namespace Nrf9160.Ipc

inductive Write (Handler Context : Type) where
  | handler (handler : Handler)
  | pContext (pContext : Context)
  | send (i : Channel) (config : BitVec 32)
  | receive (i : Channel) (config : BitVec 32)
  | inten (eventIndex : UInt8) (enabled : Bool)
  | intenChanmask (mask : BitVec 32) (enabled : Bool)

variable {Handler Context : Type}

def Write.exec (D : Driver) (s : State Handler Context) : Write Handler Context →
    State Handler Context
  | .handler h => { s with cb := { s.cb with handler := h } }
  | .pContext c => { s with cb := { s.cb with pContext := c } }
  | .send i config =>
    { s with regs := { s.regs with send := Function.update s.regs.send i config } }
  | .receive i config =>
    { s with regs := { s.regs with receive := Function.update s.regs.receive i config } }
  | .inten i b => { s with regs := { s.regs with inten := D.nrfIpcInten s.regs.inten i b } }
  | .intenChanmask m b =>
    { s with regs := { s.regs with inten := D.nrfIpcIntenChanmask s.regs.inten m b } }

/-- The two loops over the channels that `nrfx_ipc_config_load` and `nrfx_ipc_uninit` share. -/
def configure (send receive : Channel → BitVec 32) : List (Write Handler Context) :=
  (List.finRange IPC_CONF_NUM).map (fun i => .send i (send i)) ++
    (List.finRange IPC_CONF_NUM).map fun i => .receive i (receive i)

def Op.early : Op Handler Context → List (Write Handler Context)
  | .init handler _ => [.handler handler]
  | .configLoad config => configure config.sendTaskConfig config.receiveEventConfig
  | .enable _ => []
  | .disable _ => []
  | .uninit => configure (fun _ => 0) fun _ => 0

def Op.last : Op Handler Context → Write Handler Context
  | .init _ pContext => .pContext pContext
  | .configLoad config => .intenChanmask config.receiveEventsEnabled true
  | .enable i => .inten i true
  | .disable i => .inten i false
  | .uninit => .intenChanmask 0xffffffff#32 false

def Op.writes (op : Op Handler Context) : List (Write Handler Context) := op.early ++ [op.last]

/-- What can be seen of a run: the steps of the interrupt and of the hardware, the operations,
and the calls of the handler with what they are made with. -/
inductive Seen (Handler Context : Type) where
  | env (a : Action Handler Context)
  | call (i : Channel) (cb : ControlBlock Handler Context)
  | op (op : Op Handler Context)

def Action.seen (s : State Handler Context) : Action Handler Context → List (Seen Handler Context)
  | .thread op => [.op op]
  | .call i => [.call i s.cb]
  | a => [.env a]

def Action.isEnv : Action Handler Context → Bool
  | .thread _ => false
  | _ => true

variable {D : Driver} {s t u : State Handler Context} {a : Action Handler Context}
  {op : Op Handler Context} {w : Write Handler Context} {ws done : List (Write Handler Context)}

theorem foldl_update {β : Type} (f g : Channel → β) (is : List Channel) :
    is.foldl (fun g i => Function.update g i (f i)) g = fun j => if j ∈ is then f j else g j := by
  induction is generalizing g with
  | nil => rfl
  | cons i is ih =>
    rw [List.foldl_cons, ih]
    funext j
    by_cases hj : j ∈ is
    · rw [if_pos hj, if_pos (List.mem_cons_of_mem i hj)]
    · rw [if_neg hj]
      by_cases hi : j = i
      · rw [hi, Function.update_self, if_pos List.mem_cons_self]
      · rw [Function.update_of_ne hi, if_neg fun h => (List.mem_cons.mp h).elim hi hj]

theorem foldl_send (f : Channel → BitVec 32) (is : List Channel) :
    (is.map fun i => (.send i (f i) : Write Handler Context)).foldl (Write.exec D) s =
      { s with regs := { s.regs with
        send := is.foldl (fun g i => Function.update g i (f i)) s.regs.send } } := by
  induction is generalizing s with
  | nil => rfl
  | cons i is ih =>
    rw [List.map_cons, List.foldl_cons, ih]
    rfl

theorem foldl_receive (f : Channel → BitVec 32) (is : List Channel) :
    (is.map fun i => (.receive i (f i) : Write Handler Context)).foldl (Write.exec D) s =
      { s with regs := { s.regs with
        receive := is.foldl (fun g i => Function.update g i (f i)) s.regs.receive } } := by
  induction is generalizing s with
  | nil => rfl
  | cons i is ih =>
    rw [List.map_cons, List.foldl_cons, ih]
    rfl

theorem foldl_configure (send receive : Channel → BitVec 32) :
    (configure send receive).foldl (Write.exec D) s =
      { s with regs := { s.regs with send, receive } } := by
  have hall (f g : Channel → BitVec 32) :
      (List.finRange IPC_CONF_NUM).foldl (fun g i => Function.update g i (f i)) g = f := by
    rw [foldl_update]
    funext j
    exact if_pos (List.mem_finRange j)
  rw [configure, List.foldl_append, foldl_send, foldl_receive, hall, hall]

/-- The writes of an operation make up the operation. -/
theorem foldl_writes (op : Op Handler Context) (s : State Handler Context) :
    op.writes.foldl (Write.exec D) s = op.run D s := by
  rw [Op.writes, List.foldl_append]
  cases op with
  | configLoad config =>
    rw [Op.early, foldl_configure]
    rfl
  | uninit =>
    rw [Op.early, foldl_configure]
    rfl
  | init | enable | disable => rfl

def driverWrites (D : Driver) : Atomic.Writes (State Handler Context) (Action Handler Context)
    (Op Handler Context) (Write Handler Context) (Seen Handler Context) where
  step := step D
  act := .thread
  writes := Op.writes
  exec := Write.exec D
  free s := s.irq.isNone
  env := Action.isEnv
  out := Action.seen
  name := .op
  step_act s op := by
    rw [foldl_writes]
    rfl
  out_act _ _ := rfl

abbrev Preempted (Handler Context : Type) :=
  Atomic.State (State Handler Context) (Op Handler Context) (Write Handler Context)

abbrev PreemptAction (Handler Context : Type) :=
  Atomic.Action (Action Handler Context) (Op Handler Context)

/-- The handler may be replaced only while no channel is enabled, and what the handler does in
the middle of an operation is to enable and disable channels. -/
def Gentle (x : Preempted Handler Context) : PreemptAction Handler Context → Prop
  | .start (.init _ _) => ∀ j, x.base.enabled j = false
  | .env (.handlerOp (.enable _)) => True
  | .env (.handlerOp (.disable _)) => True
  | .env (.handlerOp _) => x.task.isNone = true
  | _ => True

instance (x : Preempted Handler Context) : ∀ a, Decidable (Gentle x a)
  | .start (.init _ _) => inferInstanceAs (Decidable (∀ _, _))
  | .env (.handlerOp (.init _ _)) => inferInstanceAs (Decidable (_ = _))
  | .env (.handlerOp (.configLoad _)) => inferInstanceAs (Decidable (_ = _))
  | .env (.handlerOp .uninit) => inferInstanceAs (Decidable (_ = _))
  | .start (.configLoad _) | .start (.enable _) | .start (.disable _) | .start .uninit | .write
  | .env (.handlerOp (.enable _)) | .env (.handlerOp (.disable _)) | .env (.raise _)
  | .env (.thread _) | .env .irq | .env .intpend | .env (.clear _) | .env (.call _)
  | .env .handlerRet | .env .irqRet => isTrue trivial

/-- The writes that may come before the last one. -/
inductive Write.Plain : Write Handler Context → Prop where
  | handler (h : Handler) : Plain (.handler h)
  | send (i : Channel) (config : BitVec 32) : Plain (.send i config)
  | receive (i : Channel) (config : BitVec 32) : Plain (.receive i config)

def Op.IsSwitch : Op Handler Context → Prop
  | .enable _ => True
  | .disable _ => True
  | _ => False

theorem plain_configure {send receive : Channel → BitVec 32}
    (h : w ∈ configure send receive) : w.Plain ∧ ∀ h, w ≠ .handler h := by
  rcases List.mem_append.mp h with hw | hw
  · obtain ⟨i, -, rfl⟩ := List.mem_map.mp hw
    exact ⟨.send i _, fun _ => nofun⟩
  · obtain ⟨i, -, rfl⟩ := List.mem_map.mp hw
    exact ⟨.receive i _, fun _ => nofun⟩

theorem plain_of_early (h : w ∈ op.early) : w.Plain ∧
    ((∃ h c, op = .init h c) ∨ ∀ h, w ≠ .handler h) := by
  cases op with
  | init h c =>
    obtain rfl := List.mem_singleton.mp h
    exact ⟨.handler _, .inl ⟨_, _, rfl⟩⟩
  | configLoad config => exact (plain_configure h).imp_right .inr
  | uninit => exact (plain_configure h).imp_right .inr
  | enable | disable => exact absurd h List.not_mem_nil

/-- The interrupt, the hardware and the switches of the handler do not notice such a write. -/
theorem step_exec (hw : w.Plain) (ha : a.isEnv = true)
    (hop : ∀ op, a = .handlerOp op → op.IsSwitch) :
    step D (Write.exec D s w) a = (step D s a).map (Write.exec D · w) := by
  obtain ⟨cb, regs, irq, handling⟩ := s
  cases a with
  | thread op => cases ha
  | raise j => cases hw <;> rfl
  | irq => cases hw <;> cases irq <;> rfl
  | handlerOp op =>
    cases op with
    | enable i | disable i => cases hw <;> cases handling <;> rfl
    | init | configLoad | uninit => exact (hop _ rfl).elim
  | intpend | handlerRet | irqRet =>
    cases irq with
    | none => cases hw <;> rfl
    | some p =>
      cases p with
      | ret => cases hw <;> rfl
      | call c k => cases c <;> cases hw <;> cases handling <;> rfl
  | clear i | call i =>
    cases irq with
    | none => cases hw <;> rfl
    | some p =>
      cases p with
      | ret => cases hw <;> rfl
      | call c k =>
        cases c with
        | readIntpend => cases hw <;> rfl
        | clearEvent j =>
          by_cases hj : j = i
          · cases hw <;> simp [step, Write.exec, Registers.clear, hj]
          · cases hw <;> simp [step, Write.exec, hj]
        | handler j =>
          by_cases hj : j = i ∧ handling = false
          · cases hw <;> simp [step, Write.exec, hj]
          · cases hw <;> simp [step, Write.exec, hj]

/-- Nothing is enabled, and the interrupt has nothing to serve. -/
structure Silent (s : State Handler Context) : Prop where
  disabled : ∀ j, s.enabled j = false
  handling : s.handling = false
  due : Due s []

theorem Silent.of_step (h : Silent s) (ha : a.isEnv = true) (hs : step D s a = some t) :
    Silent t ∧ a.called = [] := by
  have henabled (hregs : t.regs.inten = s.regs.inten) (j : Channel) : t.enabled j = false := by
    rw [State.enabled, hregs]
    exact h.disabled j
  by_cases hi : a = .intpend
  · subst hi
    obtain ⟨k, hk, rfl⟩ := intpend_eq_some hs
    obtain ⟨-, hregs, hdue⟩ := due_intpend h.due hs
    have hnone : pendingChannels s.regs.intpend = [] := by
      apply List.filter_eq_nil_iff.mpr
      intro j _ hj
      rw [Registers.intpend, BitVec.getLsbD_and, Bool.and_eq_true_iff] at hj
      exact Bool.false_ne_true ((h.disabled j).symm.trans hj.2)
    exact ⟨⟨h.disabled, h.handling, hnone ▸ hdue⟩, rfl⟩
  · obtain ⟨es, hdue, hes⟩ := due_step h.due hi hs
    obtain ⟨hcalled, rfl⟩ := List.append_eq_nil_iff.mp hes.symm
    cases a with
    | thread op => cases ha
    | intpend => exact absurd rfl hi
    | raise j =>
      cases hs
      exact ⟨⟨h.disabled, h.handling, hdue⟩, rfl⟩
    | irq =>
      obtain ⟨-, hs⟩ := Option.ite_none_right_eq_some.mp hs
      cases hs
      exact ⟨⟨h.disabled, h.handling, hdue⟩, rfl⟩
    | clear i =>
      obtain ⟨k, hk, rfl⟩ := clear_eq_some hs
      exact ⟨⟨h.disabled, h.handling, hdue⟩, rfl⟩
    | call i => cases hcalled
    | handlerOp op =>
      obtain ⟨hh, -⟩ := Option.ite_none_right_eq_some.mp hs
      exact absurd (h.handling.symm.trans hh) Bool.false_ne_true
    | handlerRet =>
      obtain ⟨i, k, -, hh, -⟩ := handlerRet_eq_some hs
      exact absurd (h.handling.symm.trans hh) Bool.false_ne_true
    | irqRet =>
      obtain ⟨-, rfl⟩ := irqRet_eq_some hs
      exact ⟨⟨h.disabled, h.handling, hdue⟩, rfl⟩

/-- An operation in the middle: a new handler is written while nothing can call it. -/
structure Middle (op : Op Handler Context) (done ws : List (Write Handler Context))
    (s : State Handler Context) : Prop where
  writes_eq : op.writes = done ++ ws
  silent : (∃ h c, op = .init h c) → Silent s

theorem Middle.early (h : Middle op done ws s) (hws : ws ≠ []) : ∀ w ∈ done, w ∈ op.early := by
  obtain ⟨ws, x, rfl⟩ := List.eq_nil_or_concat ws |>.resolve_left hws
  have he := h.writes_eq
  rw [Op.writes, List.concat_eq_append, ← List.append_assoc] at he
  intro w hw
  rw [(List.append_inj' he rfl).1]
  exact List.mem_append_left ws hw

theorem exec_irq : (Write.exec D s w).irq = s.irq := by
  cases w <;> rfl

theorem exec_handling : (Write.exec D s w).handling = s.handling := by
  cases w <;> rfl

theorem foldl_irq : (done.foldl (Write.exec D) s).irq = s.irq := by
  induction done generalizing s with
  | nil => rfl
  | cons w done ih => exact ih.trans exec_irq

theorem exec_cb (hw : w.Plain) (h : ∀ h, w ≠ .handler h) : (Write.exec D s w).cb = s.cb := by
  cases hw with
  | handler x => exact absurd rfl (h x)
  | send | receive => rfl

theorem foldl_cb (hw : ∀ w ∈ done, w.Plain ∧ ∀ h, w ≠ .handler h) :
    (done.foldl (Write.exec D) s).cb = s.cb := by
  induction done generalizing s with
  | nil => rfl
  | cons w done ih =>
    obtain ⟨hw, hdone⟩ := List.forall_mem_cons.mp hw
    exact (ih hdone).trans (exec_cb hw.1 hw.2)

theorem step_foldl (hw : ∀ w ∈ done, w.Plain) (ha : a.isEnv = true)
    (hop : ∀ op, a = .handlerOp op → op.IsSwitch) :
    step D (done.foldl (Write.exec D) s) a =
      (step D s a).map fun s => done.foldl (Write.exec D) s := by
  induction done generalizing s with
  | nil => exact (Option.map_id' ..).symm
  | cons w done ih =>
    obtain ⟨hw, hdone⟩ := List.forall_mem_cons.mp hw
    rw [List.foldl_cons, ih hdone, step_exec hw ha hop, Option.map_map]
    rfl

theorem isSwitch_of_gentle {o : Op Handler Context} {x : State Handler Context}
    (h : Gentle ⟨x, some (o, ws)⟩ (.env a)) : ∀ op, a = .handlerOp op → op.IsSwitch := by
  rintro op rfl
  cases op with
  | enable | disable => trivial
  | init | configLoad | uninit => cases h

def Gently (x : Preempted Handler Context) (a : PreemptAction Handler Context) : Prop :=
  Gentle x a ∧ ∃ ds, Due x.base ds

theorem seen_foldl (h : Middle op done ws s) (hws : ws ≠ []) (ha : a.isEnv = true)
    (hs : step D s a = some u) : Action.seen (done.foldl (Write.exec D) s) a = Action.seen s a := by
  cases a with
  | call i =>
    have hdone : ∀ w ∈ done, w.Plain ∧ ∀ h, w ≠ .handler h := by
      intro w hw
      obtain ⟨hplain, hinit | hne⟩ := plain_of_early (h.early hws w hw)
      · -- nothing calls the handler while it is being replaced
        cases ((h.silent hinit).of_step ha hs).2
      · exact ⟨hplain, hne⟩
    rw [Action.seen, Action.seen, foldl_cb hdone]
  | _ => rfl

theorem unnoticed (D : Driver) :
    Atomic.Unnoticed (@driverWrites Handler Context D) Middle Gently where
  nonempty op := List.append_ne_nil_of_right_ne_nil _ (List.cons_ne_nil _ _)
  start s op hg hfree := by
    refine ⟨rfl, ?_⟩
    rintro ⟨h, c, rfl⟩
    obtain ⟨hoff, ds, hdue⟩ := hg
    have hirq : s.irq = none := Option.isNone_iff_eq_none.mp hfree
    cases hdue with
    | idle h1 h2 => exact ⟨hoff, h2, .idle h1 h2⟩
    | start h1 | loop _ h1 | next _ _ h1 | handling _ _ h1 =>
      rw [hirq] at h1
      cases h1
  write s op done w ws h hws := ⟨by rw [h.writes_eq, List.append_assoc]; rfl, h.silent⟩
  free s op done ws h := congrArg Option.isNone foldl_irq
  env s t op done ws a h hws ha hg hs := by
    have hplain : ∀ w ∈ done, w.Plain := fun w hw => (plain_of_early (h.early hws w hw)).1
    have hcomm := step_foldl (D := D) (s := s) hplain ha (isSwitch_of_gentle hg.1)
    obtain ⟨u, hu, rfl⟩ := Option.map_eq_some_iff.mp (hcomm.symm.trans hs)
    refine ⟨u, hu, rfl, seen_foldl h hws ha hu, h.writes_eq, fun hinit => ?_⟩
    exact ((h.silent hinit).of_step ha hu).1

theorem due_preempted {x y : Preempted Handler Context} {a : PreemptAction Handler Context}
    (h : ∃ ds, Due x.base ds) (hs : Atomic.step (driverWrites D) x a = some y) :
    ∃ ds, Due y.base ds := by
  obtain ⟨ds, h⟩ := h
  cases a with
  | start op =>
    obtain ⟨-, hs⟩ := Option.ite_none_right_eq_some.mp hs
    cases hs
    exact ⟨ds, h⟩
  | write =>
    obtain ⟨w, hw⟩ := Atomic.write_eq_some hs
    exact ⟨ds, hw ▸ h.congr exec_irq exec_handling⟩
  | env a =>
    obtain ⟨-, hs⟩ := Option.ite_none_right_eq_some.mp hs
    obtain ⟨t, ht, rfl⟩ := Option.map_eq_some_iff.mp hs
    replace ht : step D x.base a = some t := ht
    by_cases ha : a = .intpend
    · subst ha
      exact ⟨_, (due_intpend h ht).2.2⟩
    · obtain ⟨es, hes, -⟩ := due_step h ha ht
      exact ⟨es, hes⟩

variable {as : List (PreemptAction Handler Context)} {y : Preempted Handler Context}

/-- In every run in which the handler is replaced only while no channel is enabled, and in which
it does no more in the middle of an operation than switch channels, the driver that can be
interrupted between any two writes shows what the driver with operations at once shows: the
same steps of the interrupt, the same calls of the handler with the same arguments, and the
operations in the same order, each at its last write. -/
theorem preempted_refines (D : Driver) (h0 : s.Quiet)
    (hg : Schedule.Steps (Atomic.step (driverWrites D)) Gentle ⟨s, none⟩ as)
    (h : Schedule.run (Atomic.step (driverWrites D)) ⟨s, none⟩ as = some y) :
    ∃ bs t, Schedule.run (step D) s bs = some t ∧
      Schedule.project (step D) Action.seen s bs =
        Schedule.project (Atomic.step (driverWrites D)) (Atomic.out (driverWrites D)) ⟨s, none⟩ as ∧
      (y.task = none → y.base = t) := by
  have hdue : ∃ ds, Due s ds := ⟨[], .idle h0.1 h0.2⟩
  have hgently := hg.with_invariant (I := fun x => ∃ ds, Due x.base ds) hdue
    fun x a y hx _ hs => due_preempted hx hs
  have hbehind : Atomic.Behind (driverWrites D) Middle s ⟨s, none⟩ := .inl ⟨rfl, rfl⟩
  obtain ⟨bs, t, hbs, ht, hseen⟩ := Atomic.refines_run (unnoticed D) hbehind hgently h
  refine ⟨bs, t, hbs, hseen, fun hy => ?_⟩
  rcases ht with ⟨-, hbase⟩ | ⟨o, done, ws, htask, -⟩
  · exact hbase
  · rw [hy] at htask
    cases htask

/-- The peripheral at reset, with handlers and contexts that can be told apart. -/
def resetState : State ℕ ℕ where
  cb := ⟨0, 0⟩
  regs := ⟨0, 0, fun _ => 0, fun _ => 0⟩

/-- A handler is registered and a channel enabled; the interrupt comes while the driver is
being configured. -/
def interrupted (j : Channel) : List (PreemptAction ℕ ℕ) :=
  [.start (.init 1 1), .write, .env (.raise j), .env .irq, .env .intpend, .env .irqRet, .write,
    .start (.enable 2), .write, .start .uninit, .write, .write, .env .irq, .env .intpend,
    .env (.clear j), .env (.call j), .env (.handlerOp (.disable 2)), .env .handlerRet,
    .env .irqRet]

theorem preempted_refines_sample : ∃ y, Schedule.run (Atomic.step (driverWrites sampleDriver))
    ⟨resetState, none⟩ (interrupted 2) = some y ∧ ∃ bs t,
      Schedule.run (step sampleDriver) resetState bs = some t ∧
        Schedule.project (step sampleDriver) Action.seen resetState bs =
          Schedule.project (Atomic.step (driverWrites sampleDriver))
            (Atomic.out (driverWrites sampleDriver)) ⟨resetState, none⟩ (interrupted 2) := by
  obtain ⟨y, hy⟩ : ∃ y, Schedule.run (Atomic.step (driverWrites sampleDriver))
      ⟨resetState, none⟩ (interrupted 2) = some y := ⟨_, rfl⟩
  have hg : Schedule.Steps (Atomic.step (driverWrites sampleDriver)) Gentle ⟨resetState, none⟩
      (interrupted 2) := by decide
  obtain ⟨bs, t, hbs, hseen, -⟩ := preempted_refines sampleDriver ⟨rfl, rfl⟩ hg hy
  exact ⟨y, hy, bs, t, hbs, hseen⟩

/-- Where a channel is enabled, the new handler can be called with the old context. -/
example : Schedule.project (Atomic.step (driverWrites sampleDriver))
    (Atomic.out (driverWrites sampleDriver)) ⟨resetState, none⟩
    [.start (.enable 2), .write, .env (.raise 2), .start (.init 1 1), .write, .env .irq,
      .env .intpend, .env (.clear 2), .env (.call 2)] =
    [.op (.enable 2), .env (.raise 2), .env .irq, .env .intpend, .env (.clear 2),
      .call 2 ⟨1, 0⟩] := rfl

end Nrf9160.Ipc
