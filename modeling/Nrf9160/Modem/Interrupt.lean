import Mathlib.Data.Prod.Lex
import Nrf9160.Ipc.Delivery
import Nrf9160.Modem.Return

/-! The sleeping threads and the IPC interrupt as one system: an event that the hardware
raises comes through `nrfx_ipc_irq_handler` to the handler of the modem library, and through
its notify to the thread that waits for it. -/

namespace Nrf9160.Interrupt

open Modem

/-- `notifies` is the modem library: the contexts that a handler it registers gives to
`nrf_modem_os_event_notify` when it is called for a channel. -/
structure Board (Ptr Handler Context : Type) extends ClockEnv Ptr where
  driver : Ipc.Driver
  notifies : Handler → Context → Ipc.Channel → List UInt32

/-- `todo` are the notifies that the call of the handler in progress has still to make. -/
structure State (Ptr Handler Context : Type) where
  modem : Timed Ptr
  ipc : Ipc.State Handler Context
  todo : List UInt32 := []

/-- `thread` is a step of a thread, `tick` the clock and `notify` the next notify of the
handler, with a bound on the rounds of its loop. -/
inductive Action (Ptr Handler Context : Type) where
  | thread (a : TimedAction Ptr)
  | tick
  | ipc (a : Ipc.Action Handler Context)
  | notify (context : UInt32) (fuel : ℕ)

variable {Ptr Handler Context : Type}

def isNotify : TimedAction Ptr → Bool
  | .run (.notify _ _) => true
  | _ => false

/-- The interrupt is taken for a pending event, and the handler returns when it is done. -/
def State.admits (s : State Ptr Handler Context) : Ipc.Action Handler Context → Prop
  | .irq => s.ipc.regs.intpend ≠ 0
  | .handlerRet => s.todo = []
  | _ => True

instance (s : State Ptr Handler Context) (a : Ipc.Action Handler Context) :
    Decidable (s.admits a) := by
  cases a <;> unfold State.admits <;> infer_instance

def Board.todo (B : Board Ptr Handler Context) (s : State Ptr Handler Context) :
    Ipc.Action Handler Context → List UInt32
  | .call i => B.notifies s.ipc.cb.handler s.ipc.cb.pContext i
  | _ => s.todo

/-- A step of the interrupt in progress or the start of one. -/
def serves : Action Ptr Handler Context → Prop
  | .ipc (.raise _) => False
  | .ipc (.thread _) => False
  | .ipc (.handlerOp _) => False
  | .ipc _ => True
  | .notify _ _ => True
  | _ => False

variable {B : Board Ptr Handler Context} {s t : State Ptr Handler Context}
  {a : Action Ptr Handler Context} {as : List (Action Ptr Handler Context)}
  {e : Ipc.Action Handler Context} {d : TimedAction Ptr}
  {i j : Ipc.Channel} {p : Ptr} {c : Call} {context : UInt32} {fuel n r : ℕ}
  {ds : List Ipc.Channel}

/-! How far the interrupt is from the call of the handler for `j`: the round of service it is
in, and the steps left in that round. -/

inductive Left (j : Ipc.Channel) (s : Ipc.State Handler Context) : ℕ → ℕ → Prop
  | idle : s.irq = none → s.handling = false → Left j s 1 1
  | start : s.irq = some Ipc.nrfxIpcIrqHandler → s.handling = false → Left j s 1 0
  | loop (ds : List Ipc.Channel) : s.irq = some (Ipc.serve ds) → s.handling = false →
      Left j s (if j ∈ ds then 0 else 2) (3 * ds.length + 1)
  | next (i : Ipc.Channel) (ds : List Ipc.Channel) :
      s.irq = some (.call (.handler i) fun _ => Ipc.serve ds) → s.handling = false →
      Left j s (if j ∈ i :: ds then 0 else 2) (3 * ds.length + 3)
  | handling (i : Ipc.Channel) (ds : List Ipc.Channel) :
      s.irq = some (.call (.handler i) fun _ => Ipc.serve ds) → s.handling = true →
      Left j s (if j ∈ ds then 0 else 2) (3 * ds.length + 2)

section

variable {u v : Ipc.State Handler Context} {D : Ipc.Driver} {ph : ℕ}

theorem Left.congr (h : Left j u ph n) (hi : v.irq = u.irq) (hh : v.handling = u.handling) :
    Left j v ph n := by
  cases h with
  | idle h1 h2 => exact .idle (hi.trans h1) (hh.trans h2)
  | start h1 h2 => exact .start (hi.trans h1) (hh.trans h2)
  | loop ds h1 h2 => exact .loop ds (hi.trans h1) (hh.trans h2)
  | next i ds h1 h2 => exact .next i ds (hi.trans h1) (hh.trans h2)
  | handling i ds h1 h2 => exact .handling i ds (hi.trans h1) (hh.trans h2)

theorem Left.due (h : Left j u ph n) : ∃ ds, Ipc.Due u ds := by
  cases h with
  | idle h1 h2 => exact ⟨[], .idle h1 h2⟩
  | start h1 h2 => exact ⟨[], .start h1 h2⟩
  | loop ds h1 h2 => exact ⟨ds, .loop ds h1 h2⟩
  | next i ds h1 h2 => exact ⟨i :: ds, .next i ds h1 h2⟩
  | handling i ds h1 h2 => exact ⟨ds, .handling i ds h1 h2⟩

theorem Left.of_readIntpend {k : BitVec 32 → Ipc.IrqProg Unit} (h : Left j u ph n)
    (hk : u.irq = some (.call .readIntpend k)) :
    ph = 1 ∧ n = 0 ∧ u.handling = false ∧
      k = fun pending => Ipc.serve (Ipc.pendingChannels pending) := by
  cases h with
  | start h1 h2 =>
    rw [h1, Ipc.nrfxIpcIrqHandler_eq] at hk
    cases hk
    exact ⟨rfl, rfl, h2, rfl⟩
  | loop ds h1 =>
    rw [h1] at hk
    cases ds <;> cases hk
  | idle h1 | next _ _ h1 | handling _ _ h1 =>
    rw [h1] at hk
    cases hk

theorem Left.of_clearEvent {k : Unit → Ipc.IrqProg Unit} (h : Left j u ph n)
    (hk : u.irq = some (.call (.clearEvent i) k)) :
    ∃ ds, ph = (if j ∈ i :: ds then 0 else 2) ∧ n = 3 * (i :: ds).length + 1 ∧
      u.handling = false ∧ k = fun _ => .call (.handler i) fun _ => Ipc.serve ds := by
  cases h with
  | loop ds h1 h2 =>
    rw [h1] at hk
    cases ds with
    | nil => cases hk
    | cons d ds =>
      cases hk
      exact ⟨ds, rfl, rfl, h2, rfl⟩
  | idle h1 | start h1 | next _ _ h1 | handling _ _ h1 =>
    rw [h1] at hk
    cases hk

theorem Left.of_handler {k : Unit → Ipc.IrqProg Unit} (h : Left j u ph n)
    (hk : u.irq = some (.call (.handler i) k)) :
    ∃ ds, k = (fun _ => Ipc.serve ds) ∧
      (u.handling = false ∧ ph = (if j ∈ i :: ds then 0 else 2) ∧ n = 3 * ds.length + 3 ∨
        u.handling = true ∧ ph = (if j ∈ ds then 0 else 2) ∧ n = 3 * ds.length + 2) := by
  cases h with
  | next d ds h1 h2 =>
    rw [h1] at hk
    cases hk
    exact ⟨ds, rfl, .inl ⟨h2, rfl, rfl⟩⟩
  | handling d ds h1 h2 =>
    rw [h1] at hk
    cases hk
    exact ⟨ds, rfl, .inr ⟨h2, rfl, rfl⟩⟩
  | loop ds h1 =>
    rw [h1] at hk
    cases ds <;> cases hk
  | idle h1 | start h1 =>
    rw [h1] at hk
    cases hk

theorem Left.of_ret (h : Left j u ph n) (hk : u.irq = some (.ret ())) :
    ph = 2 ∧ u.handling = false := by
  cases h with
  | loop ds h1 h2 =>
    rw [h1] at hk
    cases ds with
    | nil => exact ⟨if_neg List.not_mem_nil, h2⟩
    | cons d ds => cases hk
  | idle h1 | start h1 | next _ _ h1 | handling _ _ h1 =>
    rw [h1] at hk
    cases hk

end

/-- What every state that is reached satisfies. -/
structure Sound (B : Board Ptr Handler Context) (s : State Ptr Handler Context) : Prop where
  due : ∃ ds, Ipc.Due s.ipc ds
  todo : s.ipc.handling = false → s.todo = []
  queue : ∃ xs, Queue B.toEnv s.modem.state xs
  settled : s.modem.Settled

theorem handling_of_ipcStep {D : Ipc.Driver} {u v : Ipc.State Handler Context}
    (hs : Ipc.step D u e = some v) (hc : ∀ i, e ≠ .call i) (hr : e ≠ .handlerRet) :
    v.handling = u.handling := by
  cases e with
  | raise i =>
    cases hs
    rfl
  | thread op =>
    obtain ⟨_, hs⟩ := Option.ite_none_right_eq_some.mp hs
    cases hs
    exact Ipc.op_handling
  | irq =>
    obtain ⟨_, hs⟩ := Option.ite_none_right_eq_some.mp hs
    cases hs
    rfl
  | intpend =>
    obtain ⟨k, -, rfl⟩ := Ipc.intpend_eq_some hs
    rfl
  | clear i =>
    obtain ⟨k, -, rfl⟩ := Ipc.clear_eq_some hs
    rfl
  | call i => exact absurd rfl (hc i)
  | handlerOp op =>
    obtain ⟨_, hs⟩ := Option.ite_none_right_eq_some.mp hs
    cases hs
    exact Ipc.op_handling
  | handlerRet => exact absurd rfl hr
  | irqRet =>
    obtain ⟨-, rfl⟩ := Ipc.irqRet_eq_some hs
    rfl

variable [DecidableEq Ptr]

def step (B : Board Ptr Handler Context) (s : State Ptr Handler Context) :
    Action Ptr Handler Context → Option (State Ptr Handler Context)
  | .thread a =>
    -- there is one core, and an interrupt keeps every thread off it
    if s.ipc.irq.isNone ∧ isNotify a = false then
      (timedStep B.toClockEnv s.modem a).map fun x => { s with modem := x }
    else none
  | .tick => (timedStep B.toClockEnv s.modem .tick).map fun x => { s with modem := x }
  | .ipc a =>
    if s.admits a then
      (Ipc.step B.driver s.ipc a).map fun t => { s with ipc := t, todo := B.todo s a }
    else none
  | .notify context fuel =>
    if s.ipc.handling ∧ s.todo.head? = some context then
      (timedStep B.toClockEnv s.modem (.run (.notify context fuel))).map fun x =>
        { s with modem := x, todo := s.todo.tail }
    else none

theorem thread_eq_some (hs : step B s (.thread d) = some t) :
    s.ipc.irq = none ∧ isNotify d = false ∧
      timedStep B.toClockEnv s.modem d = some t.modem ∧ t.ipc = s.ipc ∧ t.todo = s.todo := by
  obtain ⟨⟨hi, hd⟩, hs⟩ := Option.ite_none_right_eq_some.mp hs
  obtain ⟨x, hx, rfl⟩ := Option.map_eq_some_iff.mp hs
  exact ⟨Option.isNone_iff_eq_none.mp hi, hd, hx, rfl, rfl⟩

theorem ipc_eq_some (hs : step B s (.ipc e) = some t) :
    s.admits e ∧ Ipc.step B.driver s.ipc e = some t.ipc ∧ t.modem = s.modem ∧
      t.todo = B.todo s e := by
  obtain ⟨ha, hs⟩ := Option.ite_none_right_eq_some.mp hs
  obtain ⟨x, hx, rfl⟩ := Option.map_eq_some_iff.mp hs
  exact ⟨ha, hx, rfl, rfl⟩

theorem notify_eq_some (hs : step B s (.notify context fuel) = some t) :
    s.ipc.handling = true ∧ s.todo.head? = some context ∧
      timedStep B.toClockEnv s.modem (.run (.notify context fuel)) = some t.modem ∧
      t.ipc = s.ipc ∧ t.todo = s.todo.tail := by
  obtain ⟨⟨hh, hd⟩, hs⟩ := Option.ite_none_right_eq_some.mp hs
  obtain ⟨x, hx, rfl⟩ := Option.map_eq_some_iff.mp hs
  exact ⟨hh, hd, hx, rfl, rfl⟩

theorem Sound.step (h : Sound B s) (hi : a ≠ .thread (.run .init))
    (hs : Interrupt.step B s a = some t) : Sound B t := by
  obtain ⟨hdue, htodo, hq, hset⟩ := h
  cases a with
  | thread d =>
    obtain ⟨-, -, hd, hipc, htodo'⟩ := thread_eq_some hs
    refine ⟨hipc ▸ hdue, ?_, queue_timedStep hq (fun he => hi (congrArg _ he)) hd,
      settled_step hset hd⟩
    rwa [hipc, htodo']
  | tick =>
    cases hs
    exact ⟨hdue, htodo, hq, hset⟩
  | notify context fuel =>
    obtain ⟨hh, -, hd, hipc, -⟩ := notify_eq_some hs
    refine ⟨hipc ▸ hdue, fun hn => ?_, queue_timedStep hq (fun he => by cases he) hd,
      settled_step hset hd⟩
    rw [hipc, hh] at hn
    cases hn
  | ipc e =>
    obtain ⟨hadm, he, hmodem, htodo'⟩ := ipc_eq_some hs
    refine ⟨Ipc.exists_due_step hdue he, ?_, hmodem ▸ hq, hmodem ▸ hset⟩
    by_cases hc : ∃ i, e = .call i
    · obtain ⟨i, rfl⟩ := hc
      obtain ⟨k, -, -, hv⟩ := Ipc.call_eq_some he
      intro hn
      rw [hv] at hn
      cases hn
    · have htd : t.todo = s.todo := by
        rw [htodo']
        cases e with
        | call i => exact absurd ⟨i, rfl⟩ hc
        | _ => rfl
      rw [htd]
      by_cases hr : e = .handlerRet
      · subst hr
        exact fun _ => hadm
      · rw [handling_of_ipcStep he (fun i hei => hc ⟨i, hei⟩) hr]
        exact htodo

section

variable {b : Schedule.Behaviour (step B : State Ptr Handler Context → _ → _)} {m : ℕ}

end

end Nrf9160.Interrupt
