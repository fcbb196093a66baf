import Mathlib.Data.List.FinRange
import Nrf9160.Lib.Prog
import Nrf9160.Lib.Run

/-! `nrfx_ipc.c` on the IPC peripheral: the operations of the driver, the text of its
interrupt handler, and the system in which the hardware raises events at any moment. -/

namespace Nrf9160.Ipc

@[reducible] def IPC_CONF_NUM : ℕ := 8

abbrev Channel := Fin IPC_CONF_NUM

structure ControlBlock (Handler Context : Type) where
  handler : Handler
  pContext : Context

structure Config where
  sendTaskConfig : Channel → BitVec 32
  receiveEventConfig : Channel → BitVec 32
  receiveEventsEnabled : BitVec 32

/-- `EVENTS_RECEIVE` keeps bit `j` for channel `j`; `inten` are the enabled interrupts. -/
structure Registers where
  events : BitVec 32
  inten : BitVec 32
  send : Channel → BitVec 32
  receive : Channel → BitVec 32

structure Driver where
  nrfIpcInten : BitVec 32 → UInt8 → Bool → BitVec 32
  nrfIpcIntenChanmask : BitVec 32 → BitVec 32 → Bool → BitVec 32
  inten_bit : ∀ m i b (j : Channel), (nrfIpcInten m i b).getLsbD j =
    if i.toNat = j then b else m.getLsbD j
  chanmask_bit : ∀ m c b (j : Channel), (nrfIpcIntenChanmask m c b).getLsbD j =
    if c.getLsbD j then b else m.getLsbD j

/-- The calls that `nrfx_ipc_irq_handler` makes to the hardware and to its user. -/
inductive IrqCall where
  | readIntpend
  | clearEvent (i : Channel)
  | handler (eventMask : Channel)

@[reducible] def IrqCall.Answer : IrqCall → Type
  | .readIntpend => BitVec 32
  | _ => Unit

abbrev IrqProg := Prog IrqCall IrqCall.Answer

def readIntpend : IrqProg (BitVec 32) := .call .readIntpend .ret

def clearEvent (i : Channel) : IrqProg Unit := .call (.clearEvent i) .ret

/-- `m_ipc_cb.handler(i, m_ipc_cb.p_context)`: the argument is the channel number. -/
def callHandler (i : Channel) : IrqProg Unit := .call (.handler i) .ret

def irqLoop (pending : BitVec 32) : List Channel → IrqProg Unit
  | [] => return ()
  | i :: is => do
    if pending &&& 1#32 <<< i.val ≠ 0 then
      clearEvent i
      callHandler i
    irqLoop pending is

def nrfxIpcIrqHandler : IrqProg Unit := do
  let pending ← readIntpend
  irqLoop pending (List.finRange IPC_CONF_NUM)

inductive Op (Handler Context : Type) where
  | init (handler : Handler) (pContext : Context)
  | configLoad (config : Config)
  | enable (eventIndex : UInt8)
  | disable (eventIndex : UInt8)
  | uninit

/-- `irq` is what the interrupt in progress has left to run, and `handling` says that it is
in a call of the registered handler. -/
structure State (Handler Context : Type) where
  cb : ControlBlock Handler Context
  regs : Registers
  irq : Option (IrqProg Unit) := none
  handling : Bool := false

/-- `thread` is an operation between interrupts and `handlerOp` one that the handler calls.
`irq`, `intpend`, `clear`, `call`, `handlerRet` and `irqRet` are the interrupt. -/
inductive Action (Handler Context : Type) where
  | raise (j : Channel)
  | thread (op : Op Handler Context)
  | irq
  | intpend
  | clear (i : Channel)
  | call (i : Channel)
  | handlerOp (op : Op Handler Context)
  | handlerRet
  | irqRet

variable {Handler Context : Type}

def nrfxIpcInit (handler : Handler) (pContext : Context) (s : State Handler Context) :
    State Handler Context :=
  { s with cb := ⟨handler, pContext⟩ }

def nrfxIpcConfigLoad (D : Driver) (config : Config) (r : Registers) : Registers :=
  { r with
    send := config.sendTaskConfig
    receive := config.receiveEventConfig
    inten := D.nrfIpcIntenChanmask r.inten config.receiveEventsEnabled true }

def nrfxIpcReceiveEventDisable (D : Driver) (eventIndex : UInt8) (r : Registers) : Registers :=
  { r with inten := D.nrfIpcInten r.inten eventIndex false }

def nrfxIpcReceiveEventEnable (D : Driver) (eventIndex : UInt8) (r : Registers) : Registers :=
  { r with inten := D.nrfIpcInten r.inten eventIndex true }

def nrfxIpcUninit (D : Driver) (r : Registers) : Registers :=
  { r with
    send := fun _ => 0
    receive := fun _ => 0
    inten := D.nrfIpcIntenChanmask r.inten 0xffffffff#32 false }

def Op.run (D : Driver) (s : State Handler Context) : Op Handler Context → State Handler Context
  | .init handler pContext => nrfxIpcInit handler pContext s
  | .configLoad config => { s with regs := nrfxIpcConfigLoad D config s.regs }
  | .enable i => { s with regs := nrfxIpcReceiveEventEnable D i s.regs }
  | .disable i => { s with regs := nrfxIpcReceiveEventDisable D i s.regs }
  | .uninit => { s with regs := nrfxIpcUninit D s.regs }

def Registers.intpend (r : Registers) : BitVec 32 := r.events &&& r.inten

def Registers.raise (r : Registers) (j : Channel) : Registers :=
  { r with events := r.events ||| BitVec.twoPow 32 j }

def Registers.clear (r : Registers) (i : Channel) : Registers :=
  { r with events := r.events &&& ~~~BitVec.twoPow 32 i }

def step (D : Driver) (s : State Handler Context) :
    Action Handler Context → Option (State Handler Context)
  | .raise j => some { s with regs := s.regs.raise j }
  | .thread op => if s.irq.isNone then some (op.run D s) else none
  | .irq => if s.irq.isNone then some { s with irq := some nrfxIpcIrqHandler } else none
  | .intpend => match s.irq with
    | some (.call .readIntpend k) => some { s with irq := some (k s.regs.intpend) }
    | _ => none
  | .clear i => match s.irq with
    | some (.call (.clearEvent i') k) =>
      if i' = i then some { s with regs := s.regs.clear i', irq := some (k ()) } else none
    | _ => none
  | .call i => match s.irq with
    | some (.call (.handler i') _) =>
      if i' = i ∧ s.handling = false then some { s with handling := true } else none
    | _ => none
  | .handlerOp op => if s.handling then some (op.run D s) else none
  | .handlerRet => match s.irq with
    | some (.call (.handler _) k) =>
      if s.handling then some { s with irq := some (k ()), handling := false } else none
    | _ => none
  | .irqRet => match s.irq with
    | some (.ret ()) => some { s with irq := none }
    | _ => none

def State.flag (s : State Handler Context) (j : Channel) : Bool := s.regs.events.getLsbD j

def State.enabled (s : State Handler Context) (j : Channel) : Bool := s.regs.inten.getLsbD j

theorem bit_lt (j : Channel) : j.val < 32 := Nat.lt_trans j.isLt (by decide)

theorem twoPow_bit (i : ℕ) (j : Channel) :
    (BitVec.twoPow 32 i).getLsbD j = decide (i = j.val) := by
  have hj := bit_lt j
  rw [BitVec.getLsbD_twoPow]
  by_cases h : i = j.val
  · simp only [h, hj, decide_true, Bool.and_self]
  · simp only [h, decide_false, Bool.and_false]

theorem not_bit (c : BitVec 32) (j : Channel) : (~~~c).getLsbD j = !c.getLsbD j := by
  rw [BitVec.getLsbD_not, decide_eq_true (bit_lt j), Bool.true_and]

/-! A driver that sets and clears the bits it is given, and a peripheral at reset. -/

def sampleDriver : Driver where
  nrfIpcInten m i b :=
    if b then m ||| BitVec.twoPow 32 i.toNat else m &&& ~~~BitVec.twoPow 32 i.toNat
  nrfIpcIntenChanmask m c b := if b then m ||| c else m &&& ~~~c
  inten_bit m i b j := by
    cases b
    · simp only [Bool.false_eq_true, if_false, BitVec.getLsbD_and, not_bit, twoPow_bit]
      split_ifs with h <;> simp [h]
    · simp only [if_true, BitVec.getLsbD_or, twoPow_bit]
      split_ifs with h <;> simp [h]
  chanmask_bit m c b j := by
    cases b
    · simp only [Bool.false_eq_true, if_false, BitVec.getLsbD_and, not_bit]
      split_ifs with h <;>
        simp only [h, Bool.not_true, Bool.and_false, Bool.not_false, Bool.and_true]
    · simp only [if_true, BitVec.getLsbD_or]
      split_ifs with h <;> simp only [h, Bool.or_true, Bool.or_false]

def sampleState : State Unit Unit where
  cb := ⟨(), ()⟩
  regs := ⟨0, 0, fun _ => 0, fun _ => 0⟩

end Nrf9160.Ipc
