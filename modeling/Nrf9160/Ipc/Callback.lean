import Mathlib.Logic.Function.Basic
import Nrf9160.Ipc.Delivery

/-! The two ways to the registered handler: `nrfx_ipc_irq_handler`, and the callback `cb` that
`nrfx_ipc_config_load` registers with the `nrf_ipc` driver. -/

namespace Nrf9160.Ipc

inductive CbCall where
  | handler (eventMask : BitVec 32)

abbrev CbProg := Prog CbCall fun _ => Unit

def cb (evId : ℕ) : CbProg Unit := .call (.handler (1#32 <<< evId)) .ret

/-- The callbacks that the `nrf_ipc` driver keeps. -/
abbrev Receivers := Channel → Option (ℕ → CbProg Unit)

def nrfIpcConfigureRecv (r : Receivers) (i : Channel) (f : Option (ℕ → CbProg Unit)) :
    Receivers := Function.update r i f

/-- The loop of `nrfx_ipc_config_load` over the receive channels, as far as the callbacks go. -/
def loadReceivers (r : Receivers) : Receivers :=
  (List.finRange IPC_CONF_NUM).foldl (fun r i => nrfIpcConfigureRecv r i (some cb)) r

variable {Handler Context S : Type}

structure HandlerCall (Handler Context : Type) where
  handler : Handler
  eventMask : BitVec 32
  pContext : Context

/-- The handler may do anything to the state, the control block included. `ack` is what the
`nrf_ipc` driver does for a pending channel before it calls back. -/
structure Machine (Handler Context S : Type) where
  cb : S → ControlBlock Handler Context
  handle : HandlerCall Handler Context → S → S
  clear : Channel → S → S
  ack : Channel → S → S

def Machine.handlerCall (M : Machine Handler Context S) (eventMask : BitVec 32) (s : S) :
    HandlerCall Handler Context :=
  ⟨(M.cb s).handler, eventMask, (M.cb s).pContext⟩

/-- The calls that what is left of `nrfx_ipc_irq_handler` makes, and the state after it. The
argument of the handler is a channel number. -/
def Machine.runIrq (M : Machine Handler Context S) (pending : BitVec 32) :
    IrqProg Unit → S → List (HandlerCall Handler Context) × S
  | .ret (), s => ([], s)
  | .call .readIntpend k, s => M.runIrq pending (k pending) s
  | .call (.clearEvent i) k, s => M.runIrq pending (k ()) (M.clear i s)
  | .call (.handler i) k, s =>
    let c := M.handlerCall (.ofNat 32 i) s
    let (cs, t) := M.runIrq pending (k ()) (M.handle c s)
    (c :: cs, t)

def Machine.runCb (M : Machine Handler Context S) :
    CbProg Unit → S → List (HandlerCall Handler Context) × S
  | .ret (), s => ([], s)
  | .call (.handler eventMask) k, s =>
    let c := M.handlerCall eventMask s
    let (cs, t) := M.runCb (k ()) (M.handle c s)
    (c :: cs, t)

/-- The driver calls back for the pending ones of the channels. -/
def Machine.callBack (M : Machine Handler Context S) (r : Receivers) (pending : BitVec 32) :
    List Channel → S → List (HandlerCall Handler Context) × S
  | [], s => ([], s)
  | i :: is, s =>
    if pending.getLsbD i then
      match r i with
      | some f =>
        let (cs, t) := M.runCb (f i) (M.ack i s)
        let (ds, u) := M.callBack r pending is t
        (cs ++ ds, u)
      | none => M.callBack r pending is (M.ack i s)
    else
      M.callBack r pending is s

/-- An interrupt, and what the threads do before it. -/
structure Interrupt (S : Type) where
  threads : S → S
  pending : BitVec 32

def calls (deliver : BitVec 32 → S → List (HandlerCall Handler Context) × S) :
    List (Interrupt S) → S → List (HandlerCall Handler Context)
  | [], _ => []
  | x :: xs, s =>
    let (cs, t) := deliver x.pending (x.threads s)
    cs ++ calls deliver xs t

def Machine.irqPath (M : Machine Handler Context S) (pending : BitVec 32) (s : S) :
    List (HandlerCall Handler Context) × S :=
  M.runIrq pending nrfxIpcIrqHandler s

def Machine.cbPath (M : Machine Handler Context S) (r : Receivers) (pending : BitVec 32) (s : S) :
    List (HandlerCall Handler Context) × S :=
  M.callBack (loadReceivers r) pending (List.finRange IPC_CONF_NUM) s

/-- The channels that the interrupts deliver, in the order of their calls. -/
def delivered (xs : List (Interrupt S)) : List Channel :=
  xs.flatMap fun x => pendingChannels x.pending

/-- The argument that the declaration of the handler asks for. -/
def eventMask (i : Channel) : BitVec 32 := BitVec.twoPow 32 i

structure PathsAlike (M : Machine Handler Context S) (r : Receivers) (xs : List (Interrupt S))
    (s : S) : Prop where
  same : calls M.irqPath xs s = calls (M.cbPath r) xs s
  irq_masks : (calls M.irqPath xs s).map (·.eventMask) = (delivered xs).map eventMask
  cb_masks : (calls (M.cbPath r) xs s).map (·.eventMask) = (delivered xs).map eventMask

variable {M : Machine Handler Context S} {r : Receivers} {pending : BitVec 32} {s : S}
  {xs : List (Interrupt S)} {i : Channel} {is : List Channel}

theorem foldl_update_apply (is : List Channel) (r : Receivers) (i : Channel) :
    is.foldl (fun r i => nrfIpcConfigureRecv r i (some cb)) r i =
      if i ∈ is then some cb else r i := by
  induction is generalizing r with
  | nil => rfl
  | cons j is ih =>
    rw [List.foldl_cons, ih, nrfIpcConfigureRecv, Function.update_apply]
    grind

theorem loadReceivers_apply (r : Receivers) (i : Channel) : loadReceivers r i = some cb := by
  rw [loadReceivers, foldl_update_apply, if_pos (List.mem_finRange i)]

theorem runIrq_serve (s : S) : (M.runIrq pending (serve is) s).1.map (·.eventMask) =
    is.map fun i : Channel => BitVec.ofNat 32 i := by
  induction is generalizing s with
  | nil => rfl
  | cons i is ih => exact congrArg (_ :: ·) (ih _)

/-- The path of the interrupt passes channel numbers. -/
theorem irqPath_masks (s : S) : (M.irqPath pending s).1.map (·.eventMask) =
    (pendingChannels pending).map fun i : Channel => BitVec.ofNat 32 i := by
  rw [Machine.irqPath, nrfxIpcIrqHandler_eq]
  exact runIrq_serve s

theorem callBack_masks (hr : ∀ i, r i = some cb) (s : S) :
    (M.callBack r pending is s).1.map (·.eventMask) =
      (is.filter fun i : Channel => pending.getLsbD i).map eventMask := by
  induction is generalizing s with
  | nil => rfl
  | cons i is ih =>
    by_cases hi : pending.getLsbD i = true
    · have hmask : 1#32 <<< i.val = eventMask i := (BitVec.twoPow_eq ..).symm
      rw [Machine.callBack, if_pos hi, hr i, List.filter_cons, if_pos hi, List.map_cons, ← hmask]
      exact congrArg (_ :: ·) (ih _)
    · rw [Machine.callBack, if_neg hi, List.filter_cons, if_neg hi]
      exact ih s

/-- The path of the callback passes event masks. -/
theorem cbPath_masks (s : S) : (M.cbPath r pending s).1.map (·.eventMask) =
    (pendingChannels pending).map eventMask :=
  callBack_masks (loadReceivers_apply r) s

theorem calls_masks {deliver : BitVec 32 → S → List (HandlerCall Handler Context) × S}
    {f : Channel → BitVec 32} (h : ∀ pending s, (deliver pending s).1.map (·.eventMask) =
      (pendingChannels pending).map f) (s : S) :
    (calls deliver xs s).map (·.eventMask) = (delivered xs).map f := by
  induction xs generalizing s with
  | nil => rfl
  | cons x xs ih =>
    have hcons : delivered (x :: xs) = pendingChannels x.pending ++ delivered xs :=
      List.flatMap_cons
    rw [calls, List.map_append, h, ih, hcons, List.map_append]

theorem number_ne_eventMask : ∀ i : Channel, BitVec.ofNat 32 i ≠ eventMask i := by decide

theorem delivered_eq_nil_iff :
    delivered xs = [] ↔ ∀ x ∈ xs, ∀ i : Channel, x.pending.getLsbD i = false := by
  simp only [delivered, List.flatMap_eq_nil_iff, pendingChannels, List.filter_eq_nil_iff,
    List.mem_finRange, forall_const, Bool.not_eq_true]

/-- The paths agree on just the runs in which neither calls the handler: one of them passes the
number of the channel and the other its mask, and no number is its own mask. -/
theorem pathsAlike_iff (M : Machine Handler Context S) (r : Receivers) (xs : List (Interrupt S))
    (s : S) : PathsAlike M r xs s ↔ ∀ x ∈ xs, ∀ i : Channel, x.pending.getLsbD i = false := by
  have hirq : (calls M.irqPath xs s).map (·.eventMask) = _ :=
    calls_masks (fun _ s => irqPath_masks s) s
  have hcb : (calls (M.cbPath r) xs s).map (·.eventMask) = _ :=
    calls_masks (fun _ s => cbPath_masks s) s
  rw [← delivered_eq_nil_iff]
  constructor
  · intro h
    rw [List.eq_nil_iff_forall_not_mem]
    intro i hi
    have hnum := List.map_inj_left.mp (hirq.symm.trans h.irq_masks) i hi
    exact number_ne_eventMask i hnum
  · intro hnil
    rw [hnil] at hirq hcb
    refine ⟨?_, ?_, ?_⟩
    · rw [List.map_eq_nil_iff.mp hirq, List.map_eq_nil_iff.mp hcb]
    · rw [hnil]
      exact hirq
    · rw [hnil]
      exact hcb

def sampleMachine : Machine Unit Unit Unit where
  cb := fun _ => ⟨(), ()⟩
  handle := fun _ => id
  clear := fun _ => id
  ack := fun _ => id

/-- For an event on channel 0 the path of the interrupt passes the empty mask. -/
theorem number_is_no_mask : ¬∀ (Handler Context S : Type) (M : Machine Handler Context S)
    (r : Receivers) (xs : List (Interrupt S)) (s : S), PathsAlike M r xs s := by
  intro hall
  have h := (hall Unit Unit Unit sampleMachine (fun _ => none) [⟨id, 1#32⟩] ()).irq_masks
  have hirq : (calls sampleMachine.irqPath [⟨id, 1#32⟩] ()).map (·.eventMask) = _ :=
    calls_masks (fun _ s => irqPath_masks s) ()
  have hmem : (0 : Channel) ∈ delivered [(⟨id, 1#32⟩ : Interrupt Unit)] := by decide
  exact number_ne_eventMask 0 (List.map_inj_left.mp (hirq.symm.trans h) 0 hmem)

end Nrf9160.Ipc
