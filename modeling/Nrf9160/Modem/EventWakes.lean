import Nrf9160.Modem.Interrupt

/-! An event wakes the thread that waits for it: how a call comes from its wait to its return
when the hardware raises the event that the modem library notifies it of. -/

namespace Nrf9160.Interrupt

open Modem

variable {Ptr Handler Context : Type}

/-- The call at `p` still stands at its wait, or it has the unit. -/
def State.Hopeful (B : Board Ptr Handler Context) (p : Ptr) (c : Call) (I : Bool → Prop)
    (s : State Ptr Handler Context) : Prop :=
  s.modem.state.call p = some c ∨ s.modem.Armed B.toClockEnv p I

variable {B : Board Ptr Handler Context} {s t : State Ptr Handler Context}
  {a : Action Ptr Handler Context} {d : TimedAction Ptr} {j : Ipc.Channel} {p : Ptr} {c : Call}
  {context : UInt32} {fuel n : ℕ} {I : Bool → Prop}

variable [DecidableEq Ptr]

/-- What a call returns that came with hope to its return. -/
theorem State.Hopeful.code {r : ℤ} (hpt : c.pt = .wait) (h : s.Hopeful B p c I)
    (hs : step B s (.thread (.run (.ret p r))) = some t) :
    ∃ i, I i ∧ r = postedCode B.toKernel i := by
  obtain ⟨-, -, hm, -⟩ := thread_eq_some hs
  obtain ⟨-, hb, -⟩ := run_eq_some hm
  obtain ⟨d, hd, hdpt, -⟩ := atPoint_eq_some.mp hb
  rcases h with hc | harm
  · obtain rfl : c = d := Option.some.inj (hc.symm.trans hd)
    cases hpt.symm.trans hdpt
  · exact harm.code hd hdpt

section

variable {b : Schedule.Behaviour (step B : State Ptr Handler Context → _ → _)} {m : ℕ}

/-- The state comes after one `nrf_modem_os_init` and any steps of the whole but a further one. -/
def State.Reached (B : Board Ptr Handler Context) (s : State Ptr Handler Context) : Prop :=
  ∃ (s₀ : State Ptr Handler Context) (pre : List (Action Ptr Handler Context)),
    s₀.modem.Reached B.toClockEnv ∧ s₀.ipc.Quiet ∧ s₀.todo = [] ∧
      (∀ a ∈ pre, a ≠ .thread (.run .init)) ∧ Schedule.run (step B) s₀ pre = some s

end

/-! A run in which the event of channel 3 wakes the call at 2, which has no deadline. When it
has returned, the channel is disabled and the list initialised again. -/

def sampleStart : State ℕ Unit Unit where
  modem := sampleReady
  ipc := Ipc.sampleState

def ticking (B : Board Ptr Handler Context) (s : State Ptr Handler Context) :
    Schedule.Behaviour (step B) where
  state n := { s with modem := { s.modem with now := s.modem.now + n } }
  action _ := .tick
  next _ := rfl

end Nrf9160.Interrupt
