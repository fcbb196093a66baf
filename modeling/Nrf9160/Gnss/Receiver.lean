import Nrf9160.Lib.Protocol
import Mathlib.Data.Int.Notation

/-! `gps_init`: how the receiver is set up, for any answers of the modem. -/

namespace Nrf9160.Gnss

inductive PowerMode where
  | NRF_MODEM_GNSS_PSM_DISABLED
  | NRF_MODEM_GNSS_PSM_DUTY_CYCLING_PERFORMANCE
  | NRF_MODEM_GNSS_PSM_DUTY_CYCLING_POWER

inductive NmeaMask where
  | NRF_MODEM_GNSS_NMEA_GGA_MASK

inductive Setting where
  | powerMode (mode : PowerMode)
  | fixRetry (fixRetry : ℤ)
  | fixInterval (fixInterval : ℤ)
  | nmeaMask (mask : NmeaMask)

inductive Call where
  | eventHandlerSet
  | set (setting : Setting)
  | start

abbrev GnssProg := Prog Call fun _ => ℤ

def nrfModemGnssEventHandlerSet : GnssProg ℤ := .call .eventHandlerSet .ret

def nrfModemGnssPowerModeSet (mode : PowerMode) : GnssProg ℤ := .call (.set (.powerMode mode)) .ret

def nrfModemGnssFixRetrySet (fixRetry : ℤ) : GnssProg ℤ := .call (.set (.fixRetry fixRetry)) .ret

def nrfModemGnssFixIntervalSet (fixInterval : ℤ) : GnssProg ℤ :=
  .call (.set (.fixInterval fixInterval)) .ret

def nrfModemGnssNmeaMaskSet (mask : NmeaMask) : GnssProg ℤ := .call (.set (.nmeaMask mask)) .ret

def nrfModemGnssStart : GnssProg ℤ := .call .start .ret

def gpsInit : GnssProg ℤ := do
  let _ ← nrfModemGnssEventHandlerSet
  -- continuous tracking
  let fixRetry := 0
  let fixInterval := 1
  let nmeaMask := .NRF_MODEM_GNSS_NMEA_GGA_MASK
  let powerMode := .NRF_MODEM_GNSS_PSM_DISABLED
  let error ← nrfModemGnssPowerModeSet powerMode
  if error ≠ 0 then
    return -1
  let error ← nrfModemGnssFixRetrySet fixRetry
  if error ≠ 0 then
    return -1
  let error ← nrfModemGnssFixIntervalSet fixInterval
  if error ≠ 0 then
    return -1
  let error ← nrfModemGnssNmeaMaskSet nmeaMask
  if error ≠ 0 then
    return -1
  let _ ← nrfModemGnssStart
  return 0

/-- What the receiver has been told: the settings are those that it took. -/
structure Receiver where
  handler : Bool := false
  powerMode : Option PowerMode := none
  fixRetry : Option ℤ := none
  fixInterval : Option ℤ := none
  nmeaMask : Option NmeaMask := none
  started : Bool := false

def Receiver.set (s : Receiver) : Setting → Receiver
  | .powerMode mode => { s with powerMode := some mode }
  | .fixRetry fixRetry => { s with fixRetry := some fixRetry }
  | .fixInterval fixInterval => { s with fixInterval := some fixInterval }
  | .nmeaMask mask => { s with nmeaMask := some mask }

/-- Tracking that goes on until it is stopped, with a fix every second. -/
structure Receiver.Continuous (s : Receiver) : Prop where
  handler : s.handler = true
  powerMode : s.powerMode = some .NRF_MODEM_GNSS_PSM_DISABLED
  fixRetry : s.fixRetry = some 0
  fixInterval : s.fixInterval = some 1
  nmeaMask : s.nmeaMask = some .NRF_MODEM_GNSS_NMEA_GGA_MASK

/-- The receiver is set up before it is started, and it is started once. -/
def Call.InOrder (s : Receiver) : Call → Prop
  | eventHandlerSet => s.started = false
  | set _ => s.handler = true ∧ s.started = false
  | start => s.Continuous ∧ s.started = false

def Receiver.next (s : Receiver) : Call → ℤ → Receiver
  | .eventHandlerSet, _ => { s with handler := true }
  | .set setting, error => if error ≠ 0 then s else s.set setting
  | .start, _ => { s with started := true }

def receiver : Protocol Call (fun _ => ℤ) Receiver where
  ok := Call.InOrder
  legal _ _ _ := True
  next := Receiver.next

section

variable {α : Type} {Q : α → Receiver → Prop} {s : Receiver} {setting : Setting} {p q : GnssProg α}

theorem obeys_set (h : s.handler = true ∧ s.started = false) (hp : p.Obeys receiver Q s)
    (hq : q.Obeys receiver Q (s.set setting)) :
    (Prog.call (.set setting) Prog.ret >>= fun error =>
      if error ≠ 0 then p else q : GnssProg α).Obeys receiver Q s := by
  refine ⟨h, fun error _ => Prog.obeys_ite (fun herror => ?_) fun herror => ?_⟩
  · have hnext : receiver.next s (.set setting) error = s := if_pos herror
    rw [hnext]
    exact hp
  · have hnext : receiver.next s (.set setting) error = s.set setting := if_neg herror
    rw [hnext]
    exact hq

end

/-- `gps_init` returns 0 just when it has started the receiver. -/
theorem gpsInit_obeys : gpsInit.Obeys receiver
    (fun ret t => if ret = 0 then t.started = true else t.started = false) {} := by
  refine ⟨rfl, fun _ _ => ?_⟩
  refine obeys_set ⟨rfl, rfl⟩ rfl ?_
  refine obeys_set ⟨rfl, rfl⟩ rfl ?_
  refine obeys_set ⟨rfl, rfl⟩ rfl ?_
  refine obeys_set ⟨rfl, rfl⟩ rfl ?_
  exact ⟨⟨⟨rfl, rfl, rfl, rfl, rfl⟩, rfl⟩, fun _ _ => rfl⟩

end Nrf9160.Gnss
