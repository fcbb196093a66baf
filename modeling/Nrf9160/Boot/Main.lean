import Nrf9160.Gnss.Receiver
import Nrf9160.Lte.Registration
import Nrf9160.Net.Usage

/-! `main` as it is built: the modem library is brought up, then LTE, the network clients, and
the receiver. -/

namespace Nrf9160.Boot

/-- The commands that `main.c` has a text for and uses. -/
inductive At where
  | flight
  | systmMode
  | catm1Gps
  | magpio
  | coex0
  | psmReq
  | cind
  | edrxReq
  | xdataprfl
  | lockBands
  | subscribe
  | normal
  | cesq
  | lteDisable
  | edrxDisable
  | gpsEnable
  deriving DecidableEq

def At.text : At → String
  | flight => "AT+CFUN=4"
  | systmMode => "AT%%XSYSTEMMODE?"
  | catm1Gps => "AT%%XSYSTEMMODE=1,0,1,0"
  | magpio => "AT%%XMAGPIO=1,0,0,1,1,1574,1577"
  | coex0 => "AT%%XCOEX0=1,1,1565,1586"
  | psmReq => "AT+CPSMS=1,,,\"00000110\",\"00000000\""
  | cind => "AT+CIND?"
  | edrxReq => "AT+CEDRXS=1,4,\"1000\""
  | xdataprfl => "AT%%XDATAPRFL=4"
  | lockBands => "AT%%XBANDLOCK=2,\"10000001000000001100\""
  | subscribe => "AT+CEREG=5"
  | normal => "AT+CFUN=1"
  | cesq => "AT+CESQ"
  | lteDisable => "AT+CFUN=20"
  | edrxDisable => "AT+CEDRXS=3"
  | gpsEnable => "AT+CFUN=31"

inductive Call where
  | mdxDeviceLookupByName
  | nrfUarteRegisterCallback
  | nrfModemInit
  | nrfModemAtNotifHandlerSet
  | nrfModemBuildVersion
  | nrfModemAtPrintf (cmd : At)
  | nrfModemAtErrType (err : ℤ)
  | nrfModemAtScanf
  | nrfModemAtCmdAsync (cmd : At)
  | mdxUsleep (usec : UInt32)
  | mdxUptime
  | mathTest
  | net (c : Net.Call)
  | gnss (c : Gnss.Call)
  | panic

/-- The device may not be there, the query of `lte_wait` converts what it can, and nothing comes
back from a panic. -/
@[reducible] def Call.Answer : Call → Type
  | mdxDeviceLookupByName => Bool
  | nrfModemInit => ℤ
  | nrfModemAtPrintf _ => ℤ
  | nrfModemAtScanf => Lte.Query
  | nrfModemAtCmdAsync _ => ℤ
  | mdxUptime => UInt64
  | net c => c.Answer
  | gnss _ => ℤ
  | panic => Empty
  | _ => Unit

abbrev BootProg := Prog Call Call.Answer

def ask (c : Call) : BootProg c.Answer := .call c .ret

def panic {α : Type} : BootProg α := .call .panic fun e : Empty => nomatch e

def net {α : Type} (p : Net.NetProg α) : BootProg α := p.interpret fun c => ask (.net c)

def gnss {α : Type} (p : Gnss.GnssProg α) : BootProg α := p.interpret fun c => ask (.gnss c)

def lteAt (cmd : At) : BootProg ℤ := do
  let err ← ask (.nrfModemAtPrintf cmd)
  if err ≠ 0 then
    let _ ← ask (.nrfModemAtErrType err)
    return err
  return err

def lteSignal : BootProg ℤ := do
  let err ← ask (.nrfModemAtCmdAsync .cesq)
  if err ≠ 0 then
    return -1
  return 0

/-- The loop of `lte_wait` for `n` rounds: `none` is where it is still waiting. -/
def lteWait : ℕ → Lte.Locals → BootProg (Option ℤ)
  | 0, _ => return none
  | n + 1, l => do
    let q ← ask .nrfModemAtScanf
    match Lte.switchStatus (l.scan q).status with
    | some r => return some r
    | none => do
      let _ ← ask (.mdxUsleep 1000000)
      lteWait n (l.scan q)

/-- `status` and `fd0` are what the uninitialised locals of `lte_wait` and `ntp_main` hold, and
`httpcGet` is the HTTP client with the dump callback. -/
structure Start where
  status : Int32
  fd0 : ℤ
  httpcGet : Net.HttpcProg ℤ

def httpcMain (E : Start) : BootProg ℤ := do
  let _ ← ask .mdxUptime
  let _ ← net (E.httpcGet.interpret Net.httpcOptions)
  return 0

/-- What `lte_connect` does when `lte_wait` has returned 0. -/
def traffic (E : Start) : BootProg ℤ := do
  let _ ← lteSignal
  let _ ← net (Net.ntpMain E.fd0)
  net Net.connectToServer

def lteConnect (E : Start) (n : ℕ) : BootProg (Option ℤ) := do
  let _ ← lteAt .flight
  let _ ← lteAt .systmMode
  let _ ← lteAt .catm1Gps
  let _ ← lteAt .magpio
  let _ ← lteAt .coex0
  let _ ← lteAt .psmReq
  let _ ← lteAt .cind
  let _ ← lteAt .edrxReq
  let _ ← lteAt .xdataprfl
  let _ ← lteAt .lockBands
  let _ ← lteAt .subscribe
  let _ ← lteAt .normal
  match ← lteWait n ⟨E.status, 0⟩ with
  | none => return none
  | some r => do
    let _ ← (if r = 0 then traffic E else pure 0)
    let _ ← httpcMain E
    let _ ← ask (.mdxUsleep 500000)
    let _ ← lteAt .lteDisable
    let _ ← ask (.mdxUsleep 500000)
    let _ ← lteAt .edrxDisable
    let _ ← ask (.mdxUsleep 500000)
    let _ ← lteAt .gpsEnable
    let _ ← ask (.mdxUsleep 500000)
    return some 0

/-- Where `main` is: in the loop of `lte_wait`, or in its own last loop, with what `gps_init`
returned. -/
inductive Place where
  | waiting
  | idle (error : ℤ)

def main (E : Start) (n : ℕ) : BootProg Place := do
  let uart ← ask .mdxDeviceLookupByName
  if !uart then
    panic
  else
    ask .nrfUarteRegisterCallback
    let error ← ask .nrfModemInit
    if error ≠ 0 then
      panic
    else
      ask .nrfModemAtNotifHandlerSet
      ask .nrfModemBuildVersion
      match ← lteConnect E n with
      | none => return .waiting
      | some _ => do
        ask .mathTest
        let error ← gnss Gnss.gpsInit
        return .idle error

end Nrf9160.Boot
