import Nrf9160.Kernel
import Nrf9160.Lib.Prog

/-! The text of `nrf_modem_os_timedwait`, as a program over its calls, and the control
points at which other threads and interrupts can come in between. -/

namespace Nrf9160.Modem

/-- What `nrf_modem_os_timedwait` calls. The stores to its own `td` before the list knows
about it (`memset`, `mdx_sem_init` with 0 and `td.context`) are one call, and each critical
section is one. -/
inductive TdCall where
  | isInitialized
  | threadYield
  | setup (context : UInt32)
  | listAppend
  | semTimedwait (tmout : Int32)
  | listRemove

@[reducible] def TdCall.Answer : TdCall → Type
  | .isInitialized => Bool
  | .semTimedwait _ => ℤ
  | _ => Unit

abbrev TdProg := Prog TdCall TdCall.Answer

def nrfModemIsInitialized : TdProg Bool := .call .isInitialized .ret

def mdxThreadYield : TdProg Unit := .call .threadYield .ret

def setup (context : UInt32) : TdProg Unit := .call (.setup context) .ret

def listAppend : TdProg Unit := .call .listAppend .ret

def mdxSemTimedwait (tmout : Int32) : TdProg ℤ := .call (.semTimedwait tmout) .ret

def listRemove : TdProg Unit := .call .listRemove .ret

def tmout (val : Int32) : Int32 := if val < 0 then 500000 else val * 1000

def nrfModemOsTimedwait (K : Kernel) (context : UInt32) (pTimeout : Int32) : TdProg ℤ := do
  if !(← nrfModemIsInitialized) then
    return -K.NRF_ESHUTDOWN
  let val := pTimeout
  if val = 0 then
    mdxThreadYield
    return -K.NRF_EAGAIN
  setup context
  listAppend
  let err ← mdxSemTimedwait (tmout val)
  listRemove
  -- the modem may have been shut down while the thread slept
  if !(← nrfModemIsInitialized) then
    return -K.NRF_ESHUTDOWN
  if err = 0 then
    if val < 0 then
      return 0
    return -K.NRF_EAGAIN
  return 0

inductive Point where
  | check
  | yield
  | setup
  | append
  | wait
  | remove
  | recheck
  | ret (r : ℤ)
  deriving DecidableEq

structure Call where
  context : UInt32
  val : Int32
  err : ℤ := 0
  pt : Point := .check
  deriving DecidableEq

def Call.queued (c : Call) : Bool := c.pt = .wait ∨ c.pt = .remove

def entryPoint (K : Kernel) (initialized : Bool) (val : Int32) : Point :=
  if !initialized then .ret (-K.NRF_ESHUTDOWN) else if val = 0 then .yield else .setup

def exitCode (K : Kernel) (initialized : Bool) (val : Int32) (err : ℤ) : ℤ :=
  if !initialized then -K.NRF_ESHUTDOWN
  else if err = 0 then if val < 0 then 0 else -K.NRF_EAGAIN
  else 0

/-- What is left to run of `nrf_modem_os_timedwait` at a control point. -/
def Call.prog (K : Kernel) (c : Call) : TdProg ℤ :=
  let recheck := fun err => .call .isInitialized fun b => .ret (exitCode K b c.val err)
  let remove := fun err => .call .listRemove fun _ => recheck err
  let wait := .call (.semTimedwait (tmout c.val)) remove
  let append := .call .listAppend fun _ => wait
  match c.pt with
  | .check => nrfModemOsTimedwait K c.context c.val
  | .yield => .call .threadYield fun _ => .ret (-K.NRF_EAGAIN)
  | .setup => .call (.setup c.context) fun _ => append
  | .append => append
  | .wait => wait
  | .remove => remove c.err
  | .recheck => recheck c.err
  | .ret r => .ret r

theorem exitCode_prog (K : Kernel) (b : Bool) (val : Int32) (err : ℤ) :
    (if !b then return -K.NRF_ESHUTDOWN
      else if err = 0 then if val < 0 then return 0 else return -K.NRF_EAGAIN
      else return 0 : TdProg ℤ) = .ret (exitCode K b val err) := by
  unfold exitCode
  split_ifs <;> rfl

/-- The control points are those of the program text: from its start on, the first answer
decides between the two early returns and the sleep. -/
theorem prog_check {K : Kernel} {c : Call} (hc : c.pt = .check) :
    c.prog K = .call .isInitialized fun b => { c with pt := entryPoint K b c.val }.prog K := by
  simp only [Call.prog, hc, nrfModemOsTimedwait, exitCode_prog]
  change Prog.call _ _ = _
  congr 1
  funext b
  simp only [Prog.bind]
  cases b with
  | false => rfl
  | true =>
    simp only [entryPoint, Bool.not_true, Bool.false_eq_true, if_false]
    split_ifs with hv
    · rfl
    · rfl

end Nrf9160.Modem
