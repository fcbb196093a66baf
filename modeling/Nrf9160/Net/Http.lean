import Nrf9160.Net.Socket

/-! The TCP clients: `connect_to_server`, and the transport of the HTTP client. -/

namespace Nrf9160.Net

def TCP_HOST : String := "machdep.com"
def TCP_PORT : UInt16 := 80

/-- The part that `httpc_open` and `connect_to_server` share: a connected socket, and a panic
on every failure on the way to it except that of `nrf_setsockopt`. -/
def tcpConnect (domain : String) (port : UInt16) : NetProg ℤ := do
  let pdnId := 0
  let fd ← nrfSocket .NRF_SOCK_STREAM
  if fd < 0 then
    panic
  else
    let _ ← nrfSetsockopt fd (.NRF_SO_BINDTOPDN pdnId)
    let (error, serverAddr) ← nrfGetaddrinfo domain "pdn0"
    if error ≠ 0 then
      panic
    else
      let s := { serverAddr with sinPort := port }
      let error ← nrfBind fd ⟨0, 0⟩
      if error ≠ 0 then
        panic
      else
        let error ← nrfConnect fd s
        if error ≠ 0 then
          panic
        else
          return fd

def connectToServer : NetProg ℤ := do
  let fd ← tcpConnect TCP_HOST TCP_PORT
  let err ← nrfSend fd "GET / HTTP/1.0\n".toUTF8.toList
  if err ≤ 0 then
    let _ ← nrfClose fd
    return err
  let _ ← nrfClose fd
  return 0

/-- The result and the value of `*socket`. -/
def httpcOpen (domain : String) (port : UInt16) : NetProg (ℤ × ℤ) := do
  let fd ← tcpConnect domain port
  return (0, fd)

def httpcClose (_socket : ℤ) : NetProg ℤ := return 0

/-- The result and the value of `*length`. -/
def httpcRead (socket : ℤ) (length : ℕ) : NetProg (ℤ × ℕ) := do
  let error ← nrfRecv socket length
  if error ≥ 0 then
    return (0, error.toNat)
  return (error, length)

/-- The result and the value of `*length`, which it leaves alone. -/
def httpcWrite (socket : ℤ) (buf : List UInt8) : NetProg (ℤ × ℕ) := do
  let error ← nrfSend socket buf
  if error > 0 then
    return (0, buf.length)
  return (error, buf.length)

inductive Transfer where
  | read (length : ℕ)
  | write (buf : List UInt8)

def Transfer.prog (socket : ℤ) : Transfer → NetProg (ℤ × ℕ)
  | read length => httpcRead socket length
  | write buf => httpcWrite socket buf

def transferAll (socket : ℤ) : List Transfer → NetProg Unit
  | [] => return
  | t :: ts => do
    let _ ← t.prog socket
    transferAll socket ts

/-- A session of the HTTP client on its transport. -/
def session (domain : String) (port : UInt16) (ts : List Transfer) : NetProg ℤ := do
  let (error, socket) ← httpcOpen domain port
  if error ≠ 0 then
    return error
  transferAll socket ts
  httpcClose socket

variable {socket : ℤ}

theorem ensures_panic {α : Type} {Q : α → List Event → Prop} : (panic : NetProg α).Ensures Q :=
  fun e : Empty => nomatch e

theorem tcpConnect_ensures (domain : String) (port : UInt16) :
    (tcpConnect domain port).Ensures fun fd log => 0 ≤ fd ∧
      ∃ rest, log = ⟨.nrfSocket .NRF_SOCK_STREAM, fd⟩ :: rest ∧ ∀ ev ∈ rest, ev.1.Neutral := by
  intro (fd : ℤ)
  refine Prog.ensures_ite (fun _ => ensures_panic) fun hfd _ r => ?_
  refine Prog.ensures_ite (fun _ => ensures_panic) fun _ (e : ℤ) => ?_
  refine Prog.ensures_ite (fun _ => ensures_panic) fun _ (e' : ℤ) => ?_
  refine Prog.ensures_ite (fun _ => ensures_panic) fun _ => ?_
  refine ⟨Int.not_lt.mp hfd, _, rfl, ?_⟩
  simp only [List.forall_mem_cons]
  exact ⟨trivial, trivial, trivial, trivial, List.forall_mem_nil _⟩

theorem httpcOpen_ensures (domain : String) (port : UInt16) :
    (httpcOpen domain port).Ensures fun a log => a.1 = 0 ∧ 0 ≤ a.2 ∧
      ∃ rest, log = ⟨.nrfSocket .NRF_SOCK_STREAM, a.2⟩ :: rest ∧ ∀ ev ∈ rest, ev.1.Neutral := by
  apply Prog.Ensures.bind (tcpConnect_ensures domain port)
  rintro fd _ ⟨hfd, rest, rfl, hrest⟩
  refine ⟨rfl, hfd, rest ++ [], rfl, ?_⟩
  rwa [List.append_nil]

theorem transfer_ensures (t : Transfer) :
    (t.prog socket).Ensures fun _ log => ∀ ev ∈ log, ev.1.Neutral := by
  cases t with
  | read length =>
    intro (error : ℤ)
    exact Prog.ensures_ite (fun _ => List.forall_mem_singleton.mpr trivial)
      fun _ => List.forall_mem_singleton.mpr trivial
  | write buf =>
    intro (error : ℤ)
    exact Prog.ensures_ite (fun _ => List.forall_mem_singleton.mpr trivial)
      fun _ => List.forall_mem_singleton.mpr trivial

theorem transferAll_ensures (ts : List Transfer) :
    (transferAll socket ts).Ensures fun _ log => ∀ ev ∈ log, ev.1.Neutral := by
  induction ts with
  | nil => exact List.forall_mem_nil _
  | cons t ts ih =>
    apply Prog.Ensures.bind (transfer_ensures t)
    intro _ log hlog
    apply ih.mono
    intro _ log' hlog'
    exact List.forall_mem_append.mpr ⟨hlog, hlog'⟩

end Nrf9160.Net
