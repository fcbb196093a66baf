import Nrf9160.Net.Socket

/-! `ntp_main`: one query to the time server, and what its result says about the answer. -/

namespace Nrf9160.Net

def UDP_HOST : String := "time1.google.com"
def UDP_PORT : UInt16 := 123

def NTP_TO_UNIX (x : UInt32) : UInt32 := (x.toUInt64 - 2208988800).toUInt32

def timeout : Timeval where
  tvSec := 5
  tvUsec := 0

structure NtpMsg where
  flags : UInt8
  stratum : UInt8
  poll : UInt8
  precision : Int8
  rootdelay : UInt32
  rootdisp : UInt32
  refid : UInt32
  reftimeSec : UInt32
  reftimeFrac : UInt32
  orgSec : UInt32
  orgFrac : UInt32
  recSec : UInt32
  recFrac : UInt32
  xmtSec : UInt32
  xmtFrac : UInt32

/-- A word in the byte order of the target. -/
def leWord (b0 b1 b2 b3 : UInt8) : UInt32 :=
  b0.toUInt32 ||| b1.toUInt32 <<< 8 ||| b2.toUInt32 <<< 16 ||| b3.toUInt32 <<< 24

def NtpMsg.ofBytes (m : Vector UInt8 48) : NtpMsg where
  flags := m[0]
  stratum := m[1]
  poll := m[2]
  precision := m[3].toInt8
  rootdelay := leWord m[4] m[5] m[6] m[7]
  rootdisp := leWord m[8] m[9] m[10] m[11]
  refid := leWord m[12] m[13] m[14] m[15]
  reftimeSec := leWord m[16] m[17] m[18] m[19]
  reftimeFrac := leWord m[20] m[21] m[22] m[23]
  orgSec := leWord m[24] m[25] m[26] m[27]
  orgFrac := leWord m[28] m[29] m[30] m[31]
  recSec := leWord m[32] m[33] m[34] m[35]
  recFrac := leWord m[36] m[37] m[38] m[39]
  xmtSec := leWord m[40] m[41] m[42] m[43]
  xmtFrac := leWord m[44] m[45] m[46] m[47]

/-- The target is little-endian. -/
def htobe32 (x : UInt32) : UInt32 :=
  x <<< 24 ||| (x <<< 8 &&& (0xff0000 : UInt32)) ||| (x >>> 8 &&& (0xff00 : UInt32)) ||| x >>> 24

def ntpToUnixtime (ntp : NtpMsg) : UInt32 :=
  let ntp := { ntp with
    orgFrac := htobe32 ntp.orgFrac
    orgSec := htobe32 ntp.orgSec
    reftimeFrac := htobe32 ntp.reftimeFrac
    reftimeSec := htobe32 ntp.reftimeSec
    recFrac := htobe32 ntp.recFrac
    recSec := htobe32 ntp.recSec
    xmtFrac := htobe32 ntp.xmtFrac
    xmtSec := htobe32 ntp.xmtSec }
  NTP_TO_UNIX ntp.xmtSec

/-- The error and the value of `*fd0`, which holds `fd0` before. -/
def ntpConnect (fd0 : ℤ) (serverAddr : SockaddrIn) : NetProg (ℤ × ℤ) := do
  let pdnId := 0
  let fd ← nrfSocket .NRF_SOCK_DGRAM
  if fd < 0 then
    return (-1, fd0)
  let error ← nrfSetsockopt fd (.NRF_SO_BINDTOPDN pdnId)
  if error ≠ 0 then
    return (error, fd)
  let error ← nrfSetsockopt fd (.NRF_SO_SNDTIMEO timeout)
  if error ≠ 0 then
    return (error, fd)
  let error ← nrfSetsockopt fd (.NRF_SO_RCVTIMEO timeout)
  if error ≠ 0 then
    return (error, fd)
  let s := { serverAddr with sinPort := UDP_PORT }
  let error ← nrfBind fd ⟨0, 0⟩
  if error ≠ 0 then
    return (error, fd)
  let error ← nrfConnect fd s
  if error ≠ 0 then
    return (error, fd)
  return (0, fd)

def printTime (unixtime : UInt32) : NetProg ℤ := do
  let t ← gmtimeR unixtime
  if !t then
    return -1
  printfTime unixtime
  return 0

def query : Vector UInt8 48 := (Vector.replicate 48 0).set 0 0x1b

def Received.store (r : Received) (m : Vector UInt8 48) : Vector UInt8 48 :=
  Vector.ofFn fun i => r.bytes[i]?.getD m[i]

/-- `fd0` is what the uninitialised `fd` holds. -/
def ntpMain (fd0 : ℤ) : NetProg ℤ := do
  let (error, serverAddr) ← nrfGetaddrinfo UDP_HOST "pdn0"
  if error ≠ 0 then
    return error
  let (error, fd) ← ntpConnect fd0 serverAddr
  if error ≠ 0 then
    return error
  let len ← nrfSend fd query.toList
  if len ≤ 0 then
    let _ ← nrfClose fd
    return error
  let r ← nrfRecvfrom fd 48
  if r.len ≤ 0 then
    let _ ← nrfClose fd
    return error
  let unixtime := ntpToUnixtime (.ofBytes (r.store query))
  let _ ← printTime unixtime
  let _ ← nrfClose fd
  return 0

inductive Exchange (fd : ℤ) : List Event → Prop where
  | unsent {n e : ℤ} (hn : n ≤ 0) : Exchange fd [⟨.nrfSend fd query.toList, n⟩, ⟨.nrfClose fd, e⟩]
  | unanswered {n e : ℤ} {r : Received} (hn : 0 < n) (hr : r.len ≤ 0) :
      Exchange fd [⟨.nrfSend fd query.toList, n⟩, ⟨.nrfRecvfrom fd 48, r⟩, ⟨.nrfClose fd, e⟩]
  | untimed {n e : ℤ} {r : Received} (hn : 0 < n) (hr : 0 < r.len) :
      Exchange fd [⟨.nrfSend fd query.toList, n⟩, ⟨.nrfRecvfrom fd 48, r⟩,
        ⟨.gmtimeR (ntpToUnixtime (.ofBytes (r.store query))), false⟩, ⟨.nrfClose fd, e⟩]
  | timed {n e : ℤ} {r : Received} (hn : 0 < n) (hr : 0 < r.len) :
      Exchange fd [⟨.nrfSend fd query.toList, n⟩, ⟨.nrfRecvfrom fd 48, r⟩,
        ⟨.gmtimeR (ntpToUnixtime (.ofBytes (r.store query))), true⟩,
        ⟨.printfTime (ntpToUnixtime (.ofBytes (r.store query))), ()⟩, ⟨.nrfClose fd, e⟩]

inductive NtpRun : ℤ → List Event → Prop where
  | unresolved {r : ℤ × SockaddrIn} (h : r.1 ≠ 0) :
      NtpRun r.1 [⟨.nrfGetaddrinfo UDP_HOST "pdn0", r⟩]
  | noSocket {r : ℤ × SockaddrIn} {fd : ℤ} (h : r.1 = 0) (hfd : fd < 0) :
      NtpRun (-1) [⟨.nrfGetaddrinfo UDP_HOST "pdn0", r⟩, ⟨.nrfSocket .NRF_SOCK_DGRAM, fd⟩]
  | unprepared {r : ℤ × SockaddrIn} {fd error : ℤ} {setup : List Event} (h : r.1 = 0)
      (hfd : 0 ≤ fd) (herror : error ≠ 0) (hsetup : Prepared fd (error, fd) setup) :
      NtpRun error (⟨.nrfGetaddrinfo UDP_HOST "pdn0", r⟩ ::
        ⟨.nrfSocket .NRF_SOCK_DGRAM, fd⟩ :: setup)
  | exchanged {r : ℤ × SockaddrIn} {fd : ℤ} {setup rest : List Event} (h : r.1 = 0)
      (hfd : 0 ≤ fd) (hsetup : Prepared fd (0, fd) setup) (hrest : Exchange fd rest) :
      NtpRun 0 (⟨.nrfGetaddrinfo UDP_HOST "pdn0", r⟩ ::
        ⟨.nrfSocket .NRF_SOCK_DGRAM, fd⟩ :: (setup ++ rest))

theorem ntpConnect_ensures (fd0 : ℤ) (serverAddr : SockaddrIn) :
    (ntpConnect fd0 serverAddr).Ensures fun a log =>
      ∃ (fd : ℤ) (setup : List Event), log = ⟨.nrfSocket .NRF_SOCK_DGRAM, fd⟩ :: setup ∧
        (fd < 0 ∧ a = (-1, fd0) ∧ setup = [] ∨ 0 ≤ fd ∧ Prepared fd a setup) := by
  intro (fd : ℤ)
  refine Prog.ensures_ite (fun hfd => ?_) fun hfd => ?_
  · exact ⟨fd, [], rfl, .inl ⟨hfd, rfl, rfl⟩⟩
  · have hprepared : Prog.Ensures _ (Prepared fd) :=
      prepare_step (preparesBy_setsockopt fd (.NRF_SO_BINDTOPDN 0)) <|
      prepare_step (preparesBy_setsockopt fd (.NRF_SO_SNDTIMEO timeout)) <|
      prepare_step (preparesBy_setsockopt fd (.NRF_SO_RCVTIMEO timeout)) <|
      prepare_step (preparesBy_bind fd ⟨0, 0⟩) <|
      prepare_step (preparesBy_connect fd { serverAddr with sinPort := UDP_PORT }) <|
      prepare_end fd
    exact Prog.Ensures.mono hprepared fun a log h =>
      ⟨fd, log, rfl, .inr ⟨Int.not_lt.mp hfd, h⟩⟩

def ntpExchange (fd : ℤ) : NetProg ℤ := do
  let len ← nrfSend fd query.toList
  if len ≤ 0 then
    let _ ← nrfClose fd
    return 0
  let r ← nrfRecvfrom fd 48
  if r.len ≤ 0 then
    let _ ← nrfClose fd
    return 0
  let _ ← printTime (ntpToUnixtime (.ofBytes (r.store query)))
  let _ ← nrfClose fd
  return 0

theorem ntpExchange_ensures (fd : ℤ) :
    (ntpExchange fd).Ensures fun ret log => ret = 0 ∧ Exchange fd log := by
  intro (n : ℤ)
  refine Prog.ensures_ite (fun hn e => ⟨rfl, .unsent hn⟩) fun hn (r : Received) => ?_
  refine Prog.ensures_ite (fun hr e => ⟨rfl, .unanswered (Int.not_le.mp hn) hr⟩) fun hr t => ?_
  cases t with
  | false => exact fun e => ⟨rfl, .untimed (Int.not_le.mp hn) (Int.not_le.mp hr)⟩
  | true => exact fun _ e => ⟨rfl, .timed (Int.not_le.mp hn) (Int.not_le.mp hr)⟩

theorem ntpMain_ensures (fd0 : ℤ) : (ntpMain fd0).Ensures NtpRun := by
  intro r
  refine Prog.ensures_ite (fun h => .unresolved h) fun h => ?_
  have h0 : r.1 = 0 := not_not.mp h
  refine Prog.Ensures.bind (ntpConnect_ensures fd0 r.2) ?_
  rintro ⟨error, fd'⟩ _ ⟨fd, setup, rfl, ⟨hfd, ha, rfl⟩ | ⟨hfd, hp⟩⟩
  · cases ha
    exact .noSocket h0 hfd
  · obtain rfl : fd' = fd := hp.fd_eq
    refine Prog.ensures_ite (fun he => ?_) fun he => ?_
    · show NtpRun error (_ :: _ :: (setup ++ []))
      rw [List.append_nil]
      exact .unprepared h0 hfd he hp
    · obtain rfl : error = 0 := not_not.mp he
      apply Prog.Ensures.mono (ntpExchange_ensures fd')
      rintro _ log ⟨rfl, hex⟩
      exact .exchanged h0 hfd hp hex

/-! What the result says. -/

/-- The calls up to the connection, and those of them that fail. -/
def Call.IsConnect : Call → Prop
  | nrfGetaddrinfo .. => True
  | nrfSocket _ => True
  | c => c.IsSetup

def Call.ConnectFails : (c : Call) → c.Answer → Prop
  | nrfGetaddrinfo .. => fun r : ℤ × SockaddrIn => r.1 ≠ 0
  | nrfSocket _ => fun fd : ℤ => fd < 0
  | c => c.SetupFails

/-- `nrf_send` has returned what `sent` accepts. -/
def Call.Sends (sent : ℤ → Prop) : (c : Call) → c.Answer → Prop
  | nrfSend .. => fun n : ℤ => sent n
  | _ => fun _ => False

def Call.Replies : (c : Call) → c.Answer → Prop
  | nrfRecvfrom .. => fun r : Received => r.len = 48
  | _ => fun _ => False

def Call.Times : (c : Call) → c.Answer → Prop
  | gmtimeR _ => fun _ => True
  | printfTime _ => fun _ => True
  | _ => fun _ => False

/-- The query was sent, and the complete reply was received. -/
def Answered (sent : ℤ → Prop) (log : List Event) : Prop :=
  Has (Call.Sends sent) log ∧ Has Call.Replies log

/-- The result is right about the answer. -/
def Honest (sent : ℤ → Prop) (ret : ℤ) (log : List Event) : Prop :=
  (ret = 0 ↔ Answered sent log) ∧ (¬Answered sent log → ¬Has Call.Times log)

variable {sent : ℤ → Prop} {log : List Event} {ret fd : ℤ} {c : Call}

theorem Call.IsSetup.isConnect (h : c.IsSetup) : c.IsConnect := by
  cases c <;> trivial

theorem connectFails_iff (h : c.IsSetup) (r : c.Answer) : c.ConnectFails r ↔ c.SetupFails r := by
  cases c <;> first | exact Iff.rfl | exact h.elim

theorem Prepared.connectFailed_iff {a : ℤ × ℤ} (h : Prepared fd a log) :
    Has Call.ConnectFails log ↔ a.1 ≠ 0 := by
  rw [← h.failed_iff]
  exact has_congr fun ev hev => connectFails_iff (h.setup ev hev) ev.2

theorem Exchange.connects (h : Exchange fd log) : ¬Has Call.ConnectFails log := by
  cases h <;> (repeat apply not_has_cons id) <;> exact not_has_nil

theorem NtpRun.ret_eq_zero_iff (h : NtpRun ret log) : ret = 0 ↔ ¬Has Call.ConnectFails log := by
  cases h with
  | @unresolved r h =>
    refine iff_of_false h (not_not.mpr ?_)
    exact has_cons.mpr (.inl h)
  | noSocket h hfd =>
    refine iff_of_false (by decide) (not_not.mpr ?_)
    exact has_cons.mpr (.inr (has_cons.mpr (.inl hfd)))
  | unprepared h hfd herror hsetup =>
    refine iff_of_false herror (not_not.mpr ?_)
    have hfailed := hsetup.connectFailed_iff.mpr herror
    exact has_cons.mpr (.inr (has_cons.mpr (.inr hfailed)))
  | exchanged h hfd hsetup hrest =>
    refine iff_of_true rfl ?_
    rw [has_cons, has_cons, has_append, hsetup.connectFailed_iff]
    rintro (hr | hneg | hne | hrest')
    · exact hr h
    · exact absurd hneg (Int.not_lt.mpr hfd)
    · exact hne rfl
    · exact hrest.connects hrest'

theorem NtpRun.isConnect (h : NtpRun ret log) (hf : Has Call.ConnectFails log) :
    ∀ ev ∈ log, ev.1.IsConnect := by
  have hret : ret ≠ 0 := fun h0 => h.ret_eq_zero_iff.mp h0 hf
  cases h with
  | unresolved => exact List.forall_mem_singleton.mpr trivial
  | noSocket => exact List.forall_mem_cons.mpr ⟨trivial, List.forall_mem_singleton.mpr trivial⟩
  | unprepared h hfd herror hsetup =>
    refine List.forall_mem_cons.mpr ⟨trivial, List.forall_mem_cons.mpr ⟨trivial, ?_⟩⟩
    intro ev hev
    exact (hsetup.setup ev hev).isConnect
  | exchanged => exact absurd rfl hret

theorem not_isConnect_of_sends {r : c.Answer} (h : c.Sends sent r) : ¬c.IsConnect := by
  cases c <;> first | exact id | exact h.elim

theorem not_isConnect_of_times {r : c.Answer} (h : c.Times r) : ¬c.IsConnect := by
  cases c <;> first | exact id | exact h.elim

/-- `ntp_main` is right about the answer just when it did not get to send the query, or all of
the answer has come: nothing that fails afterwards is reported. -/
theorem honest_iff {fd0 : ℤ} (h : (ntpMain fd0).Runs log ret) :
    Honest sent ret log ↔ Has Call.ConnectFails log ∨ Answered sent log := by
  have hrun := (ntpMain_ensures fd0).of_runs h
  by_cases hf : Has Call.ConnectFails log
  · have hconn := hrun.isConnect hf
    have hno : ¬Answered sent log := by
      rintro ⟨⟨⟨c, n⟩, hev, hsends⟩, -⟩
      exact not_isConnect_of_sends hsends (hconn _ hev)
    have htime : ¬Has Call.Times log := by
      rintro ⟨⟨c, r⟩, hev, htimes⟩
      exact not_isConnect_of_times htimes (hconn _ hev)
    have hret : ret ≠ 0 := fun h0 => hrun.ret_eq_zero_iff.mp h0 hf
    exact iff_of_true ⟨iff_of_false hret hno, fun _ => htime⟩ (.inl hf)
  · have hret := hrun.ret_eq_zero_iff.mpr hf
    rw [or_iff_right hf]
    constructor
    · intro hh
      exact hh.1.mp hret
    · intro ha
      exact ⟨iff_of_true hret ha, fun hno => absurd ha hno⟩

def connectedLog (rest : List Event) : List Event :=
  ⟨.nrfGetaddrinfo UDP_HOST "pdn0", (0, ⟨0, 0⟩)⟩ :: ⟨.nrfSocket .NRF_SOCK_DGRAM, (3 : ℤ)⟩ ::
    ⟨.nrfSetsockopt 3 (.NRF_SO_BINDTOPDN 0), (0 : ℤ)⟩ ::
    ⟨.nrfSetsockopt 3 (.NRF_SO_SNDTIMEO timeout), (0 : ℤ)⟩ ::
    ⟨.nrfSetsockopt 3 (.NRF_SO_RCVTIMEO timeout), (0 : ℤ)⟩ ::
    ⟨.nrfBind 3 ⟨0, 0⟩, (0 : ℤ)⟩ :: ⟨.nrfConnect 3 ⟨0, UDP_PORT⟩, (0 : ℤ)⟩ :: rest

/-- A reply of 48 bytes with the time 0xe0000000. -/
def reply : Received :=
  ⟨48, [0x24, 1, 0, 0xec] ++ List.replicate 36 0 ++ [0xe0, 0, 0, 0, 0, 0, 0, 0]⟩

theorem ntpToUnixtime_reply : ntpToUnixtime (.ofBytes (reply.store query)) = 1549107584 := by
  decide

def answeredLog : List Event := connectedLog
  [⟨.nrfSend 3 query.toList, (48 : ℤ)⟩, ⟨.nrfRecvfrom 3 48, reply⟩, ⟨.gmtimeR 1549107584, true⟩,
    ⟨.printfTime 1549107584, ()⟩, ⟨.nrfClose 3, (0 : ℤ)⟩]

theorem honest_iff_answered : (ntpMain 0).Runs answeredLog 0 ∧ Honest (· = 48) 0 answeredLog := by
  have hruns : (ntpMain 0).Runs answeredLog 0 := by
    rw [answeredLog, ← ntpToUnixtime_reply]
    repeat apply Prog.Runs.call
    exact .ret 0
  refine ⟨hruns, (honest_iff hruns).mpr (.inr ⟨?_, ?_⟩)⟩
  · iterate 7 apply has_cons.mpr ∘ Or.inr
    exact has_cons.mpr (.inl rfl)
  · iterate 8 apply has_cons.mpr ∘ Or.inr
    exact has_cons.mpr (.inl rfl)

/-- No reply comes before the timeout, and the result is 0. -/
theorem silence_is_success : ¬∀ fd0 log ret, (ntpMain fd0).Runs log ret →
    Honest (· = 48) ret log := by
  intro hall
  have hruns : (ntpMain 0).Runs (connectedLog [⟨.nrfSend 3 query.toList, (48 : ℤ)⟩,
      ⟨.nrfRecvfrom 3 48, ⟨-1, []⟩⟩, ⟨.nrfClose 3, (0 : ℤ)⟩]) 0 := by
    repeat apply Prog.Runs.call
    exact .ret 0
  have hreplies := ((hall _ _ _ hruns).1.mp rfl).2
  apply absurd hreplies
  repeat apply not_has_cons id
  apply not_has_cons (show ¬(-1 : ℤ) = 48 by decide)
  exact not_has_cons id not_has_nil

end Nrf9160.Net
