import Mathlib.Data.Finset.Basic
import Nrf9160.Net.Http
import Nrf9160.Net.Ntp

/-! Which runs of the network clients close the socket that they open. -/

namespace Nrf9160.Net

inductive Client where
  | ntp (fd0 : ℤ)
  | server
  | http (domain : String) (port : UInt16) (ts : List Transfer)

def Client.prog : Client → NetProg ℤ
  | ntp fd0 => ntpMain fd0
  | server => connectToServer
  | http domain port ts => session domain port ts

/-- The runs that close what they open: all of `connect_to_server`, none of an HTTP session,
and those of `ntp_main` in which the preparation of the socket does not fail. -/
def Client.Closes : Client → List Event → Prop
  | ntp _, log => ¬Has Call.SetupFails log
  | server, _ => True
  | http .., _ => False

variable {O : Finset ℤ} {log : List Event} {ret fd : ℤ}

theorem openAfter_prepared {type : SockType} {setup : List Event} (h : 0 ≤ fd)
    (hsetup : ∀ ev ∈ setup, ev.1.Neutral) :
    openAfter O (⟨.nrfSocket type, fd⟩ :: setup) = insert fd O := by
  have heffect : Call.effect (.nrfSocket type) fd O = insert fd O := if_neg (Int.not_lt.mpr h)
  rw [openAfter, heffect, openAfter_neutral hsetup]

theorem Exchange.openAfter_eq (h : Exchange fd log) : openAfter O log = O.erase fd := by
  cases h <;> rfl

theorem Exchange.prepares (h : Exchange fd log) : ¬Has Call.SetupFails log := by
  cases h <;> (repeat apply not_has_cons id) <;> exact not_has_nil

theorem Prepared.neutral {a : ℤ × ℤ} (h : Prepared fd a log) : ∀ ev ∈ log, ev.1.Neutral :=
  fun ev hev => (h.setup ev hev).neutral

theorem NtpRun.openAfter_eq_iff (h : NtpRun ret log) (hf : Fresh O log) :
    openAfter O log = O ↔ ¬Has Call.SetupFails log := by
  cases h with
  | unresolved h => exact iff_of_true rfl (not_has_cons id not_has_nil)
  | noSocket h hfd =>
    exact iff_of_true (if_pos hfd) (not_has_cons id (not_has_cons id not_has_nil))
  | @unprepared r fd error setup h hfd herror hsetup =>
    have hnew : fd ∉ O := hf.2.1
    have hopen : openAfter O (⟨.nrfSocket .NRF_SOCK_DGRAM, fd⟩ :: setup) = insert fd O :=
      openAfter_prepared hfd hsetup.neutral
    refine iff_of_false ?_ (not_not.mpr ?_)
    · exact fun he => Finset.insert_ne_self.mpr hnew (hopen.symm.trans he)
    · exact has_cons.mpr (.inr (has_cons.mpr (.inr (hsetup.failed_iff.mpr herror))))
  | @exchanged r fd setup rest h hfd hsetup hrest =>
    have hnew : fd ∉ O := hf.2.1
    have hopen : openAfter O (⟨.nrfSocket .NRF_SOCK_DGRAM, fd⟩ :: (setup ++ rest)) = O := by
      rw [← List.cons_append, openAfter_append, openAfter_prepared hfd hsetup.neutral,
        hrest.openAfter_eq, Finset.erase_insert hnew]
    refine iff_of_true hopen (not_has_cons id (not_has_cons id ?_))
    rw [has_append, hsetup.failed_iff]
    exact not_or_intro (not_not.mpr rfl) hrest.prepares

theorem connectToServer_ensures : connectToServer.Ensures fun _ log =>
    ∃ (fd : ℤ) (setup : List Event) (n e : ℤ), 0 ≤ fd ∧ (∀ ev ∈ setup, ev.1.Neutral) ∧
      log = ⟨.nrfSocket .NRF_SOCK_STREAM, fd⟩ ::
        (setup ++ [⟨.nrfSend fd "GET / HTTP/1.0\n".toUTF8.toList, n⟩, ⟨.nrfClose fd, e⟩]) := by
  apply Prog.Ensures.bind (tcpConnect_ensures TCP_HOST TCP_PORT)
  rintro fd _ ⟨hfd, setup, rfl, hsetup⟩ (n : ℤ)
  refine Prog.ensures_ite (fun _ (e : ℤ) => ?_) fun _ (e : ℤ) => ?_
  · exact ⟨fd, setup, n, e, hfd, hsetup, rfl⟩
  · exact ⟨fd, setup, n, e, hfd, hsetup, rfl⟩

theorem server_released (h : connectToServer.Runs log ret) (hf : Fresh O log) :
    openAfter O log = O := by
  obtain ⟨fd, setup, n, e, hfd, hsetup, rfl⟩ := connectToServer_ensures.of_runs h
  have hnew : fd ∉ O := hf.1
  rw [← List.cons_append, openAfter_append, openAfter_prepared hfd hsetup]
  exact Finset.erase_insert hnew

theorem session_ensures (domain : String) (port : UInt16) (ts : List Transfer) :
    (session domain port ts).Ensures fun _ log => ∃ (fd : ℤ) (rest : List Event), 0 ≤ fd ∧
      (∀ ev ∈ rest, ev.1.Neutral) ∧ log = ⟨.nrfSocket .NRF_SOCK_STREAM, fd⟩ :: rest := by
  refine Prog.Ensures.bind (httpcOpen_ensures domain port) ?_
  rintro ⟨_, fd⟩ _ ⟨rfl, hfd, setup, rfl, hsetup⟩
  refine Prog.Ensures.bind (transferAll_ensures ts) fun _ log hlog => ?_
  refine ⟨fd, setup ++ log, hfd, List.forall_mem_append.mpr ⟨hsetup, hlog⟩, ?_⟩
  show (_ :: setup) ++ (log ++ []) = _
  rw [List.append_nil, List.cons_append]

theorem session_leaks {domain : String} {port : UInt16} {ts : List Transfer}
    (h : (session domain port ts).Runs log ret) (hf : Fresh O log) : openAfter O log ≠ O := by
  obtain ⟨fd, rest, hfd, hrest, rfl⟩ := (session_ensures domain port ts).of_runs h
  have hnew : fd ∉ O := hf.1
  rw [openAfter_prepared hfd hrest]
  exact Finset.insert_ne_self.mpr hnew

/-- A client leaves the open sockets as they were just when its run is one that closes. -/
theorem released_iff {client : Client} (h : client.prog.Runs log ret) (hf : Fresh O log) :
    openAfter O log = O ↔ client.Closes log := by
  cases client with
  | ntp fd0 => exact ((ntpMain_ensures fd0).of_runs h).openAfter_eq_iff hf
  | server => exact iff_of_true (server_released h hf) trivial
  | http domain port ts => exact iff_of_false (session_leaks h hf) id

def unsentLog : List Event :=
  [⟨.nrfSocket .NRF_SOCK_STREAM, (3 : ℤ)⟩, ⟨.nrfSetsockopt 3 (.NRF_SO_BINDTOPDN 0), (0 : ℤ)⟩,
    ⟨.nrfGetaddrinfo TCP_HOST "pdn0", (0, ⟨0, 0⟩)⟩, ⟨.nrfBind 3 ⟨0, 0⟩, (0 : ℤ)⟩,
    ⟨.nrfConnect 3 ⟨0, TCP_PORT⟩, (0 : ℤ)⟩,
    ⟨.nrfSend 3 "GET / HTTP/1.0\n".toUTF8.toList, (-1 : ℤ)⟩, ⟨.nrfClose 3, (0 : ℤ)⟩]

theorem released_iff_unsent : openAfter ∅ unsentLog = ∅ := by
  have hruns : Client.server.prog.Runs unsentLog (-1) := by
    repeat apply Prog.Runs.call
    exact .ret (-1)
  have hfresh : Fresh ∅ unsentLog := by
    refine ⟨Finset.notMem_empty 3, ?_⟩
    repeat apply And.intro trivial
    exact trivial
  exact (released_iff hruns hfresh).mpr trivial

/-- A setting of `ntp_connect` fails, and its socket stays open. -/
theorem failed_setting_leaks : ¬∀ (client : Client) (O : Finset ℤ) (log : List Event) (ret : ℤ),
    client.prog.Runs log ret → Fresh O log → openAfter O log = O := by
  intro hall
  have hruns : (Client.ntp 0).prog.Runs [⟨.nrfGetaddrinfo UDP_HOST "pdn0", (0, ⟨0, 0⟩)⟩,
      ⟨.nrfSocket .NRF_SOCK_DGRAM, (3 : ℤ)⟩,
      ⟨.nrfSetsockopt 3 (.NRF_SO_BINDTOPDN 0), (-1 : ℤ)⟩] (-1) := by
    repeat apply Prog.Runs.call
    exact .ret (-1)
  have hfresh := hall _ ∅ _ _ hruns ⟨trivial, Finset.notMem_empty 3, trivial, trivial⟩
  exact absurd hfresh (by decide)

end Nrf9160.Net
