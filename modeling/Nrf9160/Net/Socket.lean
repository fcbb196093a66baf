import Mathlib.Data.Finset.Erase
import Mathlib.Data.Finset.Insert
import Mathlib.Data.Int.Notation
import Nrf9160.Lib.Prog

/-! The socket calls of the modem as the network clients make them, and what a run of a
client does to the set of open sockets. -/

namespace Nrf9160.Net

inductive SockType where
  | NRF_SOCK_STREAM
  | NRF_SOCK_DGRAM

structure Timeval where
  tvSec : ℕ
  tvUsec : ℕ

inductive SockOpt where
  | NRF_SO_BINDTOPDN (pdnId : ℤ)
  | NRF_SO_SNDTIMEO (timeout : Timeval)
  | NRF_SO_RCVTIMEO (timeout : Timeval)

/-- The port is in the order of the host. -/
structure SockaddrIn where
  sinAddr : UInt32
  sinPort : UInt16

/-- What `nrf_recvfrom` returns, and the bytes it has stored in the buffer. -/
structure Received where
  len : ℤ
  bytes : List UInt8

inductive Call where
  | nrfGetaddrinfo (domain pdn : String)
  | nrfSocket (type : SockType)
  | nrfSetsockopt (fd : ℤ) (opt : SockOpt)
  | nrfBind (fd : ℤ) (addr : SockaddrIn)
  | nrfConnect (fd : ℤ) (addr : SockaddrIn)
  | nrfSend (fd : ℤ) (buf : List UInt8)
  | nrfRecv (fd : ℤ) (length : ℕ)
  | nrfRecvfrom (fd : ℤ) (length : ℕ)
  | nrfClose (fd : ℤ)
  | gmtimeR (unixtime : UInt32)
  | printfTime (unixtime : UInt32)
  | panic

/-- `nrf_getaddrinfo` stores an address, `gmtime_r` may return `NULL`, and nothing comes
back from a panic. -/
def Call.Answer : Call → Type
  | nrfGetaddrinfo .. => ℤ × SockaddrIn
  | nrfSocket _ => ℤ
  | nrfSetsockopt .. => ℤ
  | nrfBind .. => ℤ
  | nrfConnect .. => ℤ
  | nrfSend .. => ℤ
  | nrfRecv .. => ℤ
  | nrfRecvfrom .. => Received
  | nrfClose _ => ℤ
  | gmtimeR _ => Bool
  | printfTime _ => Unit
  | panic => Empty

abbrev NetProg := Prog Call Call.Answer

abbrev Event := Sigma Call.Answer

def nrfGetaddrinfo (domain pdn : String) : NetProg (ℤ × SockaddrIn) :=
  .call (.nrfGetaddrinfo domain pdn) .ret

def nrfSocket (type : SockType) : NetProg ℤ := .call (.nrfSocket type) .ret

def nrfSetsockopt (fd : ℤ) (opt : SockOpt) : NetProg ℤ := .call (.nrfSetsockopt fd opt) .ret

def nrfBind (fd : ℤ) (addr : SockaddrIn) : NetProg ℤ := .call (.nrfBind fd addr) .ret

def nrfConnect (fd : ℤ) (addr : SockaddrIn) : NetProg ℤ := .call (.nrfConnect fd addr) .ret

def nrfSend (fd : ℤ) (buf : List UInt8) : NetProg ℤ := .call (.nrfSend fd buf) .ret

def nrfRecv (fd : ℤ) (length : ℕ) : NetProg ℤ := .call (.nrfRecv fd length) .ret

def nrfRecvfrom (fd : ℤ) (length : ℕ) : NetProg Received := .call (.nrfRecvfrom fd length) .ret

def nrfClose (fd : ℤ) : NetProg ℤ := .call (.nrfClose fd) .ret

def gmtimeR (unixtime : UInt32) : NetProg Bool := .call (.gmtimeR unixtime) .ret

def printfTime (unixtime : UInt32) : NetProg Unit := .call (.printfTime unixtime) .ret

def panic {α : Type} : NetProg α := .call .panic fun e : Empty => nomatch e

/-! The set of open sockets along a log. -/

def Call.effect : (c : Call) → c.Answer → Finset ℤ → Finset ℤ
  | nrfSocket _ => fun (fd : ℤ) O => if fd < 0 then O else insert fd O
  | nrfClose fd => fun _ O => O.erase fd
  | _ => fun _ O => O

def openAfter (O : Finset ℤ) : List Event → Finset ℤ
  | [] => O
  | ev :: log => openAfter (ev.1.effect ev.2 O) log

/-- The modem opens a socket under a number that is not in use. -/
def Call.IsFresh : (c : Call) → c.Answer → Finset ℤ → Prop
  | nrfSocket _ => fun (fd : ℤ) O => fd ∉ O
  | _ => fun _ _ => True

def Fresh (O : Finset ℤ) : List Event → Prop
  | [] => True
  | ev :: log => ev.1.IsFresh ev.2 O ∧ Fresh (ev.1.effect ev.2 O) log

def Call.Neutral : Call → Prop
  | nrfSocket _ => False
  | nrfClose _ => False
  | _ => True

/-! The calls that prepare an open socket. -/

def Call.IsSetup : Call → Prop
  | nrfSetsockopt .. => True
  | nrfBind .. => True
  | nrfConnect .. => True
  | _ => False

def Call.SetupFails : (c : Call) → c.Answer → Prop
  | nrfSetsockopt .. => fun (error : ℤ) => error ≠ 0
  | nrfBind .. => fun (error : ℤ) => error ≠ 0
  | nrfConnect .. => fun (error : ℤ) => error ≠ 0
  | _ => fun _ => False

/-- Some call of the log, with its answer, is of the kind `P`. -/
def Has (P : (c : Call) → c.Answer → Prop) (log : List Event) : Prop := ∃ ev ∈ log, P ev.1 ev.2

variable {O : Finset ℤ} {ev : Event} {log log' : List Event} {c : Call} {fd : ℤ}
  {P P' : (c : Call) → c.Answer → Prop}

theorem not_has_nil : ¬Has P [] := by
  rintro ⟨ev, hev, -⟩
  exact List.not_mem_nil hev

theorem has_cons : Has P (ev :: log) ↔ P ev.1 ev.2 ∨ Has P log := by
  simp only [Has, List.mem_cons, or_and_right, exists_or, exists_eq_left]

theorem has_append : Has P (log ++ log') ↔ Has P log ∨ Has P log' := by
  simp only [Has, List.mem_append, or_and_right, exists_or]

theorem not_has_cons (hev : ¬P ev.1 ev.2) (h : ¬Has P log) : ¬Has P (ev :: log) :=
  fun hhas => (has_cons.mp hhas).elim hev h

theorem has_congr (h : ∀ ev ∈ log, P ev.1 ev.2 ↔ P' ev.1 ev.2) : Has P log ↔ Has P' log :=
  exists_congr fun ev => and_congr_right (h ev)

theorem Call.IsSetup.neutral (h : c.IsSetup) : c.Neutral := by
  cases c <;> trivial

theorem effect_of_neutral (h : c.Neutral) (r : c.Answer) : c.effect r O = O := by
  cases c <;> first | rfl | exact h.elim

theorem openAfter_append : openAfter O (log ++ log') = openAfter (openAfter O log) log' := by
  induction log generalizing O with
  | nil => rfl
  | cons ev log ih => exact ih

theorem openAfter_neutral (h : ∀ ev ∈ log, ev.1.Neutral) : openAfter O log = O := by
  induction log with
  | nil => rfl
  | cons ev log ih =>
    obtain ⟨hev, hlog⟩ := List.forall_mem_cons.mp h
    rw [openAfter, effect_of_neutral hev]
    exact ih hlog

def PreparesBy (p : NetProg ℤ) : Prop := p.Ensures fun error log =>
  ∃ ev : Event, log = [ev] ∧ ev.1.IsSetup ∧ (ev.1.SetupFails ev.2 ↔ error ≠ 0)

theorem preparesBy_setsockopt (fd : ℤ) (opt : SockOpt) : PreparesBy (nrfSetsockopt fd opt) :=
  fun _ => ⟨_, rfl, trivial, Iff.rfl⟩

theorem preparesBy_bind (fd : ℤ) (addr : SockaddrIn) : PreparesBy (nrfBind fd addr) :=
  fun _ => ⟨_, rfl, trivial, Iff.rfl⟩

theorem preparesBy_connect (fd : ℤ) (addr : SockaddrIn) : PreparesBy (nrfConnect fd addr) :=
  fun _ => ⟨_, rfl, trivial, Iff.rfl⟩

/-- The socket `fd` was prepared, with an error just when a call has failed. -/
structure Prepared (fd : ℤ) (a : ℤ × ℤ) (log : List Event) : Prop where
  fd_eq : a.2 = fd
  setup : ∀ ev ∈ log, ev.1.IsSetup
  failed_iff : Has Call.SetupFails log ↔ a.1 ≠ 0

theorem prepare_end (fd : ℤ) : (pure (0, fd) : NetProg (ℤ × ℤ)).Ensures (Prepared fd) where
  fd_eq := rfl
  setup := List.forall_mem_nil _
  failed_iff := iff_of_false not_has_nil (not_not.mpr rfl)

theorem prepare_step {p : NetProg ℤ} {q : NetProg (ℤ × ℤ)} (hp : PreparesBy p)
    (hq : q.Ensures (Prepared fd)) :
    (p >>= fun error => if error ≠ 0 then pure (error, fd) else q).Ensures (Prepared fd) := by
  apply hp.bind
  rintro error _ ⟨ev, rfl, hsetup, hfails⟩
  apply Prog.ensures_ite
  · intro herror
    refine ⟨rfl, List.forall_mem_singleton.mpr hsetup, ?_⟩
    exact ⟨fun _ => herror, fun h => ⟨ev, List.mem_singleton_self ev, hfails.mpr h⟩⟩
  · intro herror
    apply hq.mono
    intro a log h
    refine ⟨h.fd_eq, List.forall_mem_cons.mpr ⟨hsetup, h.setup⟩, ?_⟩
    rw [← h.failed_iff, List.singleton_append, has_cons]
    exact or_iff_right fun hf => herror (hfails.mp hf)

end Nrf9160.Net
