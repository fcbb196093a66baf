import Mathlib.Logic.Function.Basic
import Nrf9160.Lib.Protocol
import Nrf9160.Net.Http
import Nrf9160.Net.Ntp

/-! The order in which the network clients call the modem, for any answers it gives: a socket
is used while it is open, it is bound before it is connected, and it moves data after that. -/

namespace Nrf9160.Net

inductive SockState where
  | created
  | bound
  | connected

abbrev Sockets := ℤ → Option SockState

def Call.InOrder (s : Sockets) : Call → Prop
  | nrfSetsockopt fd _ => s fd ≠ none
  | nrfBind fd _ => s fd = some .created
  | nrfConnect fd _ => s fd = some .bound
  | nrfSend fd _ => s fd = some .connected
  | nrfRecv fd _ => s fd = some .connected
  | nrfRecvfrom fd _ => s fd = some .connected
  | nrfClose fd => s fd ≠ none
  | _ => True

def Sockets.set (s : Sockets) (fd : ℤ) (x : Option SockState) : Sockets := Function.update s fd x

def Sockets.next (s : Sockets) : (c : Call) → c.Answer → Sockets
  | .nrfSocket _ => fun (fd : ℤ) => if fd < 0 then s else s.set fd (some .created)
  | .nrfBind fd _ => fun (error : ℤ) => if error ≠ 0 then s else s.set fd (some .bound)
  | .nrfConnect fd _ => fun (error : ℤ) => if error ≠ 0 then s else s.set fd (some .connected)
  | .nrfClose fd => fun _ => s.set fd none
  | _ => fun _ => s

/-- A new socket gets a number that is not in use. -/
def Sockets.Unused (s : Sockets) : (c : Call) → c.Answer → Prop
  | .nrfSocket _ => fun (fd : ℤ) => 0 ≤ fd → s fd = none
  | _ => fun _ => True

def sockets : Protocol Call Call.Answer Sockets where
  ok := Call.InOrder
  legal := Sockets.Unused
  next := Sockets.next

/-! The functions that `httpc_options_t` hands to the HTTP client. -/

inductive HttpcCall where
  | alloc (oldsz newsz : ℕ)
  | connect (domain : String) (port : UInt16)
  | close (socket : ℤ)
  | read (socket : ℤ) (length : ℕ)
  | write (socket : ℤ) (buf : List UInt8)
  | sleep (milliseconds : ℕ)
  | time
  | logger

/-- `connect` stores a socket, `read` and `write` a length, and `alloc` answers whether there
is memory. -/
@[reducible] def HttpcCall.Answer : HttpcCall → Type
  | alloc .. => Bool
  | connect .. => ℤ × ℤ
  | close _ => ℤ
  | read .. => ℤ × ℕ
  | write .. => ℤ × ℕ
  | sleep _ => ℤ
  | time => ℤ
  | logger => ℤ

abbrev HttpcProg := Prog HttpcCall HttpcCall.Answer

def httpcOptions : (c : HttpcCall) → NetProg c.Answer
  | .alloc _ _ => return false
  | .connect domain port => httpcOpen domain port
  | .close socket => httpcClose socket
  | .read socket length => httpcRead socket length
  | .write socket buf => httpcWrite socket buf
  | .sleep _ => return 0
  | .time => return 0
  | .logger => return 0

/-- How a client may use them: `s` are the sockets that it has opened and not closed. -/
def HttpcCall.InOrder (s : ℤ → Bool) : HttpcCall → Prop
  | close socket => s socket = true
  | read socket _ => s socket = true
  | write socket _ => s socket = true
  | _ => True

def HttpcCall.held (s : ℤ → Bool) : (c : HttpcCall) → c.Answer → ℤ → Bool
  | connect .. => fun a => if a.1 = 0 then Function.update s a.2 true else s
  | close socket => fun _ => Function.update s socket false
  | _ => fun _ => s

def HttpcCall.Unheld (s : ℤ → Bool) : (c : HttpcCall) → c.Answer → Prop
  | connect .. => fun a => a.1 = 0 → s a.2 = false
  | _ => fun _ => True

def httpcUse : Protocol HttpcCall HttpcCall.Answer (ℤ → Bool) where
  ok := HttpcCall.InOrder
  legal := HttpcCall.Unheld
  next := HttpcCall.held

variable {s t : Sockets} {fd : ℤ} {x y : Option SockState}

@[simp] theorem set_self : s.set fd x fd = x := Function.update_self ..

@[simp] theorem set_set : (s.set fd x).set fd y = s.set fd y := Function.update_idem ..

theorem set_of_ne {fd' : ℤ} (h : fd' ≠ fd) : s.set fd x fd' = s fd' := Function.update_of_ne h ..

theorem set_none (h : s fd = none) : s.set fd none = s := by
  rw [Sockets.set, ← h]
  exact Function.update_eq_self fd s

section

variable {α : Type} {Q : α → Sockets → Prop} {p f : ℤ → NetProg α} {q : NetProg α}
  {addr : SockaddrIn}

theorem obeys_panic : (panic : NetProg α).Obeys sockets Q s := ⟨trivial, fun e : Empty => nomatch e⟩

theorem obeys_socket (type : SockType) (hp : ∀ fd, (p fd).Obeys sockets Q s)
    (hf : ∀ fd, s fd = none → (f fd).Obeys sockets Q (s.set fd (some .created))) :
    (nrfSocket type >>= fun fd => if fd < 0 then p fd else f fd).Obeys sockets Q s := by
  refine ⟨trivial, fun (fd : ℤ) hlegal => Prog.obeys_ite (fun hfd => ?_) fun hfd => ?_⟩
  · have hnext : sockets.next s (.nrfSocket type) fd = s := if_pos hfd
    rw [hnext]
    exact hp fd
  · have hnext : sockets.next s (.nrfSocket type) fd = s.set fd (some .created) := if_neg hfd
    rw [hnext]
    exact hf fd (hlegal (Int.not_lt.mp hfd))

theorem obeys_getaddrinfo {domain pdn : String} {f : ℤ × SockaddrIn → NetProg α}
    (hf : ∀ r, (f r).Obeys sockets Q s) : (nrfGetaddrinfo domain pdn >>= f).Obeys sockets Q s :=
  ⟨trivial, fun r _ => hf r⟩

theorem obeys_setsockopt (opt : SockOpt) (h : s fd ≠ none)
    (hf : ∀ error, (f error).Obeys sockets Q s) :
    (nrfSetsockopt fd opt >>= f).Obeys sockets Q s := ⟨h, fun error _ => hf error⟩

theorem obeys_bind (h : s fd = some .created) (hp : ∀ error ≠ 0, (p error).Obeys sockets Q s)
    (hq : q.Obeys sockets Q (s.set fd (some .bound))) :
    (nrfBind fd addr >>= fun error => if error ≠ 0 then p error else q).Obeys sockets Q s := by
  refine ⟨h, fun (error : ℤ) _ => Prog.obeys_ite (fun herror => ?_) fun herror => ?_⟩
  · have hnext : sockets.next s (.nrfBind fd addr) error = s := if_pos herror
    rw [hnext]
    exact hp error herror
  · have hnext : sockets.next s (.nrfBind fd addr) error = s.set fd (some .bound) := if_neg herror
    rw [hnext]
    exact hq

theorem obeys_connect (h : s fd = some .bound) (hp : ∀ error ≠ 0, (p error).Obeys sockets Q s)
    (hq : q.Obeys sockets Q (s.set fd (some .connected))) :
    (nrfConnect fd addr >>= fun error => if error ≠ 0 then p error else q).Obeys sockets Q s := by
  refine ⟨h, fun (error : ℤ) _ => Prog.obeys_ite (fun herror => ?_) fun herror => ?_⟩
  · have hnext : sockets.next s (.nrfConnect fd addr) error = s := if_pos herror
    rw [hnext]
    exact hp error herror
  · have hnext : sockets.next s (.nrfConnect fd addr) error = s.set fd (some .connected) :=
      if_neg herror
    rw [hnext]
    exact hq

theorem obeys_send {buf : List UInt8} (h : s fd = some .connected)
    (hf : ∀ n, (f n).Obeys sockets Q s) : (nrfSend fd buf >>= f).Obeys sockets Q s :=
  ⟨h, fun n _ => hf n⟩

theorem obeys_recv {length : ℕ} (h : s fd = some .connected)
    (hf : ∀ n, (f n).Obeys sockets Q s) : (nrfRecv fd length >>= f).Obeys sockets Q s :=
  ⟨h, fun n _ => hf n⟩

theorem obeys_close {f : ℤ → NetProg α} (h : s fd ≠ none)
    (hf : ∀ e, (f e).Obeys sockets Q (s.set fd none)) :
    (nrfClose fd >>= f).Obeys sockets Q s := ⟨h, fun e _ => hf e⟩

end

theorem open_of_eq {y : SockState} (h : s fd = some y) : s fd ≠ none := by
  rw [h]
  exact Option.some_ne_none y

/-- A connected socket is the only thing that a client comes out with. -/
theorem tcpConnect_obeys (domain : String) (port : UInt16) (s : Sockets) :
    (tcpConnect domain port).Obeys sockets
      (fun fd t => s fd = none ∧ t = s.set fd (some .connected)) s := by
  refine obeys_socket _ (fun _ => obeys_panic) fun fd hnew => ?_
  refine obeys_setsockopt _ (open_of_eq set_self) fun _ => obeys_getaddrinfo fun r => ?_
  refine Prog.obeys_ite (fun _ => obeys_panic) fun _ => ?_
  refine obeys_bind set_self (fun _ _ => obeys_panic) ?_
  rw [set_set]
  refine obeys_connect set_self (fun _ _ => obeys_panic) ?_
  rw [set_set]
  exact ⟨hnew, rfl⟩

theorem connectToServer_obeys (s : Sockets) :
    connectToServer.Obeys sockets (fun _ t => t = s) s := by
  apply Prog.Obeys.bind (tcpConnect_obeys TCP_HOST TCP_PORT s)
  rintro fd _ ⟨hnew, rfl⟩
  have hclosed : (s.set fd (some .connected)).set fd none = s := by
    rw [set_set, set_none hnew]
  refine obeys_send set_self fun n => Prog.obeys_ite (fun _ => ?_) fun _ => ?_
  · exact obeys_close (open_of_eq set_self) fun _ => hclosed
  · exact obeys_close (open_of_eq set_self) fun _ => hclosed

/-- What `ntp_connect` returns with: no socket, a connected one, or one that is left behind. -/
theorem ntpConnect_obeys (fd0 : ℤ) (serverAddr : SockaddrIn) (s : Sockets) :
    (ntpConnect fd0 serverAddr).Obeys sockets (fun a t =>
      a.1 = 0 ∧ s a.2 = none ∧ t = s.set a.2 (some .connected) ∨
        a.1 ≠ 0 ∧ (t = s ∨ ∃ x, s a.2 = none ∧ t = s.set a.2 x)) s := by
  refine obeys_socket _ (fun fd => ?_) fun fd hnew => ?_
  · exact .inr ⟨(by decide : (-1 : ℤ) ≠ 0), .inl rfl⟩
  have hleft (x : Option SockState) : ∀ error ≠ 0,
      (pure (error, fd) : NetProg (ℤ × ℤ)).Obeys sockets (fun a t =>
        a.1 = 0 ∧ s a.2 = none ∧ t = s.set a.2 (some .connected) ∨
          a.1 ≠ 0 ∧ (t = s ∨ ∃ x, s a.2 = none ∧ t = s.set a.2 x)) (s.set fd x) :=
    fun error herror => .inr ⟨herror, .inr ⟨x, hnew, rfl⟩⟩
  refine obeys_setsockopt _ (open_of_eq set_self) fun e => Prog.obeys_ite (hleft _ e) fun _ => ?_
  refine obeys_setsockopt _ (open_of_eq set_self) fun e => Prog.obeys_ite (hleft _ e) fun _ => ?_
  refine obeys_setsockopt _ (open_of_eq set_self) fun e => Prog.obeys_ite (hleft _ e) fun _ => ?_
  refine obeys_bind set_self (hleft _) ?_
  rw [set_set]
  refine obeys_connect set_self (hleft _) ?_
  rw [set_set]
  exact .inl ⟨rfl, hnew, rfl⟩

theorem printTime_obeys (unixtime : UInt32) (s : Sockets) :
    (printTime unixtime).Obeys sockets (fun _ t => t = s) s := by
  refine ⟨trivial, fun (t : Bool) _ => ?_⟩
  cases t with
  | false => exact rfl
  | true => exact ⟨trivial, fun _ _ => rfl⟩

/-- Where `ntp_main` leaves a socket behind, its result is an error. -/
theorem ntpMain_obeys (fd0 : ℤ) (s : Sockets) : (ntpMain fd0).Obeys sockets
    (fun ret t => t = s ∨ ret ≠ 0 ∧ ∃ fd x, s fd = none ∧ t = s.set fd x) s := by
  refine obeys_getaddrinfo fun r => Prog.obeys_ite (fun _ => .inl rfl) fun _ => ?_
  apply Prog.Obeys.bind (ntpConnect_obeys fd0 r.2 s)
  rintro ⟨error, fd⟩ t (⟨rfl, hnew, rfl⟩ | ⟨herror, ht⟩)
  · have hclosed : (s.set fd (some .connected)).set fd none = s := by
      rw [set_set, set_none hnew]
    have hopen : s.set fd (some .connected) fd ≠ none := open_of_eq set_self
    refine obeys_send set_self fun n => Prog.obeys_ite (fun _ => ?_) fun _ => ?_
    · exact obeys_close hopen fun _ => .inl hclosed
    refine ⟨set_self, fun r _ => Prog.obeys_ite (fun _ => ?_) fun _ => ?_⟩
    · exact obeys_close hopen fun _ => .inl hclosed
    apply Prog.Obeys.bind (printTime_obeys _ _)
    rintro _ _ rfl
    exact obeys_close hopen fun _ => .inl hclosed
  · refine Prog.obeys_ite (fun _ => ?_) fun h => absurd herror h
    rcases ht with ht | ⟨x, hnew, ht⟩
    · exact .inl ht
    · exact .inr ⟨herror, fd, x, hnew, ht⟩

/-- The sockets as they were, and those that the client holds, which are connected. -/
structure Serves (s : Sockets) (held : ℤ → Bool) (t : Sockets) : Prop where
  connected : ∀ fd, held fd = true → s fd = none ∧ t fd = some .connected
  kept : ∀ fd, s fd ≠ none → t fd = s fd

theorem Serves.opened {held : ℤ → Bool} (h : Serves s held t) (hnew : t fd = none) :
    held fd = false ∧ Serves s (Function.update held fd true) (t.set fd (some .connected)) := by
  have hs : s fd = none := by
    by_contra hs
    exact hs ((h.kept fd hs).symm.trans hnew)
  constructor
  · by_contra hheld
    have hc := (h.connected fd (Bool.not_eq_false _ ▸ hheld)).2
    rw [hnew] at hc
    cases hc
  · constructor
    · intro fd' hheld
      by_cases hfd : fd' = fd
      · subst hfd
        exact ⟨hs, set_self⟩
      · rw [Function.update_of_ne hfd] at hheld
        rw [set_of_ne hfd]
        exact h.connected fd' hheld
    · intro fd' hs'
      have hfd : fd' ≠ fd := fun he => hs' (he ▸ hs)
      rw [set_of_ne hfd]
      exact h.kept fd' hs'

theorem Serves.closed {held : ℤ → Bool} (h : Serves s held t) (socket : ℤ) :
    Serves s (Function.update held socket false) t where
  connected fd hheld := by
    by_cases hfd : fd = socket
    · rw [hfd, Function.update_self] at hheld
      cases hheld
    · rw [Function.update_of_ne hfd] at hheld
      exact h.connected fd hheld
  kept := h.kept

theorem httpcOptions_obeys {held : ℤ → Bool} (h : Serves s held t) (c : HttpcCall)
    (hc : c.InOrder held) : (httpcOptions c).Obeys sockets
      (fun a t => c.Unheld held a ∧ Serves s (c.held held a) t) t := by
  cases c with
  | alloc | sleep | time | logger => exact ⟨trivial, h⟩
  | connect domain port =>
    apply Prog.Obeys.bind (tcpConnect_obeys domain port t)
    rintro fd _ ⟨hnew, rfl⟩
    obtain ⟨hheld, hserves⟩ := h.opened hnew
    have hnext : HttpcCall.held held (.connect domain port) (0, fd) =
        Function.update held fd true := rfl
    exact ⟨fun _ => hheld, hnext ▸ hserves⟩
  | close socket => exact ⟨trivial, h.closed socket⟩
  | read socket length =>
    refine obeys_recv (h.connected socket hc).2 fun n => ?_
    exact Prog.obeys_ite (fun _ => ⟨trivial, h⟩) fun _ => ⟨trivial, h⟩
  | write socket buf =>
    refine obeys_send (h.connected socket hc).2 fun n => ?_
    exact Prog.obeys_ite (fun _ => ⟨trivial, h⟩) fun _ => ⟨trivial, h⟩

/-- Whatever a client does on top of the transport, as long as it reads and writes on the
sockets that it holds, the modem sees connected sockets used, and the others as they were. -/
theorem httpc_obeys {α : Type} {client : HttpcProg α} {Q : α → (ℤ → Bool) → Prop} (s : Sockets)
    (hclient : client.Obeys httpcUse Q fun _ => false) :
    (client.interpret httpcOptions).Obeys sockets (fun _ t => ∃ held, Serves s held t) s := by
  apply Prog.Obeys.mono
  · apply Prog.Obeys.interpret (A := Serves s) _ hclient
    · exact ⟨fun fd h => absurd h Bool.false_ne_true, fun fd _ => rfl⟩
    · exact fun held t c h hc => httpcOptions_obeys h c hc
  · rintro a t ⟨held, h, -⟩
    exact ⟨held, h⟩

end Nrf9160.Net
