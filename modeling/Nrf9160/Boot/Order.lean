import Nrf9160.Boot.Main

/-! The order of what `main` does to the modem, from the start up to its last loop. -/

namespace Nrf9160.Boot

/-- What the modem has been told, whatever it has answered: `cfun` is the functional mode that
was asked for last. -/
structure Board where
  modem : Bool := false
  cfun : Option ℕ := none
  system : Bool := false
  psm : Bool := false
  sockets : Net.Sockets := fun _ => none
  receiver : Gnss.Receiver := {}

/-- Flight mode is the first; normal mode is asked for when the system mode and the power saving
mode have been, and LTE is turned off again before GNSS is turned on. -/
def At.InOrder (s : Board) : At → Prop
  | flight => s.cfun = none
  | normal => s.cfun = some 4 ∧ s.system = true ∧ s.psm = true
  | cesq => s.cfun = some 1
  | lteDisable => s.cfun = some 1
  | edrxDisable => s.cfun = some 20
  | gpsEnable => s.cfun = some 20
  | _ => s.cfun = some 4

def Board.at (s : Board) : At → Board
  | .flight => { s with cfun := some 4 }
  | .normal => { s with cfun := some 1 }
  | .lteDisable => { s with cfun := some 20 }
  | .gpsEnable => { s with cfun := some 31 }
  | .catm1Gps => { s with system := true }
  | .psmReq => { s with psm := true }
  | _ => s

/-- The library is initialised once and before anything else, commands are in order, there is
a query or a socket call only while normal mode is the last that was asked for, and a call to
the receiver only after that. -/
def Call.InOrder (s : Board) : Call → Prop
  | nrfModemInit => s.modem = false
  | nrfModemAtNotifHandlerSet => s.modem = true
  | nrfModemBuildVersion => s.modem = true
  | nrfModemAtPrintf cmd => s.modem = true ∧ cmd.InOrder s
  | nrfModemAtErrType err => s.modem = true ∧ err ≠ 0
  | nrfModemAtScanf => s.modem = true ∧ s.cfun = some 1
  | nrfModemAtCmdAsync cmd => s.modem = true ∧ cmd.InOrder s
  | net c => s.modem = true ∧ s.cfun = some 1 ∧ c.InOrder s.sockets
  | gnss c => s.modem = true ∧ s.cfun = some 31 ∧ s.system = true ∧ c.InOrder s.receiver
  | _ => True

def Board.next (s : Board) : (c : Call) → c.Answer → Board
  | .nrfModemInit => fun (error : ℤ) => if error ≠ 0 then s else { s with modem := true }
  | .nrfModemAtPrintf cmd => fun _ => s.at cmd
  | .net c => fun (r : c.Answer) => { s with sockets := s.sockets.next c r }
  | .gnss c => fun (error : ℤ) => { s with receiver := s.receiver.next c error }
  | _ => fun _ => s

def Board.Unused (s : Board) : (c : Call) → c.Answer → Prop
  | .net c => fun (r : c.Answer) => s.sockets.Unused c r
  | _ => fun _ => True

def order : Protocol Call Call.Answer Board where
  ok := Call.InOrder
  legal := Board.Unused
  next := Board.next

section

variable {α β : Type} {Q : α → Board → Prop} {P : β → Board → Prop} {s : Board}

theorem obeys_panic : (panic : BootProg α).Obeys order Q s := ⟨trivial, fun e : Empty => nomatch e⟩

theorem obeys_ask {c : Call} {f : c.Answer → BootProg α} (h : c.InOrder s)
    (hf : ∀ r, s.Unused c r → (f r).Obeys order Q (s.next c r)) :
    (ask c >>= f).Obeys order Q s := ⟨h, hf⟩

/-- A program of the network clients leaves all but the sockets alone. -/
theorem obeys_net {p : Net.NetProg α} {R : α → Net.Sockets → Prop} (hm : s.modem = true)
    (hc : s.cfun = some 1) (hp : p.Obeys Net.sockets R s.sockets) :
    (net p).Obeys order (fun a t => R a t.sockets ∧ t = { s with sockets := t.sockets }) s := by
  apply Prog.Obeys.mono
  · apply Prog.Obeys.interpret
      (A := fun x t => t.sockets = x ∧ t = { s with sockets := t.sockets }) _ hp ⟨rfl, rfl⟩
    rintro _ t c ⟨rfl, ht⟩ hok
    rw [ht]
    exact ⟨⟨hm, hc, hok⟩, fun r hr => ⟨hr, rfl, rfl⟩⟩
  · rintro a t ⟨_, ⟨rfl, ht⟩, hR⟩
    exact ⟨hR, ht⟩

theorem obeys_gnss {p : Gnss.GnssProg α} {R : α → Gnss.Receiver → Prop} (hm : s.modem = true)
    (hc : s.cfun = some 31) (hs : s.system = true) (hp : p.Obeys Gnss.receiver R s.receiver) :
    (gnss p).Obeys order (fun a t => R a t.receiver ∧ t = { s with receiver := t.receiver }) s := by
  apply Prog.Obeys.mono
  · apply Prog.Obeys.interpret
      (A := fun x t => t.receiver = x ∧ t = { s with receiver := t.receiver }) _ hp ⟨rfl, rfl⟩
    rintro _ t c ⟨rfl, ht⟩ hok
    rw [ht]
    exact ⟨⟨hm, hc, hs, hok⟩, fun r _ => ⟨trivial, rfl, rfl⟩⟩
  · rintro a t ⟨_, ⟨rfl, ht⟩, hR⟩
    exact ⟨hR, ht⟩

theorem modem_at (cmd : At) : (s.at cmd).modem = s.modem := by
  cases cmd <;> rfl

theorem obeys_lteAt {cmd : At} {f : ℤ → BootProg α} (hm : s.modem = true) (h : cmd.InOrder s)
    (hf : ∀ err, (f err).Obeys order Q (s.at cmd)) : (lteAt cmd >>= f).Obeys order Q s := by
  have hcmd : (lteAt cmd).Obeys order (fun _ t => t = s.at cmd) s := by
    refine obeys_ask ⟨hm, h⟩ fun err _ => Prog.obeys_ite (fun herr => ?_) fun _ => ?_
    · exact obeys_ask ⟨(modem_at cmd).trans hm, herr⟩ fun _ _ => rfl
    · exact rfl
  apply hcmd.bind
  rintro err _ rfl
  exact hf err

theorem obeys_usleep {usec : UInt32} {f : Unit → BootProg α} (hf : (f ()).Obeys order Q s) :
    (ask (.mdxUsleep usec) >>= f).Obeys order Q s := obeys_ask trivial fun _ _ => hf

end

/-- The board when normal mode has been asked for. -/
def Board.up (s : Board) : Board := { s with cfun := some 1, system := true, psm := true }

theorem lteWait_obeys {s : Board} (hm : s.modem = true) (hc : s.cfun = some 1) (n : ℕ)
    (l : Lte.Locals) : (lteWait n l).Obeys order (fun _ t => t = s) s := by
  induction n generalizing l with
  | zero => exact rfl
  | succ n ih =>
    refine obeys_ask ⟨hm, hc⟩ fun q _ => ?_
    cases Lte.switchStatus (l.scan q).status with
    | some r => exact rfl
    | none => exact obeys_usleep (ih _)

theorem lteSignal_obeys {s : Board} (hm : s.modem = true) (hc : s.cfun = some 1) :
    lteSignal.Obeys order (fun _ t => t = s) s :=
  obeys_ask ⟨hm, hc⟩ fun _ _ => Prog.obeys_ite (fun _ => rfl) fun _ => rfl

/-- Where `main` can be when it has left its straight course, and what the modem is doing. -/
def Place.Reached (s : Board) : Place → Prop
  | waiting => s = Board.up { modem := true }
  | idle error => s.cfun = some 31 ∧ if error = 0 then s.receiver.started = true
      else s.receiver.started = false

variable {E : Start}

/-- The client uses the functions that `http.c` gives it as they are meant. -/
def Start.Uses (E : Start) : Prop :=
  E.httpcGet.Obeys Net.httpcUse (fun _ _ => True) fun _ => false

theorem httpcMain_obeys {s : Board} (hE : E.Uses) (hm : s.modem = true) (hc : s.cfun = some 1) :
    (httpcMain E).Obeys order (fun _ t => t = { s with sockets := t.sockets }) s := by
  refine obeys_ask trivial fun _ _ => ?_
  apply Prog.Obeys.bind (obeys_net hm hc (Net.httpc_obeys s.sockets hE))
  rintro _ t ⟨-, ht⟩
  exact ht

theorem traffic_obeys {s : Board} (hm : s.modem = true) (hc : s.cfun = some 1) (r : ℤ) :
    (if r = 0 then traffic E else pure 0).Obeys order
      (fun _ t => t = { s with sockets := t.sockets }) s := by
  refine Prog.obeys_ite (fun _ => ?_) fun _ => rfl
  apply (lteSignal_obeys hm hc).bind
  rintro _ _ rfl
  apply (obeys_net hm hc (Net.ntpMain_obeys E.fd0 _)).bind
  rintro _ t ⟨-, ht⟩
  have hm' : t.modem = true := by rw [ht]; exact hm
  have hc' : t.cfun = some 1 := by rw [ht]; exact hc
  apply (obeys_net hm' hc' (Net.connectToServer_obeys _)).mono
  rintro _ u ⟨-, hu⟩
  rw [hu, ht]

theorem lteConnect_obeys (hE : E.Uses) (n : ℕ) {s : Board} (hm : s.modem = true)
    (hc : s.cfun = none) : (lteConnect E n).Obeys order (fun o t => match o with
      | none => t = s.up
      | some _ =>
        t.modem = true ∧ t.cfun = some 31 ∧ t.system = true ∧ t.receiver = s.receiver) s := by
  refine obeys_lteAt hm hc fun _ => ?_
  refine obeys_lteAt hm rfl fun _ => obeys_lteAt hm rfl fun _ => obeys_lteAt hm rfl fun _ => ?_
  refine obeys_lteAt hm rfl fun _ => obeys_lteAt hm rfl fun _ => obeys_lteAt hm rfl fun _ => ?_
  refine obeys_lteAt hm rfl fun _ => obeys_lteAt hm rfl fun _ => obeys_lteAt hm rfl fun _ => ?_
  refine obeys_lteAt hm rfl fun _ => obeys_lteAt hm ⟨rfl, rfl, rfl⟩ fun _ => ?_
  apply Prog.Obeys.bind (lteWait_obeys (s := s.up) hm rfl n ⟨E.status, 0⟩)
  rintro (_ | r) _ rfl
  · exact rfl
  apply Prog.Obeys.bind (traffic_obeys (s := s.up) hm rfl r)
  rintro _ t ht
  have hm' : t.modem = true := by rw [ht]; exact hm
  have hc' : t.cfun = some 1 := by rw [ht]; rfl
  apply Prog.Obeys.bind (httpcMain_obeys hE hm' hc')
  rintro _ u hu
  have hm'' : u.modem = true := by rw [hu]; exact hm'
  have hc'' : u.cfun = some 1 := by rw [hu]; exact hc'
  refine obeys_usleep (obeys_lteAt hm'' hc'' fun _ => ?_)
  refine obeys_usleep (obeys_lteAt hm'' rfl fun _ => ?_)
  refine obeys_usleep (obeys_lteAt hm'' rfl fun _ => obeys_usleep ?_)
  refine ⟨hm'', rfl, ?_, ?_⟩
  · show u.system = true
    rw [hu, ht]
    rfl
  · show u.receiver = s.receiver
    rw [hu, ht]
    rfl

theorem main_obeys (hE : E.Uses) (n : ℕ) :
    (main E n).Obeys order (fun p t => p.Reached t) {} := by
  refine obeys_ask trivial fun uart _ => Prog.obeys_ite (fun _ => obeys_panic) fun _ => ?_
  refine obeys_ask trivial fun _ _ => obeys_ask rfl fun (error : ℤ) _ => ?_
  refine Prog.obeys_ite (fun _ => obeys_panic) fun herror => ?_
  have hnext : Board.next {} .nrfModemInit error = { modem := true } := if_neg herror
  show Prog.Obeys order _ _ (Board.next {} .nrfModemInit error)
  rw [hnext]
  refine obeys_ask rfl fun _ _ => obeys_ask rfl fun _ _ => ?_
  apply Prog.Obeys.bind (lteConnect_obeys hE n rfl rfl)
  rintro (_ | _) t ht
  · exact ht
  obtain ⟨hm, hc, hs, hr⟩ := ht
  refine obeys_ask trivial fun _ _ => ?_
  replace hr : t.receiver = {} := hr
  have hgps : Gnss.gpsInit.Obeys Gnss.receiver _ t.receiver := hr ▸ Gnss.gpsInit_obeys
  apply Prog.Obeys.bind (obeys_gnss hm hc hs hgps)
  rintro error u ⟨hstarted, hu⟩
  refine ⟨?_, hstarted⟩
  rw [hu]
  exact hc

/-- Whatever the modem answers, at every call of every run of `main`, the ones that end in a
panic or in the loop of `lte_wait` included, the call is in order. -/
theorem boot_ordered (hE : E.Uses) (n : ℕ) :
    (∀ log c k, (main E n).Steps log (.call c k) → order.Legal {} log →
        c.InOrder (order.after {} log)) ∧
      ∀ log p, (main E n).Steps log (.ret p) → order.Legal {} log →
        p.Reached (order.after {} log) :=
  Prog.obeys_iff.mp (main_obeys hE n)

/-- A client that sends a request and reads one answer. -/
def sampleStart : Start where
  status := 0
  fd0 := 0
  httpcGet := do
    let a ← .call (.connect "xdma.org" 80) .ret
    if a.1 ≠ 0 then
      return a.1
    let _ ← .call (.write a.2 [71]) .ret
    let _ ← .call (.read a.2 64) .ret
    .call (.close a.2) .ret

theorem sampleStart_uses : sampleStart.Uses := by
  refine ⟨trivial, fun a _ => Prog.obeys_ite (fun _ => trivial) fun ha => ?_⟩
  have hheld : Net.HttpcCall.held (fun _ => false) (.connect "xdma.org" 80) a a.2 = true := by
    have hnext : Net.HttpcCall.held (fun _ => false) (.connect "xdma.org" 80) a =
        Function.update (fun _ => false) a.2 true := if_pos (not_not.mp ha)
    rw [hnext, Function.update_self]
  exact ⟨hheld, fun _ _ => ⟨hheld, fun _ _ => ⟨hheld, fun _ _ => trivial⟩⟩⟩

/-- The registration is denied, and the client is connected all the same. -/
def deniedLog : List (Sigma Call.Answer) :=
  [⟨.mdxDeviceLookupByName, true⟩, ⟨.nrfUarteRegisterCallback, ()⟩, ⟨.nrfModemInit, (0 : ℤ)⟩,
    ⟨.nrfModemAtNotifHandlerSet, ()⟩, ⟨.nrfModemBuildVersion, ()⟩] ++
  ([.flight, .systmMode, .catm1Gps, .magpio, .coex0, .psmReq, .cind, .edrxReq, .xdataprfl,
    .lockBands, .subscribe, .normal].map fun cmd => ⟨.nrfModemAtPrintf cmd, (0 : ℤ)⟩) ++
  [⟨.nrfModemAtScanf, (⟨2, some 3, none⟩ : Lte.Query)⟩, ⟨.mdxUptime, (0 : UInt64)⟩,
    ⟨.net (.nrfSocket .NRF_SOCK_STREAM), (5 : ℤ)⟩,
    ⟨.net (.nrfSetsockopt 5 (.NRF_SO_BINDTOPDN 0)), (0 : ℤ)⟩,
    ⟨.net (.nrfGetaddrinfo "xdma.org" "pdn0"), ((0, ⟨0, 0⟩) : ℤ × Net.SockaddrIn)⟩,
    ⟨.net (.nrfBind 5 ⟨0, 0⟩), (0 : ℤ)⟩, ⟨.net (.nrfConnect 5 ⟨0, 80⟩), (0 : ℤ)⟩]

theorem steps_denied :
    ∃ k, (main sampleStart 1).Steps deniedLog (.call (.net (.nrfSend 5 [71])) k) := by
  apply Exists.intro
  repeat apply Prog.Steps.call
  exact .nil _

theorem legal_denied : order.Legal {} deniedLog := by
  repeat apply And.intro trivial
  -- the number of the new socket
  refine ⟨fun _ => rfl, ?_⟩
  repeat apply And.intro trivial
  exact trivial

theorem boot_ordered_denied :
    (∃ k, (main sampleStart 1).Steps deniedLog (.call (.net (.nrfSend 5 [71])) k)) ∧
      (order.after {} deniedLog).sockets 5 = some .connected := by
  obtain ⟨k, hk⟩ := steps_denied
  exact ⟨⟨k, hk⟩, ((boot_ordered sampleStart_uses 1).1 _ _ k hk legal_denied).2.2⟩

end Nrf9160.Boot
