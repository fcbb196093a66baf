import Mathlib.Data.Int.Notation
import Mathlib.Logic.Basic
import Nrf9160.Lib.Prog

/-! `gnss_event_handler`: what it prints of the frames that the modem hands out, over any
sequence of events. -/

namespace Nrf9160.Gnss

structure Sv where
  sv : UInt16
  signal : UInt8
  cn0 : UInt16
  elevation : Int16
  azimuth : Int16
  flags : UInt8

structure PvtDataFrame (Coord : Type) where
  sv : List Sv
  flags : UInt8
  latitude : Coord
  longitude : Coord

/-- The constants of the modem library, and the `ftoa` of the kernel. -/
structure Header (Coord : Type) where
  NRF_MODEM_GNSS_EVT_PVT : Int32
  NRF_MODEM_GNSS_EVT_NMEA : Int32
  NRF_MODEM_GNSS_EVT_AGNSS_REQ : Int32
  NRF_MODEM_GNSS_SV_FLAG_USED_IN_FIX : UInt8
  NRF_MODEM_GNSS_SV_FLAG_UNHEALTHY : UInt8
  NRF_MODEM_GNSS_PVT_FLAG_NOT_ENOUGH_WINDOW_TIME : UInt8
  NRF_MODEM_GNSS_PVT_FLAG_DEADLINE_MISSED : UInt8
  NRF_MODEM_GNSS_PVT_FLAG_FIX_VALID : UInt8
  ftoa : Coord → String

/-- What is printed, without the fixed parts of the texts. -/
inductive Line where
  | satellite (sv : Sv)
  | satInFix (sv : UInt16)
  | satUnhealthy (sv : UInt16)
  | couldNotReadPvt
  | gpsBlocked
  | deadlineMissed
  | pvtData (lat lon : String)
  | nmeaData (nmeaStr : String)
  | agnssDataId
  | unknownEvent (event : Int32)

/-- A read answers with its error and with what is in the memory for the frame, which is left
as it was if there is an error. -/
inductive EventCall where
  | readPvt
  | readNmea
  | printf (line : Line)

variable {Coord : Type}

@[reducible] def EventCall.Answer (Coord : Type) : EventCall → Type
  | .readPvt => ℤ × PvtDataFrame Coord
  | .readNmea => ℤ × String
  | .printf _ => Unit

abbrev EventProg (Coord : Type) := Prog EventCall (EventCall.Answer Coord)

def printf (line : Line) : EventProg Coord Unit := .call (.printf line) .ret

def readPvt : EventProg Coord (ℤ × PvtDataFrame Coord) := .call .readPvt .ret

def readNmea : EventProg Coord (ℤ × String) := .call .readNmea .ret

/-- The body of the loop of `print_stats`. -/
def printSv (H : Header Coord) (sv : Sv) : EventProg Coord Unit :=
  if 0 < sv.sv ∧ sv.sv ≤ 32 then do
    printf (.satellite sv)
    (if sv.flags &&& H.NRF_MODEM_GNSS_SV_FLAG_USED_IN_FIX ≠ 0 then printf (.satInFix sv.sv)
      else pure ())
    (if sv.flags &&& H.NRF_MODEM_GNSS_SV_FLAG_UNHEALTHY ≠ 0 then printf (.satUnhealthy sv.sv)
      else pure ())
  else pure ()

def printStats (H : Header Coord) : List Sv → EventProg Coord Unit
  | [] => return ()
  | sv :: svs => do
    printSv H sv
    printStats H svs

def printFix (H : Header Coord) (pvt : PvtDataFrame Coord) : EventProg Coord Unit :=
  if pvt.flags &&& H.NRF_MODEM_GNSS_PVT_FLAG_NOT_ENOUGH_WINDOW_TIME ≠ 0 then printf .gpsBlocked
  else if pvt.flags &&& H.NRF_MODEM_GNSS_PVT_FLAG_DEADLINE_MISSED ≠ 0 then printf .deadlineMissed
  else if pvt.flags &&& H.NRF_MODEM_GNSS_PVT_FLAG_FIX_VALID ≠ 0 then
    printf (.pvtData (H.ftoa pvt.latitude) (H.ftoa pvt.longitude))
  else pure ()

def pvtEvent (H : Header Coord) : EventProg Coord Unit := do
  let (error, pvt) ← readPvt
  if error ≠ 0 then
    printf .couldNotReadPvt
  else
    printStats H pvt.sv
    printFix H pvt

def nmeaEvent : EventProg Coord Unit := do
  let (error, nmeaStr) ← readNmea
  if error = 0 then
    printf (.nmeaData nmeaStr)

def gnssEventHandler (H : Header Coord) (event : Int32) : EventProg Coord Unit :=
  if event = H.NRF_MODEM_GNSS_EVT_PVT then pvtEvent H
  else if event = H.NRF_MODEM_GNSS_EVT_NMEA then nmeaEvent
  else if event = H.NRF_MODEM_GNSS_EVT_AGNSS_REQ then printf .agnssDataId
  else printf (.unknownEvent event)

def handleAll (H : Header Coord) : List Int32 → EventProg Coord Unit
  | [] => return ()
  | event :: events => do
    gnssEventHandler H event
    handleAll H events

abbrev Entry (Coord : Type) := Sigma (EventCall.Answer Coord)

def lineOf : Entry Coord → Option Line
  | ⟨.printf line, _⟩ => some line
  | _ => none

def lines (log : List (Entry Coord)) : List Line := log.filterMap lineOf

/-- A frame that was read, or that there was none. -/
inductive Seen (Coord : Type) where
  | pvt (frame : Option (PvtDataFrame Coord))
  | nmea (nmeaStr : Option String)

def seenOf : Entry Coord → Option (Seen Coord)
  | ⟨.readPvt, a⟩ => some (.pvt (if a.1 = 0 then some a.2 else none))
  | ⟨.readNmea, a⟩ => some (.nmea (if a.1 = 0 then some a.2 else none))
  | _ => none

def seen (log : List (Entry Coord)) : List (Seen Coord) := log.filterMap seenOf

/-! What each event prints of what was read for it. -/

def svLines (H : Header Coord) (sv : Sv) : List Line :=
  if 0 < sv.sv ∧ sv.sv ≤ 32 then
    .satellite sv ::
      ((if sv.flags &&& H.NRF_MODEM_GNSS_SV_FLAG_USED_IN_FIX ≠ 0 then [.satInFix sv.sv] else []) ++
        if sv.flags &&& H.NRF_MODEM_GNSS_SV_FLAG_UNHEALTHY ≠ 0 then [.satUnhealthy sv.sv] else [])
  else []

/-- The receiver was not blocked, nor late, and says that it has a fix. -/
def PvtDataFrame.Valid (H : Header Coord) (pvt : PvtDataFrame Coord) : Prop :=
  pvt.flags &&& H.NRF_MODEM_GNSS_PVT_FLAG_NOT_ENOUGH_WINDOW_TIME = 0 ∧
    pvt.flags &&& H.NRF_MODEM_GNSS_PVT_FLAG_DEADLINE_MISSED = 0 ∧
    pvt.flags &&& H.NRF_MODEM_GNSS_PVT_FLAG_FIX_VALID ≠ 0

instance (H : Header Coord) (pvt : PvtDataFrame Coord) : Decidable (pvt.Valid H) :=
  inferInstanceAs (Decidable (_ ∧ _))

/-- The position that a frame gives. -/
def Seen.position (H : Header Coord) : Seen Coord → Option (String × String)
  | .pvt (some frame) =>
    if frame.Valid H then some (H.ftoa frame.latitude, H.ftoa frame.longitude) else none
  | _ => none

def positionOf : Line → Option (String × String)
  | .pvtData lat lon => some (lat, lon)
  | _ => none

def positions (ls : List Line) : List (String × String) := ls.filterMap positionOf

variable {H : Header Coord} {p q : EventProg Coord Unit} {ls ls' : List Line}

/-- The program prints the lines and reads nothing. -/
def Prints (p : EventProg Coord Unit) (ls : List Line) : Prop :=
  p.Ensures fun _ log => seen log = [] ∧ lines log = ls

theorem prints_pure : Prints (pure () : EventProg Coord Unit) [] := ⟨rfl, rfl⟩

theorem prints_printf (line : Line) : Prints (printf line : EventProg Coord Unit) [line] :=
  fun _ => ⟨rfl, rfl⟩

theorem Prints.bind (hp : Prints p ls) (hq : Prints q ls') :
    Prints (p >>= fun _ => q) (ls ++ ls') := by
  refine Prog.Ensures.bind hp fun _ log ⟨hseen, hlines⟩ => ?_
  refine Prog.Ensures.mono hq fun _ log' ⟨hseen', hlines'⟩ => ?_
  simp only [seen, lines, List.filterMap_append] at *
  simp [hseen, hseen', hlines, hlines']

theorem prints_ite {b : Prop} [Decidable b] (hp : Prints p ls) (hq : Prints q ls') :
    Prints (if b then p else q) (if b then ls else ls') := by
  split_ifs
  · exact hp
  · exact hq

theorem printSv_prints (sv : Sv) : Prints (printSv H sv) (svLines H sv) := by
  refine prints_ite (Prints.bind (prints_printf _) (Prints.bind ?_ ?_)) prints_pure
  · exact prints_ite (prints_printf _) prints_pure
  · exact prints_ite (prints_printf _) prints_pure

theorem printStats_prints (svs : List Sv) :
    Prints (printStats H svs) (svs.flatMap (svLines H)) := by
  induction svs with
  | nil => exact prints_pure
  | cons sv svs ih => exact (printSv_prints sv).bind ih

def fixLines (H : Header Coord) (pvt : PvtDataFrame Coord) : List Line :=
  if pvt.flags &&& H.NRF_MODEM_GNSS_PVT_FLAG_NOT_ENOUGH_WINDOW_TIME ≠ 0 then [.gpsBlocked]
  else if pvt.flags &&& H.NRF_MODEM_GNSS_PVT_FLAG_DEADLINE_MISSED ≠ 0 then [.deadlineMissed]
  else if pvt.flags &&& H.NRF_MODEM_GNSS_PVT_FLAG_FIX_VALID ≠ 0 then
    [.pvtData (H.ftoa pvt.latitude) (H.ftoa pvt.longitude)]
  else []

def Seen.lines (H : Header Coord) : Seen Coord → List Line
  | .pvt none => [.couldNotReadPvt]
  | .pvt (some frame) => frame.sv.flatMap (svLines H) ++ fixLines H frame
  | .nmea none => []
  | .nmea (some nmeaStr) => [.nmeaData nmeaStr]

def Header.Reads (H : Header Coord) (event : Int32) : Prop :=
  event = H.NRF_MODEM_GNSS_EVT_PVT ∨ event = H.NRF_MODEM_GNSS_EVT_NMEA

def Header.fixedLine (H : Header Coord) (event : Int32) : Line :=
  if event = H.NRF_MODEM_GNSS_EVT_AGNSS_REQ then .agnssDataId else .unknownEvent event

/-- An event reads once and prints what it has read, or prints a fixed line. -/
inductive Report (H : Header Coord) (event : Int32) : List (Seen Coord) → List Line → Prop where
  | read (h : H.Reads event) (x : Seen Coord) : Report H event [x] (x.lines H)
  | fixed (h : ¬H.Reads event) : Report H event [] [H.fixedLine event]

inductive Reports (H : Header Coord) : List Int32 → List (Seen Coord) → List Line → Prop where
  | nil : Reports H [] [] []
  | cons {event : Int32} {events : List Int32} {xs xs' : List (Seen Coord)} {ls ls' : List Line}
      (h : Report H event xs ls) (hs : Reports H events xs' ls') :
      Reports H (event :: events) (xs ++ xs') (ls ++ ls')

theorem printFix_prints (pvt : PvtDataFrame Coord) : Prints (printFix H pvt) (fixLines H pvt) :=
  prints_ite (prints_printf _) (prints_ite (prints_printf _)
    (prints_ite (prints_printf _) prints_pure))

/-- A read is the first thing that an event does. -/
theorem ensures_read {k : EventProg Coord Unit} {x : Seen Coord} (hk : Prints k (x.lines H))
    (e : Entry Coord) (hline : lineOf e = none) (hseen : seenOf e = some x) :
    k.Ensures fun _ log => ∃ x : Seen Coord, seen (e :: log) = [x] ∧
      lines (e :: log) = x.lines H := by
  refine Prog.Ensures.mono hk fun _ log ⟨hnone, hlines⟩ => ⟨x, ?_, ?_⟩
  · rw [seen, List.filterMap_cons_some hseen]
    exact congrArg (x :: ·) hnone
  · rw [lines, List.filterMap_cons_none hline]
    exact hlines

theorem pvtEvent_reads : (pvtEvent H).Ensures fun _ log =>
    ∃ x : Seen Coord, seen log = [x] ∧ lines log = x.lines H := by
  intro a
  by_cases herror : a.1 = 0
  · refine ensures_read (x := .pvt (some a.2)) ?_ _ rfl (congrArg (some ∘ Seen.pvt) (if_pos herror))
    show Prints (if a.1 ≠ 0 then _ else _) _
    rw [if_neg (not_not.mpr herror)]
    exact (printStats_prints _).bind (printFix_prints _)
  · refine ensures_read (x := .pvt none) ?_ _ rfl (congrArg (some ∘ Seen.pvt) (if_neg herror))
    show Prints (if a.1 ≠ 0 then _ else _) _
    rw [if_pos herror]
    exact prints_printf _

theorem nmeaEvent_reads : (nmeaEvent : EventProg Coord Unit).Ensures fun _ log =>
    ∃ x : Seen Coord, seen log = [x] ∧ lines log = x.lines H := by
  intro a
  by_cases herror : a.1 = 0
  · refine ensures_read (x := .nmea (some a.2)) ?_ _ rfl
      (congrArg (some ∘ Seen.nmea) (if_pos herror))
    show Prints (if a.1 = 0 then _ else _) _
    rw [if_pos herror]
    exact prints_printf _
  · refine ensures_read (x := .nmea none) ?_ _ rfl (congrArg (some ∘ Seen.nmea) (if_neg herror))
    show Prints (if a.1 = 0 then _ else _) _
    rw [if_neg herror]
    exact prints_pure

theorem gnssEventHandler_reports (event : Int32) : (gnssEventHandler H event).Ensures
    fun _ log => Report H event (seen log) (lines log) := by
  unfold gnssEventHandler
  split_ifs with hpvt hnmea hagnss
  · refine Prog.Ensures.mono pvtEvent_reads fun _ log ⟨x, hx, hl⟩ => ?_
    rw [hx, hl]
    exact .read (.inl hpvt) x
  · refine Prog.Ensures.mono (nmeaEvent_reads (H := H)) fun _ log ⟨x, hx, hl⟩ => ?_
    rw [hx, hl]
    exact .read (.inr hnmea) x
  · refine Prog.Ensures.mono (prints_printf _) fun _ log ⟨hx, hl⟩ => ?_
    have hfixed : H.fixedLine event = .agnssDataId := if_pos hagnss
    rw [hx, hl, ← hfixed]
    exact .fixed fun h => h.elim hpvt hnmea
  · refine Prog.Ensures.mono (prints_printf _) fun _ log ⟨hx, hl⟩ => ?_
    have hfixed : H.fixedLine event = .unknownEvent event := if_neg hagnss
    rw [hx, hl, ← hfixed]
    exact .fixed fun h => h.elim hpvt hnmea

theorem handleAll_reports (events : List Int32) : (handleAll H events).Ensures
    fun _ log => Reports H events (seen log) (lines log) := by
  induction events with
  | nil => exact .nil
  | cons event events ih =>
    refine Prog.Ensures.bind (gnssEventHandler_reports event) fun _ log h => ?_
    refine Prog.Ensures.mono ih fun _ log' h' => ?_
    simp only [seen, lines, List.filterMap_append]
    exact .cons h h'

variable {events : List Int32} {event : Int32} {xs xs' : List (Seen Coord)}

theorem Reports.unique (h : Reports H events xs ls) (h' : Reports H events xs ls') : ls = ls' := by
  induction h generalizing ls' with
  | nil =>
    cases h'
    rfl
  | @cons event events xs xs' ls ls1 hr hs ih =>
    generalize hys : xs ++ xs' = ys at h'
    cases h' with
    | cons hr' hs' =>
      cases hr with
      | read hreads x =>
        cases hr' with
        | read _ y =>
          obtain ⟨rfl, rfl⟩ := List.cons.inj hys
          rw [ih hs']
        | fixed hno => exact absurd hreads hno
      | fixed hno =>
        cases hr' with
        | read hreads y => exact absurd hreads hno
        | fixed _ =>
          obtain rfl : xs' = _ := hys
          rw [ih hs']

theorem positions_append (ls ls' : List Line) :
    positions (ls ++ ls') = positions ls ++ positions ls' := List.filterMap_append

theorem positions_svLines (sv : Sv) : positions (svLines H sv) = [] := by
  unfold svLines
  split_ifs <;> rfl

theorem positions_stats (svs : List Sv) : positions (svs.flatMap (svLines H)) = [] := by
  induction svs with
  | nil => rfl
  | cons sv svs ih =>
    rw [List.flatMap_cons, positions_append, positions_svLines, ih, List.nil_append]

theorem positions_fixLines (pvt : PvtDataFrame Coord) : positions (fixLines H pvt) =
    if pvt.Valid H then [(H.ftoa pvt.latitude, H.ftoa pvt.longitude)] else [] := by
  unfold fixLines PvtDataFrame.Valid
  split_ifs <;> simp_all [positions, positionOf]

theorem positions_lines (x : Seen Coord) :
    positions (x.lines H) = [x].filterMap (Seen.position H) := by
  rcases x with (_ | pvt) | (_ | nmeaStr)
  · rfl
  · show positions (pvt.sv.flatMap (svLines H) ++ fixLines H pvt) = _
    rw [positions_append, positions_stats, positions_fixLines, List.nil_append]
    simp only [List.filterMap_cons, Seen.position, List.filterMap_nil]
    split_ifs <;> rfl
  · rfl
  · rfl

theorem Reports.positions_eq (h : Reports H events xs ls) :
    positions ls = xs.filterMap (Seen.position H) := by
  induction h with
  | nil => rfl
  | cons hr hs ih =>
    rw [positions_append, List.filterMap_append, ih]
    congr 1
    cases hr with
    | read _ x => exact positions_lines x
    | fixed _ =>
      unfold Header.fixedLine
      split_ifs <;> rfl

/-- Over every sequence of events and all answers to their reads: the positions printed are
those of the frames that were read and valid, in their order, and nothing that is printed
depends on what lies in memory for a frame that was not read. -/
theorem events_reported (H : Header Coord) (events : List Int32) :
    (handleAll H events).Ensures fun _ log =>
      positions (lines log) = (seen log).filterMap (Seen.position H) ∧
        (handleAll H events).Ensures fun _ log' =>
          seen log' = seen log → lines log' = lines log := by
  refine Prog.Ensures.mono (handleAll_reports events) fun _ log h => ⟨h.positions_eq, ?_⟩
  refine Prog.Ensures.mono (handleAll_reports events) fun _ log' h' hseen => ?_
  rw [hseen] at h'
  exact h'.unique h

end Nrf9160.Gnss
