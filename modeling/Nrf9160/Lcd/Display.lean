import Nrf9160.Lib.Serial

/-! `lcd.c`: the display on its bit-banged serial line, and what the commands of the display
look like at the other end of it. -/

namespace Nrf9160.Lcd

open Serial

abbrev Pin := ℕ

def LCD_DISP : Pin := 22
def LCD_EXTCOMIN : Pin := 23
def LCD_CS : Pin := 24
def LCD_MOSI : Pin := 25
def LCD_SCK : Pin := 10

def JDI_CMD_ALL_CLEAR : UInt8 := 0x20
def JDI_CMD_INVERSION : UInt8 := 0x14

def LCD_BLINKMODE_NONE : UInt8 := 0x00
def LCD_BLINKMODE_WHITE : UInt8 := 0x01
def LCD_BLINKMODE_BLACK : UInt8 := 0x02
def LCD_BLINKMODE_INVERSE : UInt8 := 0x03

def LCD_COLOR_CMD_UPDATE : UInt8 := 0x90
def LCD_COLOR_CMD_NO_UPDATE : UInt8 := 0x00
def LCD_COLOR_CMD_BLINKING_WHITE : UInt8 := 0x18
def LCD_COLOR_CMD_BLINKING_BLACK : UInt8 := 0x10
def LCD_COLOR_CMD_INVERSION : UInt8 := 0x14

def pinSet (pin : Pin) : Pin × Bool := (pin, true)

def pinClr (pin : Pin) : Pin × Bool := (pin, false)

/-- The writes, and the new value of `vcom`. -/
def toggleVcom (vcom : UInt8) : List (Pin × Bool) × UInt8 :=
  if vcom ≠ 0 then ([pinClr LCD_EXTCOMIN], 0) else ([pinSet LCD_EXTCOMIN], 1)

def lcdReset : List (Pin × Bool) := [pinClr LCD_CS, pinClr LCD_DISP, pinSet LCD_DISP]

/-- `Write_Data` with `n` rounds of its loop to go. -/
def writeDataLoop : ℕ → UInt8 → List (Pin × Bool)
  | 0, _ => [pinClr LCD_SCK]
  | n + 1, dh =>
    pinClr LCD_SCK :: (if dh &&& 0x80 ≠ 0 then pinSet LCD_MOSI else pinClr LCD_MOSI) ::
      pinSet LCD_SCK :: writeDataLoop n (dh <<< 1)

def writeData (dh : UInt8) : List (Pin × Bool) := writeDataLoop 8 dh

/-- What the text of a command is made of: `pin_set` and `pin_clr`, and `Write_Data`. -/
inductive Op where
  | pin (w : Pin × Bool)
  | data (dh : UInt8)

def Op.writes : Op → List (Pin × Bool)
  | pin w => [w]
  | data dh => writeData dh

def clearScreen (_bColor : Int32) : List Op :=
  [.pin (pinSet LCD_CS), .data JDI_CMD_ALL_CLEAR, .data 0x00, .pin (pinClr LCD_CS)]

def invertDisplay : List Op :=
  [.pin (pinSet LCD_CS), .data JDI_CMD_INVERSION, .data 0x00, .pin (pinClr LCD_CS)]

def blinkCmd (mode : UInt8) : UInt8 :=
  if mode = LCD_BLINKMODE_NONE then LCD_COLOR_CMD_NO_UPDATE
  else if mode = LCD_BLINKMODE_WHITE then LCD_COLOR_CMD_BLINKING_WHITE
  else if mode = LCD_BLINKMODE_BLACK then LCD_COLOR_CMD_BLINKING_BLACK
  else if mode = LCD_BLINKMODE_INVERSE then LCD_COLOR_CMD_INVERSION
  else LCD_COLOR_CMD_NO_UPDATE

def setBlinkMode (mode : UInt8) : List Op :=
  [.pin (pinSet LCD_CS), .data (blinkCmd mode), .data 0x00, .pin (pinClr LCD_CS)]

def setLine (line : UInt8) : List Op :=
  [.pin (pinSet LCD_CS), .data LCD_COLOR_CMD_UPDATE, .data (line + 1)] ++
    List.replicate 44 (.data 0xcc) ++ List.replicate 44 (.data 0x33) ++
    [.data 0x0, .data 0x0, .pin (pinClr LCD_CS)]

inductive Command where
  | clearScreen (bColor : Int32)
  | invertDisplay
  | setBlinkMode (mode : UInt8)
  | setLine (line : UInt8)

def Command.ops : Command → List Op
  | clearScreen bColor => Lcd.clearScreen bColor
  | invertDisplay => Lcd.invertDisplay
  | setBlinkMode mode => Lcd.setBlinkMode mode
  | setLine line => Lcd.setLine line

def Command.writes (c : Command) : List (Pin × Bool) := c.ops.flatMap Op.writes

/-- The bytes that the command passes to `Write_Data`. -/
def Command.bytes (c : Command) : List UInt8 :=
  c.ops.filterMap fun
    | .pin _ => none
    | .data dh => some dh

inductive Call where
  | command (c : Command)
  | toggleVcom

def Call.command? : Call → Option Command
  | command c => some c
  | toggleVcom => none

/-- All writes of a sequence of calls, where `vcom` is what the variable holds before. -/
def issue (vcom : UInt8) : List Call → List (Pin × Bool)
  | [] => []
  | .command c :: cs => c.writes ++ issue vcom cs
  | .toggleVcom :: cs => (Lcd.toggleVcom vcom).1 ++ issue (Lcd.toggleVcom vcom).2 cs

def bus : Bus Pin where
  cs := LCD_CS
  sck := LCD_SCK
  mosi := LCD_MOSI
  sck_ne_cs := by decide
  mosi_ne_cs := by decide
  mosi_ne_sck := by decide

/-- The receiver at the display after `lcd_reset`, and `level` before it. -/
def afterReset (level : Pin → Bool) : Receiver Pin where
  level := lcdReset.foldl (fun l w => Function.update l w.1 w.2) level

variable {r : Receiver Pin} {fs : List (List Bool)} {bs : List Bool}

theorem top_bit (dh : UInt8) : dh &&& 0x80 ≠ 0 ↔ dh.toBitVec.getMsbD 0 = true := by
  have hand : (dh &&& 0x80).toBitVec = dh.toBitVec &&& BitVec.twoPow 8 7 := rfl
  have hmsb : dh.toBitVec.getMsbD 0 = dh.toBitVec.getLsbD 7 := BitVec.getMsbD_eq_getLsbD _ 0
  rw [ne_eq, ← UInt8.toBitVec_inj, hand, hmsb, BitVec.and_twoPow]
  cases dh.toBitVec.getLsbD 7 with
  | false => exact iff_of_false (not_not.mpr rfl) Bool.false_ne_true
  | true => exact iff_of_true (by decide) rfl

theorem shift_bit (dh : UInt8) (i : ℕ) :
    (dh <<< 1).toBitVec.getMsbD i = dh.toBitVec.getMsbD (i + 1) := by
  have hshift : (dh <<< 1).toBitVec = dh.toBitVec <<< 1 := rfl
  rw [hshift, BitVec.getMsbD_shiftLeft]

theorem writeDataLoop_eq (n : ℕ) (dh : UInt8) : writeDataLoop n dh =
    ((List.range n).map dh.toBitVec.getMsbD).flatMap (bitWrites bus) ++ [pinClr LCD_SCK] := by
  induction n generalizing dh with
  | zero => rfl
  | succ n ih =>
    have hdata : (if dh &&& 0x80 ≠ 0 then pinSet LCD_MOSI else pinClr LCD_MOSI) =
        (LCD_MOSI, dh.toBitVec.getMsbD 0) := by
      split_ifs with h
      · rw [(top_bit dh).mp h]
        rfl
      · rw [Bool.eq_false_iff.mpr (mt (top_bit dh).mpr h)]
        rfl
    have hrest : (List.range n).map (dh <<< 1).toBitVec.getMsbD =
        (List.range n).map fun i => dh.toBitVec.getMsbD (i + 1) :=
      List.map_congr_left fun i _ => shift_bit dh i
    rw [writeDataLoop, hdata, ih, hrest, List.range_succ_eq_map, List.map_cons, List.map_map]
    rfl

theorem writeData_received (h : InFrame bus r fs bs) (dh : UInt8) :
    InFrame bus (r.receive bus (writeData dh)) fs (bs ++ bitsOf dh) := by
  rw [writeData, writeDataLoop_eq, receive_append]
  exact (h.bits_append (bitsOf dh)).clock_low

theorem data_received (h : InFrame bus r fs bs) (ds : List UInt8) :
    InFrame bus (r.receive bus (ds.flatMap writeData)) fs (bs ++ ds.flatMap bitsOf) := by
  induction ds generalizing r bs with
  | nil =>
    show InFrame bus r fs (bs ++ [])
    rw [List.append_nil]
    exact h
  | cons d ds ih =>
    rw [List.flatMap_cons, receive_append, List.flatMap_cons, ← List.append_assoc]
    exact ih (writeData_received h d)

/-- Every command selects the display, passes its bytes, and deselects it. -/
theorem ops_eq (c : Command) : c.ops =
    .pin (pinSet LCD_CS) :: (c.bytes.map .data ++ [.pin (pinClr LCD_CS)]) := by
  cases c <;> rfl

theorem writes_eq (c : Command) : c.writes =
    (LCD_CS, true) :: (c.bytes.flatMap writeData ++ [(LCD_CS, false)]) := by
  rw [Command.writes, ops_eq, List.flatMap_cons, List.flatMap_append, List.flatMap_map]
  rfl

theorem command_received (h : Idle bus r fs) (c : Command) :
    Idle bus (r.receive bus c.writes) (fs ++ [c.bytes.flatMap bitsOf]) := by
  rw [writes_eq, ← List.singleton_append, receive_append, receive_append]
  exact (data_received h.select c.bytes).deselect

theorem toggleVcom_received (h : Idle bus r fs) (vcom : UInt8) :
    Idle bus (r.receive bus (toggleVcom vcom).1) fs := by
  have hcs : LCD_EXTCOMIN ≠ bus.cs := by decide
  have hsck : LCD_EXTCOMIN ≠ bus.sck := by decide
  unfold toggleVcom
  split_ifs
  · exact h.write_other hcs hsck false
  · exact h.write_other hcs hsck true

theorem issue_received (cs : List Call) (h : Idle bus r fs) (vcom : UInt8) :
    Idle bus (r.receive bus (issue vcom cs))
      (fs ++ (cs.filterMap Call.command?).map fun c => c.bytes.flatMap bitsOf) := by
  induction cs generalizing r fs vcom with
  | nil =>
    rw [List.filterMap_nil, List.map_nil, List.append_nil]
    exact h
  | cons c cs ih =>
    cases c with
    | command c =>
      have hcons : (Call.command c :: cs).filterMap Call.command? =
          c :: cs.filterMap Call.command? := rfl
      rw [issue, receive_append, hcons, List.map_cons, List.append_cons]
      exact ih (command_received h c) vcom
    | toggleVcom =>
      rw [issue, receive_append]
      exact ih (toggleVcom_received h vcom) _

theorem afterReset_idle (level : Pin → Bool) : Idle bus (afterReset level) [] :=
  ⟨rfl, rfl, rfl, rfl⟩

/-- Whatever the levels of the pins were before `lcd_reset`, the receiver gets one frame for
each command, with the bytes of the command, and sees no clock edge outside of them. -/
theorem link_lossless (level : Pin → Bool) (vcom : UInt8) (cs : List Call) :
    ((afterReset level).receive bus (issue vcom cs)).frames.map bytesOf =
        (cs.filterMap Call.command?).map (fun c => some c.bytes) ∧
      ((afterReset level).receive bus (issue vcom cs)).bits = [] ∧
      ((afterReset level).receive bus (issue vcom cs)).stray = 0 ∧
      ∀ line, (Command.setLine line).bytes =
        0x90 :: (line + 1) :: (List.replicate 44 0xcc ++ List.replicate 44 0x33 ++ [0, 0]) := by
  have h := issue_received cs (afterReset_idle level) vcom
  refine ⟨?_, h.bits, h.stray, fun line => rfl⟩
  rw [h.frames, List.nil_append, List.map_map]
  exact List.map_congr_left fun c _ => bytesOf_flatMap c.bytes

end Nrf9160.Lcd
