import Nrf9160.Lcd.Display

/-! `lcd_init`: what the display gets from it, the alternation of the common electrode, and
which commands look the same on the line. -/

namespace Nrf9160.Lcd

open Serial

inductive Gpio where
  | configure (pin : Pin)
  | write (w : Pin × Bool)

/-- The level of a pin that has just become an output is not known: `fresh` gives it. -/
def Gpio.level (fresh : Pin → Bool) (level : Pin → Bool) : Gpio → Pin → Bool
  | configure pin => Function.update level pin (fresh pin)
  | write w => Function.update level w.1 w.2

def Call.isToggle : Call → Bool
  | command _ => false
  | toggleVcom => true

def toggles (cs : List Call) : ℕ := cs.countP Call.isToggle

def vcomAfter (vcom : UInt8) (cs : List Call) : UInt8 :=
  (cs.filter Call.isToggle).foldl (fun v _ => (toggleVcom v).2) vcom

/-- The level of the common electrode that `vcom` stands for. -/
def polarity (vcom : UInt8) : Bool := vcom ≠ 0

/-- What a command shows on the line. -/
inductive Shown where
  | clear
  | blink (cmd : UInt8)
  | line (line : UInt8)
  deriving DecidableEq

def Command.shown : Command → Shown
  | clearScreen _ => .clear
  | invertDisplay => .blink LCD_COLOR_CMD_INVERSION
  | setBlinkMode mode => .blink (blinkCmd mode)
  | setLine line => .line line

variable {v : Bool} {vcom : UInt8} {cs : List Call} {c c' : Command} {r : Receiver Pin}

theorem pin_of_bitWrites {w : Pin × Bool} {b : Bool} (h : w ∈ bitWrites bus b) :
    w.1 = LCD_SCK ∨ w.1 = LCD_MOSI := by
  simp only [bitWrites, List.mem_cons, List.not_mem_nil, or_false] at h
  rcases h with rfl | rfl | rfl
  · exact .inl rfl
  · exact .inr rfl
  · exact .inl rfl

theorem pin_of_writeData {w : Pin × Bool} {dh : UInt8} (h : w ∈ writeData dh) :
    w.1 = LCD_SCK ∨ w.1 = LCD_MOSI := by
  rw [writeData, writeDataLoop_eq, List.mem_append, List.mem_singleton] at h
  rcases h with h | rfl
  · obtain ⟨b, -, hb⟩ := List.mem_flatMap.mp h
    exact pin_of_bitWrites hb
  · exact .inl rfl

theorem pin_of_command {w : Pin × Bool} (h : w ∈ c.writes) : w.1 ≠ LCD_EXTCOMIN := by
  rw [writes_eq, List.mem_cons, List.mem_append, List.mem_singleton] at h
  rcases h with rfl | h | rfl
  · decide
  · obtain ⟨dh, -, hd⟩ := List.mem_flatMap.mp h
    rcases pin_of_writeData hd with hw | hw
    · rw [hw]
      decide
    · rw [hw]
      decide
  · decide

theorem toggleVcom_eq (vcom : UInt8) : (toggleVcom vcom).1 = [(LCD_EXTCOMIN, !polarity vcom)] ∧
    polarity (toggleVcom vcom).2 = !polarity vcom := by
  unfold toggleVcom polarity
  split_ifs with h
  · rw [decide_eq_true h]
    exact ⟨rfl, rfl⟩
  · rw [decide_eq_false h]
    exact ⟨rfl, rfl⟩

theorem vcomAfter_command : vcomAfter vcom (.command c :: cs) = vcomAfter vcom cs := rfl

theorem vcomAfter_toggle :
    vcomAfter vcom (.toggleVcom :: cs) = vcomAfter (toggleVcom vcom).2 cs := rfl

theorem toggles_command : toggles (.command c :: cs) = toggles cs := rfl

theorem toggles_toggle : toggles (.toggleVcom :: cs) = toggles cs + 1 :=
  List.countP_cons_of_pos rfl

theorem filter_of_toggles (h : toggles cs = 0) : cs.filter Call.isToggle = [] := by
  rw [toggles, List.countP_eq_length_filter] at h
  exact List.eq_nil_of_length_eq_zero h

/-- The pin follows `vcom` from the first toggle on. A sequence of calls changes its level once
for every toggle, but the first toggle changes nothing where pin and `vcom` disagree. -/
theorem extcomin_of_issue (vcom : UInt8) (cs : List Call) (v : Bool) :
    flips LCD_EXTCOMIN v (issue vcom cs) = toggles cs - (if v = polarity vcom then 0 else 1) ∧
      lastLevel LCD_EXTCOMIN v (issue vcom cs) =
        if toggles cs = 0 then v else polarity (vcomAfter vcom cs) := by
  induction cs generalizing vcom v with
  | nil => exact ⟨(Nat.zero_sub _).symm, rfl⟩
  | cons c cs ih =>
    cases c with
    | command c =>
      have hflips : flips LCD_EXTCOMIN v c.writes = 0 := flips_of_ne fun w => pin_of_command
      have hlast : lastLevel LCD_EXTCOMIN v c.writes = v := lastLevel_of_ne fun w => pin_of_command
      rw [issue, flips_append, lastLevel_append, hflips, hlast, Nat.zero_add, toggles_command,
        vcomAfter_command]
      exact ih vcom v
    | toggleVcom =>
      obtain ⟨hw, hp⟩ := toggleVcom_eq vcom
      obtain ⟨hf, hl⟩ := ih (toggleVcom vcom).2 (!polarity vcom)
      have hlast : lastLevel LCD_EXTCOMIN v [(LCD_EXTCOMIN, !polarity vcom)] = !polarity vcom := rfl
      have hflips : flips LCD_EXTCOMIN v [(LCD_EXTCOMIN, !polarity vcom)] =
          if v = polarity vcom then 1 else 0 := by
        cases v <;> cases polarity vcom <;> rfl
      rw [issue, hw, flips_append, lastLevel_append, hlast, hflips, hf, hl, hp, if_pos rfl,
        toggles_toggle, vcomAfter_toggle]
      constructor
      · split_ifs <;> omega
      · rw [if_neg (Nat.succ_ne_zero _)]
        split_ifs with h0
        · rw [vcomAfter, filter_of_toggles h0]
          exact hp.symm
        · rfl

end Nrf9160.Lcd
