import Mathlib.Data.List.Basic

/-! The input of the console: `nrf_input`, which the interrupt of the serial line calls, with
the two resets of `main` between any two of its calls. -/

namespace Nrf9160.Console

def LC_MAX_READ_LENGTH : ℕ := 128

structure State where
  buffer : Vector UInt8 LC_MAX_READ_LENGTH
  bufferFill : ℕ
  readyToSend : Bool

def charOf (c : Int32) : UInt8 := c.toUInt32.toUInt8

def nrfInput (s : State) (c : Int32) : State :=
  if c = 13 then { s with readyToSend := true }
  else if h : s.bufferFill < LC_MAX_READ_LENGTH then
    { s with buffer := s.buffer.set s.bufferFill (charOf c) h, bufferFill := s.bufferFill + 1 }
  else s

inductive Action where
  | input (c : Int32)
  | resetFill
  | resetReady

def step (s : State) : Action → State
  | .input c => nrfInput s c
  | .resetFill => { s with bufferFill := 0 }
  | .resetReady => { s with readyToSend := false }

def boot : State := ⟨.replicate _ 0, 0, false⟩

/-- A line of any length: what was typed since the one reset, and whether it was ended since
the other. -/
structure Line where
  typed : List UInt8
  ended : Bool

def Line.next (l : Line) : Action → Line
  | .input c =>
    if c = 13 then { l with ended := true } else { l with typed := l.typed ++ [charOf c] }
  | .resetFill => { l with typed := [] }
  | .resetReady => { l with ended := false }

def lineAfter (as : List Action) : Line := as.foldl Line.next ⟨[], false⟩

/-- The buffer has the line as far as it fits. -/
structure Holds (l : Line) (s : State) : Prop where
  fill : s.bufferFill = min l.typed.length LC_MAX_READ_LENGTH
  chars : s.buffer.toList.take s.bufferFill = l.typed.take LC_MAX_READ_LENGTH
  ready : s.readyToSend = l.ended

variable {l : Line} {s : State}

theorem take_set_succ {α : Type} (xs : List α) {n : ℕ} (h : n < xs.length) (x : α) :
    (xs.set n x).take (n + 1) = xs.take n ++ [x] := by
  rw [List.take_add_one, List.take_set_of_le (Nat.le_refl n), List.getElem?_set_self h]
  rfl

theorem next_cr : l.next (.input 13) = { l with ended := true } := by
  simp [Line.next]

theorem next_char {c : Int32} (h : c ≠ 13) :
    l.next (.input c) = { l with typed := l.typed ++ [charOf c] } := if_neg h

theorem Holds.input (h : Holds l s) (c : Int32) : Holds (l.next (.input c)) (nrfInput s c) := by
  have hfill := h.fill
  unfold nrfInput
  split_ifs with hc hlt
  · subst hc
    rw [next_cr]
    exact ⟨h.fill, h.chars, rfl⟩
  · -- the line has fitted so far, and its next character fits as well
    rw [next_char hc]
    have hlen : s.bufferFill = l.typed.length := by omega
    constructor
    · show s.bufferFill + 1 = min (l.typed ++ [_]).length _
      rw [List.length_append, List.length_singleton]
      omega
    · have htyped : s.buffer.toList.take s.bufferFill = l.typed := by
        rw [h.chars, List.take_of_length_le (by omega)]
      show (s.buffer.set _ _ hlt).toList.take (s.bufferFill + 1) = (l.typed ++ [_]).take _
      rw [Vector.toList_set, take_set_succ _ (by rwa [Vector.length_toList]), htyped,
        List.take_of_length_le]
      rw [List.length_append, List.length_singleton]
      omega
    · exact h.ready
  · rw [next_char hc]
    have hle : LC_MAX_READ_LENGTH ≤ l.typed.length := by omega
    constructor
    · show s.bufferFill = min (l.typed ++ [_]).length _
      rw [List.length_append, List.length_singleton]
      omega
    · show s.buffer.toList.take s.bufferFill = (l.typed ++ [_]).take _
      rw [List.take_append_of_le_length hle]
      exact h.chars
    · exact h.ready

theorem Holds.step (h : Holds l s) (a : Action) : Holds (l.next a) (step s a) := by
  cases a with
  | input c => exact h.input c
  | resetFill => exact ⟨rfl, rfl, h.ready⟩
  | resetReady => exact ⟨h.fill, h.chars, rfl⟩

theorem Holds.foldl (h : Holds l s) (as : List Action) :
    Holds (as.foldl Line.next l) (as.foldl Console.step s) := by
  induction as generalizing l s with
  | nil => exact h
  | cons a as ih => exact ih (h.step a)

/-- Whatever is typed and however the resets fall between the interrupts, the buffer has what
was typed since its reset as far as it fits, and the flag whether it was ended since its own. -/
theorem holds_line (as : List Action) : Holds (lineAfter as) (as.foldl step boot) :=
  Holds.foldl ⟨rfl, rfl, rfl⟩ as

end Nrf9160.Console
