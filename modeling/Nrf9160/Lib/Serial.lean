import Mathlib.Data.List.Basic
import Mathlib.Data.Nat.Notation
import Mathlib.Logic.Function.Basic
import Mathlib.Tactic.SplitIfs

/-! A clocked serial line with a chip select, as its receiver sees it: a sequence of writes
to pins, of which three are the wires of the line. -/

namespace Serial

structure Bus (Pin : Type*) where
  cs : Pin
  sck : Pin
  mosi : Pin
  sck_ne_cs : sck ≠ cs
  mosi_ne_cs : mosi ≠ cs
  mosi_ne_sck : mosi ≠ sck

/-- `bits` are those of the frame in progress, and `stray` counts the clock edges outside
frames. -/
structure Receiver (Pin : Type*) where
  level : Pin → Bool
  bits : List Bool := []
  frames : List (List Bool) := []
  stray : ℕ := 0

variable {Pin : Type*} [DecidableEq Pin]

/-- A write of a level to a pin. The data wire is sampled when the clock rises, and the frame
is closed when the chip select falls. -/
def Receiver.write (B : Bus Pin) (r : Receiver Pin) (w : Pin × Bool) : Receiver Pin :=
  let level := Function.update r.level w.1 w.2
  if w.1 = B.sck ∧ r.level B.sck ≠ w.2 then
    if r.level B.cs = false then { r with level, stray := r.stray + 1 }
    else if w.2 = true then { r with level, bits := r.bits ++ [r.level B.mosi] }
    else { r with level }
  else if w.1 = B.cs ∧ r.level B.cs = true ∧ w.2 = false then
    { r with level, bits := [], frames := r.frames ++ [r.bits] }
  else { r with level }

def Receiver.receive (B : Bus Pin) (r : Receiver Pin) (ws : List (Pin × Bool)) : Receiver Pin :=
  ws.foldl (Receiver.write B) r

/-- One bit on the line. -/
def bitWrites (B : Bus Pin) (v : Bool) : List (Pin × Bool) :=
  [(B.sck, false), (B.mosi, v), (B.sck, true)]

/-- Between two frames, the frames `fs` having been received. -/
structure Idle (B : Bus Pin) (r : Receiver Pin) (fs : List (List Bool)) : Prop where
  cs : r.level B.cs = false
  bits : r.bits = []
  frames : r.frames = fs
  stray : r.stray = 0

/-- In the frame after `fs`, the bits `bs` of it having been received. -/
structure InFrame (B : Bus Pin) (r : Receiver Pin) (fs : List (List Bool)) (bs : List Bool) :
    Prop where
  cs : r.level B.cs = true
  bits : r.bits = bs
  frames : r.frames = fs
  stray : r.stray = 0

variable {B : Bus Pin} {r : Receiver Pin} {fs : List (List Bool)} {bs : List Bool} {p : Pin}

theorem receive_append (ws ws' : List (Pin × Bool)) :
    r.receive B (ws ++ ws') = (r.receive B ws).receive B ws' := List.foldl_append

theorem write_level (r : Receiver Pin) (w : Pin × Bool) :
    (r.write B w).level = Function.update r.level w.1 w.2 := by
  unfold Receiver.write
  split_ifs <;> rfl

/-- A pin that is not a wire of the frame, or the data wire. -/
theorem write_other (hcs : p ≠ B.cs) (hsck : p ≠ B.sck) (v : Bool) :
    r.write B (p, v) = { r with level := Function.update r.level p v } := by
  unfold Receiver.write
  rw [if_neg fun h => hsck h.1, if_neg fun h => hcs h.1]

theorem Idle.write_other (h : Idle B r fs) (hcs : p ≠ B.cs) (hsck : p ≠ B.sck) (v : Bool) :
    Idle B (r.write B (p, v)) fs := by
  rw [Serial.write_other hcs hsck]
  refine ⟨?_, h.bits, h.frames, h.stray⟩
  rw [← h.cs]
  exact Function.update_of_ne hcs.symm ..

theorem Idle.select (h : Idle B r fs) : InFrame B (r.write B (B.cs, true)) fs [] := by
  have hwrite : r.write B (B.cs, true) =
      { r with level := Function.update r.level B.cs true } := by
    unfold Receiver.write
    rw [if_neg fun h => B.sck_ne_cs h.1.symm, if_neg fun h => Bool.noConfusion h.2.2]
  rw [hwrite]
  exact ⟨Function.update_self .., h.bits, h.frames, h.stray⟩

theorem InFrame.deselect (h : InFrame B r fs bs) :
    Idle B (r.write B (B.cs, false)) (fs ++ [bs]) := by
  have hwrite : r.write B (B.cs, false) = { r with
      level := Function.update r.level B.cs false
      bits := []
      frames := r.frames ++ [r.bits] } := by
    unfold Receiver.write
    rw [if_neg fun h => B.sck_ne_cs h.1.symm, if_pos ⟨rfl, h.cs, rfl⟩]
  rw [hwrite]
  refine ⟨Function.update_self .., rfl, ?_, h.stray⟩
  rw [h.frames, h.bits]

theorem InFrame.write_other (h : InFrame B r fs bs) (hcs : p ≠ B.cs) (hsck : p ≠ B.sck)
    (v : Bool) : InFrame B (r.write B (p, v)) fs bs := by
  rw [Serial.write_other hcs hsck]
  refine ⟨?_, h.bits, h.frames, h.stray⟩
  rw [← h.cs]
  exact Function.update_of_ne hcs.symm ..

/-- Whatever the level of the clock was, making it low samples nothing. -/
theorem InFrame.clock_low (h : InFrame B r fs bs) :
    InFrame B (r.write B (B.sck, false)) fs bs := by
  have hcs : ¬r.level B.cs = false := by
    rw [h.cs]
    decide
  have hwrite : r.write B (B.sck, false) =
      { r with level := Function.update r.level B.sck false } := by
    simp only [Receiver.write, if_neg hcs, if_neg Bool.false_ne_true, B.sck_ne_cs, false_and,
      if_false, ite_self]
  rw [hwrite]
  refine ⟨?_, h.bits, h.frames, h.stray⟩
  rw [← h.cs]
  exact Function.update_of_ne B.sck_ne_cs.symm ..

theorem InFrame.clock_high (h : InFrame B r fs bs) (hsck : r.level B.sck = false) :
    InFrame B (r.write B (B.sck, true)) fs (bs ++ [r.level B.mosi]) := by
  have hcs : ¬r.level B.cs = false := by
    rw [h.cs]
    decide
  have hedge : r.level B.sck ≠ true := by
    rw [hsck]
    decide
  have hwrite : r.write B (B.sck, true) = { r with
      level := Function.update r.level B.sck true
      bits := r.bits ++ [r.level B.mosi] } := by
    unfold Receiver.write
    rw [if_pos ⟨rfl, hedge⟩, if_neg hcs, if_pos rfl]
  rw [hwrite]
  refine ⟨?_, ?_, h.frames, h.stray⟩
  · rw [← h.cs]
    exact Function.update_of_ne B.sck_ne_cs.symm ..
  · rw [h.bits]

theorem InFrame.bit (h : InFrame B r fs bs) (v : Bool) :
    InFrame B (r.receive B (bitWrites B v)) fs (bs ++ [v]) := by
  have hlow := h.clock_low
  have hdata := hlow.write_other B.mosi_ne_cs B.mosi_ne_sck v
  have hsck : ((r.write B (B.sck, false)).write B (B.mosi, v)).level B.sck = false := by
    rw [write_level, write_level, Function.update_of_ne B.mosi_ne_sck.symm]
    exact Function.update_self ..
  have hmosi : ((r.write B (B.sck, false)).write B (B.mosi, v)).level B.mosi = v := by
    rw [write_level]
    exact Function.update_self ..
  have hhigh := hdata.clock_high hsck
  rw [hmosi] at hhigh
  exact hhigh

theorem InFrame.bits_append (h : InFrame B r fs bs) (vs : List Bool) :
    InFrame B (r.receive B (vs.flatMap (bitWrites B))) fs (bs ++ vs) := by
  induction vs generalizing r bs with
  | nil =>
    rw [List.append_nil]
    exact h
  | cons v vs ih =>
    rw [List.flatMap_cons, receive_append, List.append_cons]
    exact ih (h.bit v)

/-! One pin alone: the level that the writes leave it at, and how often they change it. -/

def lastLevel (p : Pin) (v : Bool) (ws : List (Pin × Bool)) : Bool :=
  ws.foldl (fun v w => if w.1 = p then w.2 else v) v

def flips (p : Pin) : Bool → List (Pin × Bool) → ℕ
  | _, [] => 0
  | v, w :: ws =>
    if w.1 = p then (if v = w.2 then 0 else 1) + flips p w.2 ws else flips p v ws

variable {v : Bool} {ws : List (Pin × Bool)}

theorem lastLevel_of_ne (h : ∀ w ∈ ws, w.1 ≠ p) : lastLevel p v ws = v := by
  induction ws with
  | nil => rfl
  | cons w ws ih =>
    show lastLevel p (if w.1 = p then w.2 else v) ws = v
    rw [if_neg (h w List.mem_cons_self)]
    exact ih fun w hw => h w (List.mem_cons_of_mem _ hw)

theorem lastLevel_append (ws ws' : List (Pin × Bool)) :
    lastLevel p v (ws ++ ws') = lastLevel p (lastLevel p v ws) ws' := List.foldl_append

theorem foldl_update (level : Pin → Bool) (ws : List (Pin × Bool)) :
    ws.foldl (fun l w => Function.update l w.1 w.2) level =
      fun p => lastLevel p (level p) ws := by
  induction ws generalizing level with
  | nil => rfl
  | cons w ws ih =>
    rw [List.foldl_cons, ih]
    funext p
    unfold lastLevel
    rw [List.foldl_cons]
    by_cases h : p = w.1
    · rw [h, Function.update_self, if_pos rfl]
    · rw [Function.update_of_ne h, if_neg (Ne.symm h)]

theorem flips_of_ne (h : ∀ w ∈ ws, w.1 ≠ p) : flips p v ws = 0 := by
  induction ws with
  | nil => rfl
  | cons w ws ih =>
    rw [flips, if_neg (h w List.mem_cons_self)]
    exact ih fun w hw => h w (List.mem_cons_of_mem _ hw)

theorem flips_append (ws ws' : List (Pin × Bool)) :
    flips p v (ws ++ ws') = flips p v ws + flips p (lastLevel p v ws) ws' := by
  induction ws generalizing v with
  | nil => exact (Nat.zero_add _).symm
  | cons w ws ih =>
    show flips p v (w :: (ws ++ ws')) = flips p v (w :: ws) +
      flips p (lastLevel p (if w.1 = p then w.2 else v) ws) ws'
    rw [flips, flips]
    split_ifs with hw
    · rw [ih, Nat.add_assoc]
    · rw [ih, Nat.add_assoc]
    · rw [ih]

/-! Bytes, most significant bit first. -/

def bitsOf (d : UInt8) : List Bool := (List.range 8).map d.toBitVec.getMsbD

/-- The bytes of a frame, if it has a whole number of them. -/
def bytesOf : List Bool → Option (List UInt8)
  | [] => some []
  | b0 :: b1 :: b2 :: b3 :: b4 :: b5 :: b6 :: b7 :: bs =>
    (bytesOf bs).map fun ds => ⟨BitVec.ofBoolListBE [b0, b1, b2, b3, b4, b5, b6, b7]⟩ :: ds
  | _ => none

theorem ofBoolListBE_bitsOf (d : UInt8) :
    (⟨BitVec.ofBoolListBE (bitsOf d)⟩ : UInt8) = d := by
  apply UInt8.toBitVec_inj.mp
  apply BitVec.eq_of_getMsbD_eq
  intro i hi
  show (BitVec.ofBoolListBE (bitsOf d)).getMsbD i = d.toBitVec.getMsbD i
  rw [BitVec.getMsbD_ofBoolListBE, bitsOf, List.getD_eq_getElem?_getD, List.getElem?_map,
    List.getElem?_range hi]
  rfl

theorem bytesOf_flatMap (ds : List UInt8) : bytesOf (ds.flatMap bitsOf) = some ds := by
  induction ds with
  | nil => rfl
  | cons d ds ih =>
    show (bytesOf (ds.flatMap bitsOf)).map _ = _
    rw [ih]
    exact congrArg (fun d' => some (d' :: ds)) (ofBoolListBE_bitsOf d)

end Serial
