import Mathlib.Algebra.Order.Group.Abs
import Mathlib.Algebra.Order.Ring.Rat
import Mathlib.Data.Rat.Cast.Defs
import Nrf9160.Lib.CString

/-! `lte_signal_quality_decode`: which responses of the modem it can read, and what it makes
of those of the expected form. -/

namespace Nrf9160.Lte

open CString

def AT_RESPONSE_LEN : ℕ := 128

def comma : UInt8 := 44

/-- The conversion of an `int` to `float`. It is exact for 24 bits. -/
structure Rounding where
  toFloat : ℤ → ℚ
  exact : ∀ v : ℤ, |v| ≤ 2 ^ 24 → toFloat v = v

def lteSignalQualityDecode (F : Rounding) (atS : Text) : Except Fault (ℚ × ℤ) := do
  let buf := strncpy atS AT_RESPONSE_LEN
  let t := some buf
  let (_, t) ← strsep comma t
  let (_, t) ← strsep comma t
  let (_, t) ← strsep comma t
  let (_, t) ← strsep comma t
  let (p, t) ← strsep comma t
  let rsrq := F.toFloat (20 - (← atoi p).tdiv 2)
  let (p, _) ← strsep comma t
  let rsrp := 140 - (← atoi p) + 1
  return (rsrq, rsrp)

/-- Nothing is read outside the buffer, and no null pointer is passed to `atoi`. -/
def Safe (F : Rounding) (atS : Text) : Prop :=
  ∀ fault, lteSignalQualityDecode F atS ≠ .error fault

def commas (atS : Text) : ℕ := (atS.bytes.take AT_RESPONSE_LEN).count comma

variable {F : Rounding} {atS : Text} {t t' : Option Ptr} {p u q : Ptr} {n : ℕ} {x : ℚ}

def decodeRsrp (x : ℚ) (t : Option Ptr) : Except Fault (ℚ × ℤ) :=
  strsep comma t >>= fun r => atoi r.1 >>= fun m => .ok (x, 140 - m + 1)

def decodeRsrq (F : Rounding) (t : Option Ptr) : Except Fault (ℚ × ℤ) :=
  strsep comma t >>= fun r => atoi r.1 >>= fun n => decodeRsrp (F.toFloat (20 - n.tdiv 2)) r.2

theorem decode_eq (F : Rounding) (atS : Text) : lteSignalQualityDecode F atS =
    skip comma 4 (some (strncpy atS AT_RESPONSE_LEN)) >>= decodeRsrq F := by
  simp only [lteSignalQualityDecode, skip, bind_assoc]
  rfl

theorem decodeRsrp_of_token (h : strsep comma t = .ok (some p, t')) {m : ℤ}
    (hm : atoi (some p) = .ok m) : decodeRsrp x t = .ok (x, 140 - m + 1) := by
  rw [decodeRsrp, h]
  show (atoi (some p) >>= _) = _
  rw [hm]
  rfl

theorem decodeRsrq_of_token (h : strsep comma t = .ok (some p, t')) {m : ℤ}
    (hm : atoi (some p) = .ok m) :
    decodeRsrq F t = decodeRsrp (F.toFloat (20 - m.tdiv 2)) t' := by
  rw [decodeRsrq, h]
  show (atoi (some p) >>= _) = _
  rw [hm]
  rfl

theorem decodeRsrp_none : decodeRsrp x none = .error .nullArg := rfl

theorem decodeRsrq_none : decodeRsrq F none = .error .nullArg := rfl

theorem decodeRsrp_succ (h : Ahead comma u (n + 1) p) : ∃ v, decodeRsrp x (some p) = .ok v := by
  obtain ⟨p, t', hp, h0, -⟩ := h.strsep_succ
  obtain ⟨m, hm⟩ := atoi_ok h0
  exact ⟨_, decodeRsrp_of_token hp hm⟩

theorem decodeRsrp_zero (h : Ahead comma (0 :: u) 0 p) : ∃ v, decodeRsrp x (some p) = .ok v := by
  obtain ⟨p, hp, h0⟩ := h.strsep_zero (by decide)
  obtain ⟨m, hm⟩ := atoi_ok h0
  exact ⟨_, decodeRsrp_of_token hp hm⟩

theorem decodeRsrp_outside (h : Ahead comma [] 0 p) :
    decodeRsrp x (some p) = .error .outside := by
  rw [decodeRsrp, h.strsep_outside]
  rfl

theorem decodeRsrq_succ (h : Ahead comma u (n + 1) p) : ∃ x q,
    decodeRsrq F (some p) = decodeRsrp x (some q) ∧ Ahead comma u n q := by
  obtain ⟨p, q, hp, h0, hq⟩ := h.strsep_succ
  obtain ⟨m, hm⟩ := atoi_ok h0
  exact ⟨_, q, decodeRsrq_of_token hp hm, hq⟩

theorem decodeRsrq_zero (h : Ahead comma (0 :: u) 0 p) :
    decodeRsrq F (some p) = .error .nullArg := by
  obtain ⟨p, hp, h0⟩ := h.strsep_zero (by decide)
  obtain ⟨m, hm⟩ := atoi_ok h0
  rw [decodeRsrq_of_token hp hm]
  exact decodeRsrp_none

theorem decodeRsrq_outside (h : Ahead comma [] 0 p) :
    decodeRsrq F (some p) = .error .outside := by
  rw [decodeRsrq, h.strsep_outside]
  rfl

theorem decode_of_skip (h : skip comma 4 (some (strncpy atS AT_RESPONSE_LEN)) = .ok t) :
    lteSignalQualityDecode F atS = decodeRsrq F t := by
  rw [decode_eq, h]
  rfl

theorem decode_ahead (h : Ahead comma u (commas atS) (strncpy atS AT_RESPONSE_LEN))
    (hn : commas atS = 4 + n) : ∃ q,
      lteSignalQualityDecode F atS = decodeRsrq F (some q) ∧ Ahead comma u n q := by
  rw [hn] at h
  obtain ⟨q, hq, hahead⟩ := h.skip
  exact ⟨q, decode_of_skip hq, hahead⟩

theorem not_safe {fault : Fault} (h : lteSignalQualityDecode F atS = .error fault) :
    ¬Safe F atS := fun hs => hs fault h

theorem safe_of_ok (h : ∃ v, lteSignalQualityDecode F atS = .ok v) : Safe F atS := by
  obtain ⟨v, hv⟩ := h
  intro fault hf
  rw [hv] at hf
  cases hf

theorem safe_iff_of_fits (h : Ahead comma (0 :: u) (commas atS) (strncpy atS AT_RESPONSE_LEN)) :
    Safe F atS ↔ 5 ≤ commas atS := by
  rcases Nat.lt_or_ge (commas atS) 4 with hlt | hge
  · have hskip := h.skip_short (by decide) hlt
    exact iff_of_false (not_safe ((decode_of_skip hskip).trans decodeRsrq_none)) (by omega)
  · obtain ⟨n, hn⟩ := Nat.exists_eq_add_of_le hge
    obtain ⟨q, hq, hahead⟩ := decode_ahead (F := F) h hn
    cases n with
    | zero => exact iff_of_false (not_safe (hq.trans (decodeRsrq_zero hahead))) (by omega)
    | succ n =>
      obtain ⟨x, r, hr, hnext⟩ := decodeRsrq_succ (F := F) hahead
      refine iff_of_true (safe_of_ok ?_) (by omega)
      rw [hq, hr]
      cases n with
      | zero => exact decodeRsrp_zero hnext
      | succ n => exact decodeRsrp_succ hnext

/-- On a longer one, each of the six fields must end within the buffer. -/
theorem safe_iff_of_long (h : Ahead comma [] (commas atS) (strncpy atS AT_RESPONSE_LEN)) :
    Safe F atS ↔ 6 ≤ commas atS := by
  rcases Nat.lt_or_ge (commas atS) 4 with hlt | hge
  · have hfault : lteSignalQualityDecode F atS = .error .outside := by
      rw [decode_eq, h.skip_outside hlt]
      rfl
    exact iff_of_false (not_safe hfault) (by omega)
  · obtain ⟨n, hn⟩ := Nat.exists_eq_add_of_le hge
    obtain ⟨q, hq, hahead⟩ := decode_ahead (F := F) h hn
    cases n with
    | zero => exact iff_of_false (not_safe (hq.trans (decodeRsrq_outside hahead))) (by omega)
    | succ n =>
      obtain ⟨x, r, hr, hnext⟩ := decodeRsrq_succ (F := F) hahead
      cases n with
      | zero =>
        have hfault := (hq.trans hr).trans (decodeRsrp_outside hnext)
        exact iff_of_false (not_safe hfault) (by omega)
      | succ n =>
        refine iff_of_true (safe_of_ok ?_) (by omega)
        rw [hq, hr]
        exact decodeRsrp_succ hnext

/-- The decoder is safe on just the responses that fit with five commas, or that have six
within the length of the buffer. -/
theorem safe_iff (F : Rounding) (atS : Text) : Safe F atS ↔
    5 ≤ commas atS ∧ (atS.bytes.length < AT_RESPONSE_LEN ∨ 6 ≤ commas atS) := by
  rcases ahead_strncpy comma atS AT_RESPONSE_LEN with ⟨hfits, u, h⟩ | ⟨hlong, h⟩
  · rw [safe_iff_of_fits h]
    omega
  · rw [safe_iff_of_long h]
    omega

def exactRounding : Rounding where
  toFloat v := v
  exact _ _ := rfl

/-- The response `ERROR` with its line end. -/
def errorResponse : Text where
  bytes := [69, 82, 82, 79, 82, 13, 10]
  nul_free := by decide

theorem error_faults : ¬∀ atS, Safe exactRounding atS :=
  fun h => h errorResponse .nullArg rfl

/-! The responses of the expected form. -/

structure Numeral where
  digits : List UInt8
  ne_nil : digits ≠ []
  length_le : digits.length ≤ 3
  digits_all : digits.all isdigit = true

def Numeral.value (n : Numeral) : ℕ := decimal 0 n.digits

structure Field extends Text where
  comma_free : comma ∉ bytes

/-- `f1,f2,f3,f4,n,m` and a text that does not begin with a digit. -/
structure Response where
  f1 : Field
  f2 : Field
  f3 : Field
  f4 : Field
  n : Numeral
  m : Numeral
  rest : Text
  rest_head : rest.bytes.head?.any isdigit = false

def Response.bytes (r : Response) : List UInt8 :=
  r.f1.bytes ++ comma :: (r.f2.bytes ++ comma :: (r.f3.bytes ++ comma :: (r.f4.bytes ++ comma ::
    (r.n.digits ++ comma :: (r.m.digits ++ r.rest.bytes)))))

theorem Numeral.digit (n : Numeral) : ∀ c ∈ n.digits, isdigit c = true :=
  List.all_eq_true.mp n.digits_all

theorem Numeral.value_lt (n : Numeral) : n.value < 1000 := by
  have hlt := decimal_lt 0 n.digit
  have hpow : 10 ^ n.digits.length ≤ 10 ^ 3 := Nat.pow_le_pow_right (by decide) n.length_le
  rw [Nat.zero_add, Nat.one_mul] at hlt
  exact lt_of_lt_of_le hlt hpow

theorem Field.clean (f : Field) : ∀ c ∈ f.bytes, c ≠ comma ∧ c ≠ 0 :=
  clean_of_notMem f.nul_free f.comma_free

theorem Numeral.clean (n : Numeral) : ∀ c ∈ n.digits, c ≠ comma ∧ c ≠ 0 := by
  intro c hc
  have hd := n.digit c hc
  constructor
  · rintro rfl
    cases hd
  · rintro rfl
    cases hd

theorem Response.nul_free (r : Response) : 0 ∉ r.bytes := by
  have hn : 0 ∉ r.n.digits := fun h => (r.n.clean 0 h).2 rfl
  have hm : 0 ∉ r.m.digits := fun h => (r.m.clean 0 h).2 rfl
  have hcomma : 0 ≠ comma := by decide
  simp only [Response.bytes, List.mem_append, List.mem_cons, not_or]
  exact ⟨r.f1.nul_free, hcomma, r.f2.nul_free, hcomma, r.f3.nul_free, hcomma, r.f4.nul_free,
    hcomma, hn, hcomma, hm, r.rest.nul_free⟩

def Response.text (r : Response) : Text := ⟨r.bytes, r.nul_free⟩

theorem Numeral.atoi_eq (n : Numeral) {c : UInt8} (hc : isdigit c = false) (u : Ptr) :
    atoi (some (n.digits ++ c :: u)) = .ok (n.value : ℤ) := atoi_decimal n.ne_nil n.digit hc

theorem decodeRsrp_numeral (m : Numeral) {w : Ptr} (hw : ∀ c ∈ w.head?, isdigit c = false)
    (h0 : 0 ∈ w) : decodeRsrp x (some (m.digits ++ w)) = .ok (x, 140 - m.value + 1) := by
  obtain ⟨c, w, rfl⟩ := List.exists_cons_of_ne_nil (List.ne_nil_of_mem h0)
  obtain ⟨c', u, t, hcut, hc'⟩ := cut_head comma (hw c rfl) h0
  have htoken : strsep comma (some (m.digits ++ c :: w)) = .ok (some (m.digits ++ c' :: u), t) := by
    rw [strsep, cut_append m.clean, hcut]
    rfl
  exact decodeRsrp_of_token htoken (m.atoi_eq hc' u)

variable {r r' : Response}

theorem decode_response (h : r.bytes.length < AT_RESPONSE_LEN) :
    lteSignalQualityDecode F r.text =
      .ok (F.toFloat (20 - (r.n.value / 2 : ℕ)), 141 - r.m.value) := by
  obtain ⟨k, hk⟩ : ∃ k, AT_RESPONSE_LEN - r.bytes.length = k + 1 :=
    ⟨AT_RESPONSE_LEN - r.bytes.length - 1, by omega⟩
  have hbuf : strncpy r.text AT_RESPONSE_LEN = r.bytes ++ 0 :: List.replicate k 0 := by
    show r.bytes.take _ ++ List.replicate (AT_RESPONSE_LEN - r.bytes.length) 0 = _
    rw [hk, List.take_of_length_le (Nat.le_of_lt h), List.replicate_succ]
  have hskip : skip comma 4 (some (strncpy r.text AT_RESPONSE_LEN)) = .ok (some (r.n.digits ++
      comma :: (r.m.digits ++ (r.rest.bytes ++ 0 :: List.replicate k 0)))) := by
    rw [hbuf, Response.bytes]
    simp only [List.append_assoc, List.cons_append]
    rw [skip_field r.f1.clean, skip_field r.f2.clean, skip_field r.f3.clean,
      skip_field r.f4.clean]
    rfl
  have hhead : ∀ c ∈ (r.rest.bytes ++ 0 :: List.replicate k 0).head?, isdigit c = false := by
    intro c hc
    rw [List.head?_append] at hc
    cases hrest : r.rest.bytes.head? with
    | none =>
      rw [hrest] at hc
      obtain rfl : 0 = c := Option.some.inj hc
      rfl
    | some c' =>
      rw [hrest] at hc
      obtain rfl : c' = c := Option.some.inj hc
      have hr := r.rest_head
      rwa [hrest] at hr
  have hn := r.n.atoi_eq (c := 0) rfl
    (r.m.digits ++ (r.rest.bytes ++ 0 :: List.replicate k 0))
  have h0 : 0 ∈ r.rest.bytes ++ 0 :: List.replicate k 0 :=
    List.mem_append_right _ List.mem_cons_self
  have hdiv : (r.n.value : ℤ).tdiv 2 = (r.n.value / 2 : ℕ) := (Int.ofNat_tdiv _ _).symm
  have hrsrp : (140 - r.m.value + 1 : ℤ) = 141 - r.m.value := by ring
  rw [decode_of_skip hskip, decodeRsrq_of_token (strsep_field r.n.clean) hn,
    decodeRsrp_numeral r.m hhead h0, hdiv, hrsrp]

def rsrq (F : Rounding) (r : Response) : Except Fault ℚ :=
  (lteSignalQualityDecode F r.text).map Prod.fst

/-- Both values are the measured ones, with the exact half of `n`. -/
def Exact (F : Rounding) (r : Response) : Prop :=
  lteSignalQualityDecode F r.text = .ok (20 - (r.n.value : ℚ) / 2, 141 - r.m.value)

theorem toFloat_eq (F : Rounding) (n : Numeral) :
    F.toFloat (20 - (n.value / 2 : ℕ)) = 20 - ((n.value / 2 : ℕ) : ℚ) := by
  have hlt := n.value_lt
  have habs : |(20 - (n.value / 2 : ℕ) : ℤ)| ≤ 2 ^ 24 := by
    rw [abs_le]
    omega
  rw [F.exact _ habs]
  push_cast
  rfl

theorem half_eq_iff (n : ℕ) : ((n / 2 : ℕ) : ℚ) = (n : ℚ) / 2 ↔ Even n := by
  rw [eq_div_iff two_ne_zero, Nat.even_iff]
  have hcast : ((n / 2 : ℕ) : ℚ) * 2 = ((n / 2 * 2 : ℕ) : ℚ) := by push_cast; rfl
  rw [hcast, Nat.cast_inj]
  omega

theorem rsrq_eq (h : r.bytes.length < AT_RESPONSE_LEN) :
    rsrq F r = .ok (20 - ((r.n.value / 2 : ℕ) : ℚ)) := by
  rw [rsrq, decode_response h, toFloat_eq]
  rfl

theorem exact_iff_even (h : r.bytes.length < AT_RESPONSE_LEN) :
    Exact F r ↔ Even r.n.value := by
  rw [Exact, decode_response h, toFloat_eq, ← half_eq_iff, Except.ok.injEq, Prod.mk.injEq,
    and_iff_left rfl, sub_right_inj]

/-- The division is one of integers, so the values are right just for an even `n`, and each
odd one is taken for the even one below it. -/
theorem exact_iff (F : Rounding) (h : r.bytes.length < AT_RESPONSE_LEN) :
    (Exact F r ↔ Even r.n.value) ∧
      (∃ v, lteSignalQualityDecode F r.text = .ok (v, 141 - r.m.value)) ∧
      ∀ r' : Response, r'.bytes.length < AT_RESPONSE_LEN →
        (rsrq F r = rsrq F r' ↔ r.n.value / 2 = r'.n.value / 2) := by
  refine ⟨exact_iff_even h, ⟨_, decode_response h⟩, fun r' h' => ?_⟩
  rw [rsrq_eq h, rsrq_eq h', Except.ok.injEq, sub_right_inj, Nat.cast_inj]

/-- The response `+CESQ: 99,99,255,255,n,50` with its line end. -/
def sampleResponse (n : Numeral) : Response where
  f1 := ⟨⟨[43, 67, 69, 83, 81, 58, 32, 57, 57], by decide⟩, by decide⟩
  f2 := ⟨⟨[57, 57], by decide⟩, by decide⟩
  f3 := ⟨⟨[50, 53, 53], by decide⟩, by decide⟩
  f4 := ⟨⟨[50, 53, 53], by decide⟩, by decide⟩
  n := n
  m := ⟨[53, 48], by decide, by decide, rfl⟩
  rest := ⟨[13, 10], by decide⟩
  rest_head := rfl

def twenty : Numeral := ⟨[50, 48], by decide, by decide, rfl⟩

def twentyOne : Numeral := ⟨[50, 49], by decide, by decide, rfl⟩

theorem exact_iff_twenty : Exact exactRounding (sampleResponse twenty) ∧
    rsrq exactRounding (sampleResponse twenty) = rsrq exactRounding (sampleResponse twentyOne) := by
  have hlen : (sampleResponse twenty).bytes.length < AT_RESPONSE_LEN := by decide
  obtain ⟨hexact, -, hsame⟩ := exact_iff exactRounding hlen
  exact ⟨hexact.mpr (by decide), (hsame (sampleResponse twentyOne) (by decide)).mpr (by decide)⟩

theorem odd_half_lost :
    ¬∀ F r, r.bytes.length < AT_RESPONSE_LEN → Exact F r := by
  intro hall
  have hlen : (sampleResponse twentyOne).bytes.length < AT_RESPONSE_LEN := by decide
  have heven := (exact_iff_even hlen).mp (hall exactRounding _ hlen)
  exact absurd heven (by decide)

end Nrf9160.Lte
