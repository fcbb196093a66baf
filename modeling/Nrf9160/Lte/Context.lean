import Nrf9160.Lte.Signal

/-! `check_ipaddr`: the answers to `AT+CGDCONT?` that it accepts, and what it reads of them. -/

namespace Nrf9160.Lte

open CString

/-- The text `+CGDCONT: 0`. -/
def contextZero : Text where
  bytes := [43, 67, 71, 68, 67, 79, 78, 84, 58, 32, 48]
  nul_free := by decide

/-- The text `"IP"`, with its quotes. -/
def typeIp : Text where
  bytes := [34, 73, 80, 34]
  nul_free := by decide

/-- The text `""`. -/
def emptyQuotes : Text where
  bytes := [34, 34]
  nul_free := by decide

/-- The value that is returned, and the strings that are printed. -/
structure Checked where
  ret : ℤ
  printed : List (List UInt8)

/-- `p == NULL || strcmp(p, s) != 0` -/
def differs (p : Option Ptr) (s : Text) : Except Fault Bool :=
  match p with
  | none => .ok true
  | some p => (strcmp p s.ptr).map fun n => n ≠ 0

/-- `p == NULL || strcmp(p, s) == 0` -/
def lacks (p : Option Ptr) (s : Text) : Except Fault Bool :=
  match p with
  | none => .ok true
  | some p => (strcmp p s.ptr).map fun n => n = 0

def printArg : Option Ptr → Except Fault (List UInt8)
  | none => .error .nullArg
  | some p => text p

def checkIpaddr (buf : Ptr) : Except Fault Checked := do
  let all ← text buf
  let t := some buf
  let (p, t) ← strsep comma t
  if ← differs p contextZero then return ⟨0, [all]⟩
  let (p, t) ← strsep comma t
  if ← differs p typeIp then return ⟨0, [all]⟩
  let (p, t) ← strsep comma t
  if ← lacks p emptyQuotes then return ⟨0, [all]⟩
  let apn ← printArg p
  let (p, _) ← strsep comma t
  if ← lacks p emptyQuotes then return ⟨0, [all, apn]⟩
  let ip ← printArg p
  return ⟨1, [all, apn, ip]⟩

/-- An answer for context 0 of the type IP, with an APN and an address that are not empty
strings, whatever follows them. -/
structure Context (s apn ip : List UInt8) : Prop where
  fields : ∃ tail, s = contextZero.bytes ++ comma :: (typeIp.bytes ++ comma ::
    (apn ++ comma :: (ip ++ tail))) ∧ (tail = [] ∨ ∃ more, tail = comma :: more)
  apn_comma : comma ∉ apn
  ip_comma : comma ∉ ip
  apn_ne : apn ≠ emptyQuotes.bytes
  ip_ne : ip ≠ emptyQuotes.bytes

section

variable {all apn f : List UInt8} {x y : Option (List UInt8)} {u v : Ptr}

/-! The four fields, each with what comes after it. -/

def checkAddress (all apn : List UInt8) (t : Option Ptr) : Except Fault Checked :=
  strsep comma t >>= fun r => lacks r.1 emptyQuotes >>= fun b =>
    if b then .ok ⟨0, [all, apn]⟩ else printArg r.1 >>= fun ip => .ok ⟨1, [all, apn, ip]⟩

def checkApn (all : List UInt8) (t : Option Ptr) : Except Fault Checked :=
  strsep comma t >>= fun r => lacks r.1 emptyQuotes >>= fun b =>
    if b then .ok ⟨0, [all]⟩ else printArg r.1 >>= fun apn => checkAddress all apn r.2

def checkType (all : List UInt8) (t : Option Ptr) : Except Fault Checked :=
  strsep comma t >>= fun r => differs r.1 typeIp >>= fun b =>
    if b then .ok ⟨0, [all]⟩ else checkApn all r.2

def checkContext (all : List UInt8) (t : Option Ptr) : Except Fault Checked :=
  strsep comma t >>= fun r => differs r.1 contextZero >>= fun b =>
    if b then .ok ⟨0, [all]⟩ else checkType all r.2

theorem checkIpaddr_eq (buf : Ptr) : checkIpaddr buf =
    text buf >>= fun all => checkContext all (some buf) := rfl

theorem differs_some (s : Text) (h : 0 ∉ f) :
    differs (some (f ++ 0 :: v)) s = .ok (decide (f ≠ s.bytes)) := by
  obtain ⟨n, hn, hiff⟩ := strcmp_append (u := v) (v := []) h s.nul_free
  rw [differs, Text.ptr, hn]
  simp [Except.map, hiff]

theorem lacks_some (s : Text) (h : 0 ∉ f) :
    lacks (some (f ++ 0 :: v)) s = .ok (decide (f = s.bytes)) := by
  obtain ⟨n, hn, hiff⟩ := strcmp_append (u := v) (v := []) h s.nul_free
  rw [lacks, Text.ptr, hn]
  simp [Except.map, hiff]

/-- The pointer `t` is at the text `x` of a buffer that goes on with `u`. -/
structure At (u : Ptr) (x : Option (List UInt8)) (t : Option Ptr) : Prop where
  eq : t = x.map (· ++ 0 :: u)
  nul_free : ∀ b, x = some b → 0 ∉ b

theorem At.strsep_cases {t : Option Ptr} (h : At u x t) :
    (x = none ∧ strsep comma t = .ok (none, none)) ∨ ∃ f y v t', Token comma x f y ∧ 0 ∉ f ∧
      strsep comma t = .ok (some (f ++ 0 :: v), t') ∧ At u y t' := by
  obtain ⟨rfl, h0⟩ := h
  cases x with
  | none => exact .inl ⟨rfl, rfl⟩
  | some b =>
    obtain ⟨f, y, hf⟩ := exists_token comma b
    obtain ⟨v, hv, hf0, hy⟩ := strsep_token (u := u) (by decide) hf (h0 b rfl)
    exact .inr ⟨f, y, v, _, hf, hf0, hv, rfl, hy⟩

/-- Just the texts with an APN and an address that `P` describes are accepted. -/
def Accepts (all : List UInt8) (P : List UInt8 → List UInt8 → Prop) (o : Except Fault Checked) :
    Prop :=
  (∃ apn ip, P apn ip ∧ o = .ok ⟨1, [all, apn, ip]⟩) ∨
    (∀ apn ip, ¬P apn ip) ∧ ∃ printed, o = .ok ⟨0, printed⟩

def OnAddress (x : Option (List UInt8)) (ip : List UInt8) : Prop :=
  ip ≠ emptyQuotes.bytes ∧ ∃ y, Token comma x ip y

def OnApn (x : Option (List UInt8)) (apn ip : List UInt8) : Prop :=
  apn ≠ emptyQuotes.bytes ∧ ∃ y, Token comma x apn y ∧ OnAddress y ip

def OnType (x : Option (List UInt8)) (apn ip : List UInt8) : Prop :=
  ∃ y, Token comma x typeIp.bytes y ∧ OnApn y apn ip

def OnContext (x : Option (List UInt8)) (apn ip : List UInt8) : Prop :=
  ∃ y, Token comma x contextZero.bytes y ∧ OnType y apn ip

theorem accepts_address {t : Option Ptr} (h : At u x t) :
    Accepts all (fun a ip => a = apn ∧ OnAddress x ip) (checkAddress all apn t) := by
  rcases h.strsep_cases with ⟨rfl, hs⟩ | ⟨f, y, v, t', hf, hf0, hs, -⟩
  · refine .inr ⟨?_, [all, apn], by rw [checkAddress, hs]; rfl⟩
    rintro _ _ ⟨-, -, y, hy⟩
    cases hy
  · by_cases hq : f = emptyQuotes.bytes
    · refine .inr ⟨?_, [all, apn], ?_⟩
      · rintro _ ip ⟨-, hip, y', hy'⟩
        exact hip ((hf.unique hy').1 ▸ hq)
      · rw [checkAddress, hs]
        show (lacks (some (f ++ 0 :: v)) _ >>= _) = _
        rw [lacks_some _ hf0, decide_eq_true hq]
        rfl
    · refine .inl ⟨apn, f, ⟨rfl, hq, y, hf⟩, ?_⟩
      rw [checkAddress, hs]
      show (lacks (some (f ++ 0 :: v)) _ >>= _) = _
      rw [lacks_some _ hf0, decide_eq_false hq]
      show (text (f ++ 0 :: v) >>= _) = _
      rw [text_append hf0]
      rfl

theorem accepts_apn {t : Option Ptr} (h : At u x t) :
    Accepts all (OnApn x) (checkApn all t) := by
  rcases h.strsep_cases with ⟨rfl, hs⟩ | ⟨f, y, v, t', hf, hf0, hs, ht'⟩
  · refine .inr ⟨?_, [all], by rw [checkApn, hs]; rfl⟩
    rintro _ _ ⟨-, y, hy, -⟩
    cases hy
  · by_cases hq : f = emptyQuotes.bytes
    · refine .inr ⟨?_, [all], ?_⟩
      · rintro apn _ ⟨hapn, y', hy', -⟩
        exact hapn ((hf.unique hy').1 ▸ hq)
      · rw [checkApn, hs]
        show (lacks (some (f ++ 0 :: v)) _ >>= _) = _
        rw [lacks_some _ hf0, decide_eq_true hq]
        rfl
    · have hgo : checkApn all t = checkAddress all f t' := by
        rw [checkApn, hs]
        show (lacks (some (f ++ 0 :: v)) _ >>= _) = _
        rw [lacks_some _ hf0, decide_eq_false hq]
        show (text (f ++ 0 :: v) >>= _) = _
        rw [text_append hf0]
        rfl
      rw [hgo]
      have haddr : Accepts all (fun a ip => a = f ∧ OnAddress y ip) (checkAddress all f t') :=
        accepts_address ht'
      rcases haddr with ⟨a, ip, ⟨rfl, hip⟩, ho⟩ | ⟨hno, ho⟩
      · exact .inl ⟨a, ip, ⟨hq, y, hf, hip⟩, ho⟩
      · refine .inr ⟨?_, ho⟩
        rintro apn ip ⟨-, y', hy', hip⟩
        obtain ⟨rfl, rfl⟩ := hf.unique hy'
        exact hno f ip ⟨rfl, hip⟩

/-- A field that has to be the text `s`, and the rest of the answer. -/
theorem accepts_field {s : Text} {Q : Option (List UInt8) → List UInt8 → List UInt8 → Prop}
    {k : Option Ptr → Except Fault Checked} {t : Option Ptr} (h : At u x t)
    (hk : ∀ y t', At u y t' → Accepts all (Q y) (k t')) :
    Accepts all (fun apn ip => ∃ y, Token comma x s.bytes y ∧ Q y apn ip)
      (strsep comma t >>= fun r => differs r.1 s >>= fun b =>
        if b then .ok ⟨0, [all]⟩ else k r.2) := by
  rcases h.strsep_cases with ⟨rfl, hs⟩ | ⟨f, y, v, t', hf, hf0, hs, ht'⟩
  · refine .inr ⟨?_, [all], by rw [hs]; rfl⟩
    rintro _ _ ⟨y, hy, -⟩
    cases hy
  · rw [hs]
    show Accepts _ _ (differs (some (f ++ 0 :: v)) s >>= _)
    rw [differs_some s hf0]
    by_cases heq : f = s.bytes
    · show Accepts _ _ (if decide (f ≠ s.bytes) then _ else k t')
      rw [decide_eq_false (not_not.mpr heq)]
      subst heq
      rcases hk y t' ht' with ⟨apn, ip, hq, ho⟩ | ⟨hno, ho⟩
      · exact .inl ⟨apn, ip, ⟨y, hf, hq⟩, ho⟩
      · refine .inr ⟨?_, ho⟩
        rintro apn ip ⟨y', hy', hq⟩
        obtain ⟨-, rfl⟩ := hf.unique hy'
        exact hno apn ip hq
    · refine .inr ⟨?_, [all], ?_⟩
      · rintro _ _ ⟨y', hy', -⟩
        exact heq (hf.unique hy').1
      · show (if decide (f ≠ s.bytes) then _ else _) = _
        rw [decide_eq_true heq]
        rfl

theorem accepts_context {t : Option Ptr} (h : At u x t) :
    Accepts all (OnContext x) (checkContext all t) :=
  accepts_field h fun _ _ hy => accepts_field hy fun _ _ hz => accepts_apn hz

theorem token_some {b : List UInt8} (h : Token comma x f (some b)) :
    x = some (f ++ comma :: b) ∧ comma ∉ f := by
  cases h with
  | more hf => exact ⟨rfl, hf⟩

theorem onContext_iff {s ip : List UInt8} : OnContext (some s) apn ip ↔ Context s apn ip := by
  constructor
  · rintro ⟨y1, h1, y2, h2, hapn, y3, h3, hip, y4, h4⟩
    obtain ⟨b3, rfl⟩ : ∃ b3, y3 = some b3 := by cases h4 <;> exact ⟨_, rfl⟩
    obtain ⟨rfl, hapn0⟩ := token_some h3
    obtain ⟨rfl, -⟩ := token_some h2
    obtain ⟨hs, -⟩ := token_some h1
    obtain rfl := Option.some.inj hs
    cases h4 with
    | last hip0 => exact ⟨⟨[], by rw [List.append_nil], .inl rfl⟩, hapn0, hip0, hapn, hip⟩
    | more hip0 => exact ⟨⟨_, rfl, .inr ⟨_, rfl⟩⟩, hapn0, hip0, hapn, hip⟩
  · rintro ⟨⟨tail, rfl, htail⟩, hapn0, hip0, hapn, hip⟩
    refine ⟨_, .more (by decide), _, .more (by decide), hapn, _, .more hapn0, hip, ?_⟩
    rcases htail with rfl | ⟨more, rfl⟩
    · rw [List.append_nil]
      exact ⟨_, .last hip0⟩
    · exact ⟨_, .more hip0⟩

/-- On every answer of the modem, and whatever lies behind it in memory, `check_ipaddr` comes to
a result; it is 1 just on the answers of the form above, of which it prints the APN and the
address, and 0 on all others. -/
theorem checkIpaddr_accepts (s : Text) (u : Ptr) :
    Accepts s.bytes (Context s.bytes) (checkIpaddr (s.bytes ++ 0 :: u)) := by
  have hat : At u (some s.bytes) (some (s.bytes ++ 0 :: u)) := by
    refine ⟨rfl, ?_⟩
    rintro _ ⟨⟩
    exact s.nul_free
  have hgo : checkIpaddr (s.bytes ++ 0 :: u) = checkContext s.bytes (some (s.bytes ++ 0 :: u)) := by
    rw [checkIpaddr_eq, text_append s.nul_free]
    rfl
  have hiff : OnContext (some s.bytes) = Context s.bytes := by
    funext apn ip
    exact propext onContext_iff
  rw [hgo, ← hiff]
  exact accepts_context hat

end

end Nrf9160.Lte
