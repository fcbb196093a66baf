import Mathlib.Data.List.Count
import Mathlib.Data.List.TakeWhile
import Mathlib.Tactic.Ring

/-! Functions of the C library on the bytes of a buffer, and the accesses that they may not
make. A pointer is given by the bytes from it to the end of its buffer. -/

namespace CString

inductive Fault where
  | outside
  | nullArg
deriving DecidableEq

/-- A string, without the zero that ends it. -/
structure Text where
  bytes : List UInt8
  nul_free : 0 ∉ bytes

abbrev Ptr := List UInt8

def strncpy (s : Text) (n : ℕ) : Ptr :=
  s.bytes.take n ++ List.replicate (n - s.bytes.length) 0

/-- The scan of `strsep`: the token with the zero that now ends it, and what comes after. -/
def cut (delim : UInt8) : Ptr → Except Fault (Ptr × Option Ptr)
  | [] => .error .outside
  | c :: cs =>
    if c = delim then .ok (0 :: cs, some cs)
    else if c = 0 then .ok (0 :: cs, none)
    else (cut delim cs).map fun r => (c :: r.1, r.2)

/-- The token and the new value of `*stringp`. -/
def strsep (delim : UInt8) : Option Ptr → Except Fault (Option Ptr × Option Ptr)
  | none => .ok (none, none)
  | some t => (cut delim t).map fun r => (some r.1, r.2)

def isspace (c : UInt8) : Bool := c = 32 || (9 ≤ c && c ≤ 13)

def isdigit (c : UInt8) : Bool := 48 ≤ c && c ≤ 57

def decimal (acc : ℕ) (ds : List UInt8) : ℕ := ds.foldl (fun a c => 10 * a + (c.toNat - 48)) acc

def atoiDigits (acc : ℕ) : Ptr → Except Fault ℕ
  | [] => .error .outside
  | c :: cs => if isdigit c then atoiDigits (10 * acc + (c.toNat - 48)) cs else .ok acc

def atoiSign : Ptr → Except Fault ℤ
  | [] => .error .outside
  | c :: cs =>
    if c = 45 then (atoiDigits 0 cs).map fun n : ℕ => -(n : ℤ)
    else if c = 43 then (atoiDigits 0 cs).map fun n : ℕ => (n : ℤ)
    else (atoiDigits 0 (c :: cs)).map fun n : ℕ => (n : ℤ)

def atoiSpace : Ptr → Except Fault ℤ
  | [] => .error .outside
  | c :: cs => if isspace c then atoiSpace cs else atoiSign (c :: cs)

def atoi : Option Ptr → Except Fault ℤ
  | none => .error .nullArg
  | some p => atoiSpace p

variable {delim c : UInt8} {f t u tail : Ptr} {ds : List UInt8} {n k acc : ℕ}

/-! What `strsep` makes of a field. -/

theorem cut_append (hf : ∀ c ∈ f, c ≠ delim ∧ c ≠ 0) :
    cut delim (f ++ u) = (cut delim u).map fun r => (f ++ r.1, r.2) := by
  induction f with
  | nil =>
    show cut delim u = _
    cases cut delim u <;> rfl
  | cons c f ih =>
    obtain ⟨⟨hd, h0⟩, hf⟩ := List.forall_mem_cons.mp hf
    rw [List.cons_append, cut, if_neg hd, if_neg h0, ih hf]
    cases cut delim u <;> rfl

theorem cut_delim (delim : UInt8) (u : Ptr) : cut delim (delim :: u) = .ok (0 :: u, some u) :=
  if_pos rfl

theorem cut_nul (hd : delim ≠ 0) (u : Ptr) : cut delim (0 :: u) = .ok (0 :: u, none) := by
  rw [cut, if_neg hd.symm, if_pos rfl]

theorem strsep_field (hf : ∀ c ∈ f, c ≠ delim ∧ c ≠ 0) :
    strsep delim (some (f ++ delim :: u)) = .ok (some (f ++ 0 :: u), some u) := by
  rw [strsep, cut_append hf, cut_delim]
  rfl

theorem strsep_last (hd : delim ≠ 0) (hf : ∀ c ∈ f, c ≠ delim ∧ c ≠ 0) :
    strsep delim (some (f ++ 0 :: u)) = .ok (some (f ++ 0 :: u), none) := by
  rw [strsep, cut_append hf, cut_nul hd]
  rfl

theorem strsep_outside (hf : ∀ c ∈ f, c ≠ delim ∧ c ≠ 0) :
    strsep delim (some f) = .error .outside := by
  have hcut := cut_append (u := []) hf
  rw [List.append_nil] at hcut
  rw [strsep, hcut]
  rfl

theorem cut_ok (delim : UInt8) (h : 0 ∈ u) : ∃ r, cut delim u = .ok r := by
  induction u with
  | nil => exact absurd h List.not_mem_nil
  | cons c u ih =>
    unfold cut
    split_ifs with hd h0
    · exact ⟨_, rfl⟩
    · exact ⟨_, rfl⟩
    · obtain ⟨r, hr⟩ := ih ((List.mem_cons.mp h).resolve_left fun he => h0 he.symm)
      rw [hr]
      exact ⟨_, rfl⟩

/-- A token begins like the text it was cut from, unless it is empty. -/
theorem cut_head (delim : UInt8) (hc : isdigit c = false) (h : 0 ∈ c :: u) :
    ∃ c' u' t', cut delim (c :: u) = .ok (c' :: u', t') ∧ isdigit c' = false := by
  unfold cut
  split_ifs with hd h0
  · exact ⟨0, u, _, rfl, rfl⟩
  · exact ⟨0, u, _, rfl, rfl⟩
  · obtain ⟨r, hr⟩ := cut_ok delim ((List.mem_cons.mp h).resolve_left fun he => h0 he.symm)
    rw [hr]
    exact ⟨c, r.1, r.2, rfl, hc⟩

/-! `atoi` on a token. -/

theorem isdigit_iff : isdigit c = true ↔ 48 ≤ c.toNat ∧ c.toNat ≤ 57 := by
  simp only [isdigit, Bool.and_eq_true, decide_eq_true_eq, UInt8.le_iff_toNat_le]
  exact Iff.rfl

theorem isspace_eq_false (h : isdigit c = true) : isspace c = false := by
  have hc := isdigit_iff.mp h
  have hne : c ≠ 32 := by
    rintro rfl
    exact absurd hc.1 (by decide)
  have hle : ¬c ≤ 13 := by
    rw [UInt8.le_iff_toNat_le]
    show ¬c.toNat ≤ 13
    omega
  simp only [isspace, decide_eq_false hne, decide_eq_false hle, Bool.and_false, Bool.or_self]

theorem atoiDigits_ok (h : 0 ∈ u) (acc : ℕ) : ∃ n, atoiDigits acc u = .ok n := by
  induction u generalizing acc with
  | nil => exact absurd h List.not_mem_nil
  | cons c u ih =>
    unfold atoiDigits
    split_ifs with hc
    · have hne : (0 : UInt8) ≠ c := by
        rintro rfl
        cases hc
      exact ih ((List.mem_cons.mp h).resolve_left hne) _
    · exact ⟨acc, rfl⟩

theorem atoiSign_ok (h : 0 ∈ u) : ∃ v, atoiSign u = .ok v := by
  cases u with
  | nil => exact absurd h List.not_mem_nil
  | cons c u =>
    rw [atoiSign]
    split_ifs with hminus hplus
    · subst hminus
      obtain ⟨n, hn⟩ := atoiDigits_ok ((List.mem_cons.mp h).resolve_left (by decide)) 0
      exact ⟨_, by rw [hn]; rfl⟩
    · subst hplus
      obtain ⟨n, hn⟩ := atoiDigits_ok ((List.mem_cons.mp h).resolve_left (by decide)) 0
      exact ⟨_, by rw [hn]; rfl⟩
    · obtain ⟨n, hn⟩ := atoiDigits_ok h 0
      exact ⟨_, by rw [hn]; rfl⟩

theorem atoi_ok (h : 0 ∈ u) : ∃ v, atoi (some u) = .ok v := by
  show ∃ v, atoiSpace u = .ok v
  induction u with
  | nil => exact absurd h List.not_mem_nil
  | cons c u ih =>
    unfold atoiSpace
    split_ifs with hc
    · have hne : (0 : UInt8) ≠ c := by
        rintro rfl
        cases hc
      exact ih ((List.mem_cons.mp h).resolve_left hne)
    · exact atoiSign_ok h

theorem atoiDigits_decimal (hds : ∀ c ∈ ds, isdigit c = true) (hc : isdigit c = false) :
    atoiDigits acc (ds ++ c :: u) = .ok (decimal acc ds) := by
  induction ds generalizing acc with
  | nil =>
    rw [List.nil_append, atoiDigits, hc]
    rfl
  | cons d ds ih =>
    obtain ⟨hd, hds⟩ := List.forall_mem_cons.mp hds
    rw [List.cons_append, atoiDigits, if_pos hd, ih hds]
    rfl

/-- `atoi` reads a numeral up to the first byte that is no digit. -/
theorem atoi_decimal (hne : ds ≠ []) (hds : ∀ c ∈ ds, isdigit c = true)
    (hc : isdigit c = false) : atoi (some (ds ++ c :: u)) = .ok (decimal 0 ds : ℤ) := by
  obtain ⟨d, ds', rfl⟩ := List.exists_cons_of_ne_nil hne
  have hd := hds d List.mem_cons_self
  have hspace : ¬isspace d = true := Bool.eq_false_iff.mp (isspace_eq_false hd)
  have hminus : d ≠ 45 := by
    rintro rfl
    cases hd
  have hplus : d ≠ 43 := by
    rintro rfl
    cases hd
  show atoiSpace (d :: (ds' ++ c :: u)) = _
  rw [atoiSpace, if_neg hspace, atoiSign, if_neg hminus, if_neg hplus, ← List.cons_append,
    atoiDigits_decimal hds hc]
  rfl

theorem decimal_lt (acc : ℕ) (hds : ∀ c ∈ ds, isdigit c = true) :
    decimal acc ds < (acc + 1) * 10 ^ ds.length := by
  induction ds generalizing acc with
  | nil => simp [decimal]
  | cons d ds ih =>
    obtain ⟨hd, hds⟩ := List.forall_mem_cons.mp hds
    have hrange := isdigit_iff.mp hd
    have hnext := ih (10 * acc + (d.toNat - 48)) hds
    have hmul : (10 * acc + (d.toNat - 48) + 1) * 10 ^ ds.length ≤
        (10 * (acc + 1)) * 10 ^ ds.length := Nat.mul_le_mul_right _ (by omega)
    calc decimal acc (d :: ds) = decimal (10 * acc + (d.toNat - 48)) ds := rfl
      _ < (10 * (acc + 1)) * 10 ^ ds.length := lt_of_lt_of_le hnext hmul
      _ = (acc + 1) * 10 ^ (ds.length + 1) := by rw [Nat.pow_succ]; ring

/-! A row of `strsep` calls on one string. -/

/-- The string at `t` has `n` delimiters and ends with what `tail` begins with: the zero of a
string, or the end of the buffer. -/
def Ahead (delim : UInt8) (tail : Ptr) (n : ℕ) (t : Ptr) : Prop :=
  ∃ l, t = l ++ tail ∧ 0 ∉ l ∧ l.count delim = n

/-- `k` calls of `strsep` whose tokens are not used. -/
def skip (delim : UInt8) : ℕ → Option Ptr → Except Fault (Option Ptr)
  | 0, t => .ok t
  | k + 1, t => strsep delim t >>= fun r => skip delim k r.2

theorem skip_field (hf : ∀ c ∈ f, c ≠ delim ∧ c ≠ 0) :
    skip delim (k + 1) (some (f ++ delim :: u)) = skip delim k (some u) := by
  rw [skip, strsep_field hf]
  rfl

theorem clean_of_notMem (h0 : 0 ∉ f) (hd : delim ∉ f) : ∀ c ∈ f, c ≠ delim ∧ c ≠ 0 := by
  intro c hc
  constructor
  · rintro rfl
    exact hd hc
  · rintro rfl
    exact h0 hc

/-- A copy that fits ends with a zero, and one that does not ends with the buffer. -/
theorem ahead_strncpy (delim : UInt8) (s : Text) (n : ℕ) :
    (s.bytes.length < n ∧
      ∃ u, Ahead delim (0 :: u) ((s.bytes.take n).count delim) (strncpy s n)) ∨
    (n ≤ s.bytes.length ∧ Ahead delim [] ((s.bytes.take n).count delim) (strncpy s n)) := by
  have h0 : 0 ∉ s.bytes.take n := fun h => s.nul_free (List.mem_of_mem_take h)
  rcases Nat.lt_or_ge s.bytes.length n with hlt | hle
  · obtain ⟨k, hk⟩ : ∃ k, n - s.bytes.length = k + 1 := ⟨n - s.bytes.length - 1, by omega⟩
    refine .inl ⟨hlt, List.replicate k 0, s.bytes.take n, ?_, h0, rfl⟩
    rw [strncpy, hk, List.replicate_succ]
  · refine .inr ⟨hle, s.bytes.take n, ?_, h0, rfl⟩
    rw [strncpy, Nat.sub_eq_zero_of_le hle, List.replicate_zero]

theorem Ahead.strsep_succ (h : Ahead delim tail (n + 1) t) :
    ∃ p t', strsep delim (some t) = .ok (some p, some t') ∧ 0 ∈ p ∧ Ahead delim tail n t' := by
  obtain ⟨l, rfl, h0, hn⟩ := h
  have hmem : delim ∈ l := List.count_pos_iff.mp (by omega)
  obtain ⟨f, l', rfl, hf⟩ := List.eq_append_cons_of_mem hmem
  have h0f : 0 ∉ f := fun hc => h0 (List.mem_append_left _ hc)
  have h0l : 0 ∉ l' := fun hc => h0 (List.mem_append_right _ (List.mem_cons_of_mem _ hc))
  have hfield := strsep_field (u := l' ++ tail) (clean_of_notMem h0f hf)
  rw [List.append_assoc, List.cons_append]
  refine ⟨_, _, hfield, List.mem_append_right _ List.mem_cons_self, l', rfl, h0l, ?_⟩
  rw [List.count_append, List.count_cons_self, List.count_eq_zero_of_not_mem hf] at hn
  omega

theorem Ahead.strsep_zero (hd : delim ≠ 0) (h : Ahead delim (0 :: u) 0 t) :
    ∃ p, strsep delim (some t) = .ok (some p, none) ∧ 0 ∈ p := by
  obtain ⟨l, rfl, h0, hn⟩ := h
  have hclean := clean_of_notMem h0 (List.count_eq_zero.mp hn)
  exact ⟨_, strsep_last hd hclean, List.mem_append_right _ List.mem_cons_self⟩

theorem Ahead.strsep_outside (h : Ahead delim [] 0 t) :
    strsep delim (some t) = .error .outside := by
  obtain ⟨l, rfl, h0, hn⟩ := h
  rw [List.append_nil]
  exact CString.strsep_outside (clean_of_notMem h0 (List.count_eq_zero.mp hn))

theorem Ahead.skip (h : Ahead delim tail (k + n) t) :
    ∃ t', CString.skip delim k (some t) = .ok (some t') ∧ Ahead delim tail n t' := by
  induction k generalizing t with
  | zero =>
    rw [Nat.zero_add] at h
    exact ⟨t, rfl, h⟩
  | succ k ih =>
    rw [Nat.add_right_comm] at h
    obtain ⟨p, u, hu, -, hahead⟩ := h.strsep_succ
    obtain ⟨t', ht', h'⟩ := ih hahead
    refine ⟨t', ?_, h'⟩
    rw [CString.skip, hu]
    exact ht'

theorem skip_none (k : ℕ) : skip delim k none = .ok none := by
  induction k with
  | zero => rfl
  | succ k ih => exact ih

theorem Ahead.skip_short (hd : delim ≠ 0) (h : Ahead delim (0 :: u) n t) (hk : n < k) :
    CString.skip delim k (some t) = .ok none := by
  induction k generalizing n t with
  | zero => exact absurd hk (Nat.not_lt_zero n)
  | succ k ih =>
    cases n with
    | zero =>
      obtain ⟨p, hp, -⟩ := h.strsep_zero hd
      rw [CString.skip, hp]
      exact skip_none k
    | succ n =>
      obtain ⟨p, t', ht', -, hahead⟩ := h.strsep_succ
      rw [CString.skip, ht']
      exact ih hahead (Nat.lt_of_succ_lt_succ hk)

theorem Ahead.skip_outside (h : Ahead delim [] n t) (hk : n < k) :
    CString.skip delim k (some t) = .error .outside := by
  induction k generalizing n t with
  | zero => exact absurd hk (Nat.not_lt_zero n)
  | succ k ih =>
    cases n with
    | zero =>
      rw [CString.skip, h.strsep_outside]
      rfl
    | succ n =>
      obtain ⟨p, t', ht', -, hahead⟩ := h.strsep_succ
      rw [CString.skip, ht']
      exact ih hahead (Nat.lt_of_succ_lt_succ hk)

/-! `strcmp` and the text of a string, and the grammar of a row of tokens. -/

def strcmp : Ptr → Ptr → Except Fault ℤ
  | c :: cs, d :: ds => if c = d ∧ c ≠ 0 then strcmp cs ds else .ok ((c.toNat : ℤ) - d.toNat)
  | _, _ => .error .outside

/-- What `printf` makes of `%s`. -/
def text : Ptr → Except Fault (List UInt8)
  | [] => .error .outside
  | c :: cs => if c = 0 then .ok [] else (text cs).map (c :: ·)

def Text.ptr (s : Text) : Ptr := s.bytes ++ [0]

theorem text_append (h : 0 ∉ f) : text (f ++ 0 :: u) = .ok f := by
  induction f with
  | nil => rfl
  | cons c f ih =>
    obtain ⟨hc, hf⟩ := List.ne_and_not_mem_of_not_mem_cons h
    rw [List.cons_append, text, if_neg (Ne.symm hc), ih hf]
    rfl

theorem strcmp_append {g v : Ptr} (hf : 0 ∉ f) (hg : 0 ∉ g) :
    ∃ n, strcmp (f ++ 0 :: u) (g ++ 0 :: v) = .ok n ∧ (n = 0 ↔ f = g) := by
  induction f generalizing g with
  | nil =>
    cases g with
    | nil => exact ⟨0, rfl, by simp⟩
    | cons d g =>
      have hd : d ≠ 0 := Ne.symm (List.ne_and_not_mem_of_not_mem_cons hg).1
      refine ⟨_, if_neg fun h => h.2 rfl, ?_⟩
      have hpos : d.toNat ≠ 0 := fun h => hd (UInt8.toNat.inj h)
      simp [hpos]
  | cons c f ih =>
    obtain ⟨hc, hf⟩ := List.ne_and_not_mem_of_not_mem_cons hf
    cases g with
    | nil =>
      refine ⟨_, if_neg fun h => hc h.1.symm, ?_⟩
      have hpos : c.toNat ≠ 0 := fun h => hc (UInt8.toNat.inj h).symm
      simp [hpos]
    | cons d g =>
      rw [List.cons_append, List.cons_append, strcmp]
      by_cases hcd : c = d
      · subst hcd
        rw [if_pos ⟨rfl, Ne.symm hc⟩]
        simpa using ih hf (List.not_mem_of_not_mem_cons hg)
      · rw [if_neg fun h => hcd h.1]
        refine ⟨_, rfl, ?_⟩
        have hne : c.toNat ≠ d.toNat := fun h => hcd (UInt8.toNat.inj h)
        constructor
        · intro h
          omega
        · intro h
          exact absurd (List.cons.inj h).1 hcd

/-- The text `x` begins with the token `f`, and `y` is what is left of it, if a delimiter ends
the token. -/
inductive Token (delim : UInt8) : Option (List UInt8) → List UInt8 → Option (List UInt8) → Prop
  | last {f : List UInt8} (h : delim ∉ f) : Token delim (some f) f none
  | more {f b : List UInt8} (h : delim ∉ f) : Token delim (some (f ++ delim :: b)) f (some b)

variable {x y y' : Option (List UInt8)} {b f' : List UInt8}

theorem exists_token (delim : UInt8) (b : List UInt8) : ∃ f y, Token delim (some b) f y := by
  by_cases h : delim ∈ b
  · obtain ⟨f, b, rfl, hf⟩ := List.eq_append_cons_of_mem h
    exact ⟨f, some b, .more hf⟩
  · exact ⟨b, none, .last h⟩

theorem takeWhile_of_token (h : Token delim (some b) f y) : b.takeWhile (· ≠ delim) = f := by
  generalize hx : some b = x at h
  cases h with
  | last hf =>
    obtain rfl := Option.some.inj hx
    exact List.takeWhile_eq_self_iff.mpr fun c hc => decide_eq_true fun he => hf (he ▸ hc)
  | @more _ r hf =>
    obtain rfl := Option.some.inj hx
    have hall : ∀ c ∈ f, decide (c ≠ delim) = true :=
      fun c hc => decide_eq_true fun he => hf (he ▸ hc)
    rw [List.takeWhile_append_of_pos hall, List.takeWhile_cons_of_neg (by simp), List.append_nil]

theorem Token.unique (h : Token delim x f y) (h' : Token delim x f' y') : f = f' ∧ y = y' := by
  have hf : f = f' := by
    cases x with
    | none => cases h
    | some b => exact (takeWhile_of_token h).symm.trans (takeWhile_of_token h')
  subst hf
  refine ⟨rfl, ?_⟩
  generalize hx : x = x' at h'
  cases h with
  | last hf =>
    cases h' with
    | last => rfl
    | more =>
      have hlen := congrArg (Option.map List.length) hx
      simp at hlen
  | more hf =>
    cases h' with
    | last =>
      have hlen := congrArg (Option.map List.length) hx
      simp at hlen
    | more =>
      have heq := List.append_cancel_left (Option.some.inj hx)
      rw [(List.cons.inj heq).2]

theorem strsep_token (hd : delim ≠ 0) (h : Token delim (some b) f y) (h0 : 0 ∉ b) :
    ∃ v, strsep delim (some (b ++ 0 :: u)) = .ok (some (f ++ 0 :: v), y.map (· ++ 0 :: u)) ∧
      0 ∉ f ∧ ∀ r, y = some r → 0 ∉ r := by
  generalize hx : some b = x at h
  cases h with
  | last hf =>
    obtain rfl := Option.some.inj hx
    exact ⟨u, strsep_last hd (clean_of_notMem h0 hf), h0, fun _ hr => nomatch hr⟩
  | @more _ r hf =>
    obtain rfl := Option.some.inj hx
    have hf0 : 0 ∉ f := fun hm => h0 (List.mem_append_left _ hm)
    refine ⟨r ++ 0 :: u, ?_, hf0, ?_⟩
    · rw [List.append_assoc, List.cons_append]
      exact strsep_field (clean_of_notMem hf0 hf)
    · rintro _ ⟨⟩ hm
      exact h0 (List.mem_append_right _ (List.mem_cons_of_mem _ hm))

end CString
