import Mathlib.Algebra.Ring.Nat
import Nrf9160.Net.Ntp

/-! The time in a reply of the time server: `ntp_to_unixtime` on the bytes of the message, over
both eras of the NTP seconds. -/

namespace Nrf9160.Net

/-- The seconds at which the reply was sent: bytes 40 to 43, most significant first. -/
def transmitSeconds (m : Vector UInt8 48) : ℕ :=
  (m.get 40).toNat * 2 ^ 24 + (m.get 41).toNat * 2 ^ 16 + (m.get 42).toNat * 2 ^ 8 +
    (m.get 43).toNat

/-- The reply was sent at the Unix time `t`. -/
def SentAt (m : Vector UInt8 48) (t : UInt32) : Prop :=
  transmitSeconds m = (t.toNat + 2208988800) % 2 ^ 32

variable {m m' : Vector UInt8 48} {t t' : UInt32}

theorem leWord_bit (b0 b1 b2 b3 : UInt8) (i : ℕ) (hi : i < 32) :
    (leWord b0 b1 b2 b3).toBitVec.getLsbD i =
      if i < 8 then b0.toBitVec.getLsbD i else if i < 16 then b1.toBitVec.getLsbD (i - 8)
      else if i < 24 then b2.toBitVec.getLsbD (i - 16) else b3.toBitVec.getLsbD (i - 24) := by
  simp only [leWord, UInt32.toBitVec_or, UInt32.toBitVec_shiftLeft, UInt8.toBitVec_toUInt32,
    BitVec.getLsbD_or]
  simp only [BitVec.getLsbD_setWidth, UInt32.toBitVec_ofNat, BitVec.ofNat_eq_ofNat,
    BitVec.reduceMod, BitVec.shiftLeft_eq', BitVec.toNat_ofNat, Nat.reducePow, Nat.reduceMod,
    BitVec.getLsbD_shiftLeft]
  grind

theorem htobe32_bit (x : UInt32) (i : ℕ) (hi : i < 32) : (htobe32 x).toBitVec.getLsbD i =
    if i < 8 then x.toBitVec.getLsbD (i + 24) else if i < 16 then x.toBitVec.getLsbD (i + 8)
    else if i < 24 then x.toBitVec.getLsbD (i - 8) else x.toBitVec.getLsbD (i - 24) := by
  have hhigh : ∀ i < 32, (0xff0000 : UInt32).toBitVec.getLsbD i =
      (decide (16 ≤ i) && decide (i < 24)) := by decide
  have hlow : ∀ i < 32, (0xff00 : UInt32).toBitVec.getLsbD i =
      (decide (8 ≤ i) && decide (i < 16)) := by decide
  simp only [htobe32, UInt32.toBitVec_or, UInt32.toBitVec_and, UInt32.toBitVec_shiftLeft,
    UInt32.toBitVec_shiftRight, BitVec.getLsbD_or, BitVec.getLsbD_and, hhigh i hi, hlow i hi]
  simp only [UInt32.toBitVec_ofNat, BitVec.ofNat_eq_ofNat, BitVec.reduceMod,
    BitVec.shiftLeft_eq', BitVec.ushiftRight_eq', BitVec.toNat_ofNat, Nat.reducePow,
    Nat.reduceMod, BitVec.getLsbD_shiftLeft, BitVec.getLsbD_ushiftRight]
  grind

theorem htobe32_leWord (b0 b1 b2 b3 : UInt8) :
    htobe32 (leWord b0 b1 b2 b3) = leWord b3 b2 b1 b0 := by
  apply UInt32.toBitVec_inj.mp
  apply BitVec.eq_of_getLsbD_eq
  intro i hi
  rw [htobe32_bit _ i hi, leWord_bit _ _ _ _ i hi]
  split_ifs with h8 h16 h24
  · rw [leWord_bit _ _ _ _ _ (by omega)]
    grind
  · rw [leWord_bit _ _ _ _ _ (by omega)]
    grind
  · rw [leWord_bit _ _ _ _ _ (by omega)]
    grind
  · rw [leWord_bit _ _ _ _ _ (by omega)]
    grind

theorem or_shiftLeft (a b k : ℕ) (ha : a < 2 ^ k) : a ||| b <<< k = b * 2 ^ k + a := by
  rw [Nat.or_comm, ← Nat.shiftLeft_add_eq_or_of_lt ha, Nat.shiftLeft_eq]

theorem toNat_byte_shiftLeft (b : UInt8) (k : UInt32) (hk : k.toNat ≤ 24) :
    (b.toUInt32 <<< k).toNat = b.toNat <<< k.toNat := by
  have hb := b.toNat_lt
  have hpow : 2 ^ k.toNat ≤ 2 ^ 24 := Nat.pow_le_pow_right (by omega) hk
  rw [UInt32.toNat_shiftLeft, UInt8.toNat_toUInt32, Nat.mod_eq_of_lt (by omega : k.toNat < 32),
    Nat.shiftLeft_eq]
  apply Nat.mod_eq_of_lt
  calc b.toNat * 2 ^ k.toNat ≤ b.toNat * 2 ^ 24 := Nat.mul_le_mul_left _ hpow
    _ < 2 ^ 32 := by omega

theorem leWord_toNat (b0 b1 b2 b3 : UInt8) : (leWord b0 b1 b2 b3).toNat =
    b3.toNat * 2 ^ 24 + b2.toNat * 2 ^ 16 + b1.toNat * 2 ^ 8 + b0.toNat := by
  have h0 := b0.toNat_lt
  have h1 := b1.toNat_lt
  have h2 := b2.toNat_lt
  have h3 := b3.toNat_lt
  have e1 : (b1.toUInt32 <<< 8).toNat = b1.toNat <<< 8 := toNat_byte_shiftLeft b1 8 (by decide)
  have e2 : (b2.toUInt32 <<< 16).toNat = b2.toNat <<< 16 := toNat_byte_shiftLeft b2 16 (by decide)
  have e3 : (b3.toUInt32 <<< 24).toNat = b3.toNat <<< 24 := toNat_byte_shiftLeft b3 24 (by decide)
  simp only [leWord, UInt32.toNat_or, e1, e2, e3, UInt8.toNat_toUInt32]
  rw [or_shiftLeft _ _ 8 (by omega), or_shiftLeft _ _ 16 (by omega),
    or_shiftLeft _ _ 24 (by omega)]
  omega

theorem NTP_TO_UNIX_toNat (x : UInt32) :
    (NTP_TO_UNIX x).toNat = (x.toNat + (2 ^ 32 - 2208988800)) % 2 ^ 32 := by
  have hx := x.toNat_lt
  simp only [NTP_TO_UNIX, UInt64.toNat_toUInt32, UInt64.toNat_sub, UInt32.toNat_toUInt64]
  show (2 ^ 64 - 2208988800 + x.toNat) % 2 ^ 64 % 2 ^ 32 = _
  omega

theorem ntpToUnixtime_eq (m : Vector UInt8 48) : (ntpToUnixtime (.ofBytes m)).toNat =
    (transmitSeconds m + (2 ^ 32 - 2208988800)) % 2 ^ 32 := by
  have hxmt : ntpToUnixtime (.ofBytes m) = NTP_TO_UNIX (leWord m[43] m[42] m[41] m[40]) :=
    congrArg NTP_TO_UNIX (htobe32_leWord ..)
  rw [hxmt, NTP_TO_UNIX_toNat, leWord_toNat]
  rfl

theorem ntpToUnixtime_of_sentAt (h : SentAt m t) : ntpToUnixtime (.ofBytes m) = t := by
  have ht := t.toNat_lt
  apply UInt32.toNat_inj.mp
  rw [ntpToUnixtime_eq, h]
  omega

/-- The time of every reply is decoded, before and after the seconds of the server wrap. -/
theorem unixtime_decoded (h : SentAt m t) : ntpToUnixtime (.ofBytes m) = t ∧
    ∀ m' t', SentAt m' t' → ntpToUnixtime (.ofBytes m') = ntpToUnixtime (.ofBytes m) →
      t' = t := by
  refine ⟨ntpToUnixtime_of_sentAt h, fun m' t' h' he => ?_⟩
  rw [ntpToUnixtime_of_sentAt h, ntpToUnixtime_of_sentAt h'] at he
  exact he

/-- The first second of the second era, in 2036. -/
theorem unixtime_decoded_sample :
    ntpToUnixtime (.ofBytes (Vector.replicate 48 0)) = 2085978496 := by
  have h : SentAt (Vector.replicate 48 0) 2085978496 := rfl
  exact (unixtime_decoded h).1

/-! The time that a run of `ntp_main` prints. -/

def Call.Prints (u : UInt32) : (c : Call) → c.Answer → Prop
  | printfTime v => fun _ => v = u
  | _ => fun _ => False

section

variable {log : List Event} {ret fd : ℤ} {u : UInt32}

theorem Exchange.printed (h : Exchange fd log) (hu : Has (Call.Prints u) log) :
    ∃ r, ⟨.nrfRecvfrom fd 48, r⟩ ∈ log ∧ u = ntpToUnixtime (.ofBytes (r.store query)) := by
  cases h with
  | unsent => exact absurd hu (not_has_cons id (not_has_cons id not_has_nil))
  | unanswered =>
    exact absurd hu (not_has_cons id (not_has_cons id (not_has_cons id not_has_nil)))
  | untimed =>
    refine absurd hu (not_has_cons id (not_has_cons id ?_))
    exact not_has_cons id (not_has_cons id not_has_nil)
  | @timed n e r hn hr =>
    have hrecv := (has_cons.mp hu).resolve_left id
    have htime := (has_cons.mp hrecv).resolve_left id
    have hprint := (has_cons.mp htime).resolve_left id
    rcases has_cons.mp hprint with hu | hclose
    · exact ⟨r, List.mem_cons_of_mem _ List.mem_cons_self, hu.symm⟩
    · exact absurd hclose (not_has_cons id not_has_nil)

theorem Call.IsSetup.not_prints {c : Call} (h : c.IsSetup) (r : c.Answer) : ¬c.Prints u r := by
  cases c <;> first | exact id | exact h.elim

theorem Prepared.not_printed {a : ℤ × ℤ} (h : Prepared fd a log) : ¬Has (Call.Prints u) log := by
  rintro ⟨ev, hev, hu⟩
  exact (h.setup ev hev).not_prints ev.2 hu

/-- Whatever a run prints is the time of the reply that it has received. -/
theorem printed_of_run {fd0 : ℤ} (h : (ntpMain fd0).Runs log ret)
    (hu : Has (Call.Prints u) log) : ∃ fd r, ⟨.nrfRecvfrom fd 48, r⟩ ∈ log ∧
      ∀ t, SentAt (r.store query) t → u = t := by
  cases (ntpMain_ensures fd0).of_runs h with
  | unresolved => exact absurd hu (not_has_cons id not_has_nil)
  | noSocket => exact absurd hu (not_has_cons id (not_has_cons id not_has_nil))
  | unprepared _ _ _ hsetup =>
    exact absurd hu (not_has_cons id (not_has_cons id hsetup.not_printed))
  | @exchanged r fd setup rest _ _ hsetup hrest =>
    have hsock := (has_cons.mp hu).resolve_left id
    have hlog := (has_cons.mp hsock).resolve_left id
    have hrest' := (has_append.mp hlog).resolve_left hsetup.not_printed
    obtain ⟨r, hr, rfl⟩ := hrest.printed hrest'
    refine ⟨fd, r, ?_, fun t ht => ntpToUnixtime_of_sentAt ht⟩
    exact List.mem_cons_of_mem _ (List.mem_cons_of_mem _ (List.mem_append_right setup hr))

end

end Nrf9160.Net
