import Nrf9160.Modem.Timedwait
import Nrf9160.Sync.Mutex
import Nrf9160.Sync.Semaphore

/-! The timeouts of the modem library, in milliseconds, and the microseconds that the kernel
gets for them. -/

namespace Nrf9160.Timeout

inductive SleepCall where
  | usleep (usec : UInt32)

abbrev SleepProg := Prog SleepCall fun _ => Unit

def mdxUsleep (usec : UInt32) : SleepProg Unit := .call (.usleep usec) .ret

structure Header extends Kernel where
  NRF_MODEM_OS_NO_WAIT : UInt32
  NRF_MODEM_OS_FOREVER : UInt32
  NRF_EINVAL : ℤ

def nrfModemOsSleep (H : Header) (timeout : UInt32) : SleepProg ℤ := do
  if timeout = H.NRF_MODEM_OS_NO_WAIT ∨ timeout = H.NRF_MODEM_OS_FOREVER then
    return -H.NRF_EINVAL
  mdxUsleep (timeout * 1000)
  return 0

inductive EntryPoint where
  | timedwait (context : UInt32)
  | semTake
  | mutexLock
  | sleep

/-- The positive and finite timeouts of the argument's type. -/
def EntryPoint.Admits (H : Header) : EntryPoint → ℕ → Prop
  | sleep, ms => 0 < ms ∧ ms < 2 ^ 32 ∧ UInt32.ofNat ms ≠ H.NRF_MODEM_OS_NO_WAIT ∧
    UInt32.ofNat ms ≠ H.NRF_MODEM_OS_FOREVER
  | _, ms => 0 < ms ∧ ms < 2 ^ 31

/-- A call with this timeout gives the kernel this argument for its wait. -/
def EntryPoint.Hands (H : Header) : EntryPoint → ℕ → ℤ → Prop
  | timedwait context, ms, usec => ∃ t : Int32, t.toInt = usec ∧
    (Modem.nrfModemOsTimedwait H.toKernel context (.ofNat ms)).Makes (.semTimedwait t)
  | semTake, ms, usec => ∃ t : Int32, t.toInt = usec ∧
    (Semaphore.nrfModemOsSemTake H.toKernel (.ofNat ms)).Makes (.timedwait t)
  | mutexLock, ms, usec => ∃ t : Int32, t.toInt = usec ∧
    (Mutex.nrfModemOsMutexLock (.ofNat ms)).Makes (.timedlock t)
  | sleep, ms, usec => ∃ t : UInt32, t.toNat = usec ∧
    (nrfModemOsSleep H (.ofNat ms)).Makes (.usleep t)

/-- The wait is the exact one, and no shorter than that of a shorter timeout. -/
structure Converted (H : Header) (e : EntryPoint) (ms : ℕ) : Prop where
  waits : ∃ usec, e.Hands H ms usec
  exact : ∀ usec, e.Hands H ms usec → usec = 1000 * ms
  positive : ∀ usec, e.Hands H ms usec → 0 < usec
  monotone : ∀ ms' usec' usec, e.Admits H ms' → ms' ≤ ms → e.Hands H ms' usec' →
    e.Hands H ms usec → usec' ≤ usec

/-- The greatest timeout whose microseconds fit. -/
def EntryPoint.limit : EntryPoint → ℕ
  | sleep => 4294967
  | _ => 2147483

/-- The argument of the kernel. -/
def EntryPoint.usec : EntryPoint → ℕ → ℤ
  | sleep, ms => (1000 * ms : ℤ) % 2 ^ 32
  | _, ms => (1000 * ms : ℤ).bmod (2 ^ 32)

variable {H : Header} {e : EntryPoint} {ms : ℕ}

theorem timedwait_makes {K : Kernel} {context : UInt32} {val t : Int32} (hval : val ≠ 0) :
    (Modem.nrfModemOsTimedwait K context val).Makes (.semTimedwait t) ↔ t = Modem.tmout val := by
  have hprog : Modem.nrfModemOsTimedwait K context val = .call .isInitialized fun b =>
      (⟨context, val, 0, Modem.entryPoint K b val⟩ : Modem.Call).prog K :=
    Modem.prog_check (c := ⟨context, val, 0, .check⟩) rfl
  have hno : ((⟨context, val, 0, Modem.entryPoint K false val⟩ : Modem.Call).prog K).Makes
      (.semTimedwait t) ↔ False := Iff.rfl
  have hyes : ((⟨context, val, 0, Modem.entryPoint K true val⟩ : Modem.Call).prog K).Makes
      (.semTimedwait t) ↔ t = Modem.tmout val := by
    have hpt : Modem.entryPoint K true val = .setup := if_neg hval
    simp [hpt, Modem.Call.prog, Prog.Makes]
  rw [hprog, Prog.Makes, Bool.exists_bool, hno, hyes, false_or]
  refine or_iff_right fun h => ?_
  cases h

theorem semTake_makes {K : Kernel} {timeout t : Int32} :
    (Semaphore.nrfModemOsSemTake K timeout).Makes (.timedwait t) ↔
      t = Semaphore.tmout timeout := by
  rw [Semaphore.nrfModemOsSemTake_eq]
  simp [Prog.Makes]

theorem mutexLock_makes {timeout t : Int32} (h : timeout ≠ -1) :
    (Mutex.nrfModemOsMutexLock timeout).Makes (.timedlock t) ↔ t = timeout * 1000 := by
  have hprog : Mutex.nrfModemOsMutexLock timeout =
      .call (.timedlock (timeout * 1000)) fun _ => .ret 0 := if_neg h
  rw [hprog]
  simp [Prog.Makes]

theorem sleep_makes {timeout t : UInt32} (h0 : timeout ≠ H.NRF_MODEM_OS_NO_WAIT)
    (h1 : timeout ≠ H.NRF_MODEM_OS_FOREVER) :
    (nrfModemOsSleep H timeout).Makes (.usleep t) ↔ t = timeout * 1000 := by
  have hprog : nrfModemOsSleep H timeout = .call (.usleep (timeout * 1000)) fun _ => .ret 0 :=
    if_neg (not_or_intro h0 h1)
  rw [hprog]
  simp [Prog.Makes]

theorem ofNat_mul_toInt (h : ms < 2 ^ 31) :
    (Int32.ofNat ms * 1000).toInt = (1000 * ms : ℤ).bmod (2 ^ 32) := by
  have hk : (1000 : Int32).toInt = 1000 := by decide
  rw [Int32.toInt_mul, Int32.toInt_ofNat_of_lt h, hk, mul_comm]

theorem ofNat_pos (h : 0 < ms ∧ ms < 2 ^ 31) : 0 < Int32.ofNat ms := by
  rw [Int32.lt_iff_toInt_lt, Int32.toInt_ofNat_of_lt h.2]
  exact Int.natCast_pos.mpr h.1

theorem ofNat_ne_zero (h : 0 < ms ∧ ms < 2 ^ 31) : Int32.ofNat ms ≠ 0 := by
  intro h0
  have hpos := ofNat_pos h
  rw [h0] at hpos
  exact absurd hpos (by decide)

theorem ofNat_ne_neg_one (h : 0 < ms ∧ ms < 2 ^ 31) : Int32.ofNat ms ≠ -1 := by
  intro h1
  have hpos := ofNat_pos h
  rw [h1] at hpos
  exact absurd hpos (by decide)

theorem timedwait_tmout (h : 0 < ms ∧ ms < 2 ^ 31) :
    Modem.tmout (.ofNat ms) = .ofNat ms * 1000 :=
  if_neg (Int32.not_lt.mpr (Int32.le_of_lt (ofNat_pos h)))

theorem hands_iff (h : e.Admits H ms) (usec : ℤ) : e.Hands H ms usec ↔ e.usec ms = usec := by
  cases e with
  | timedwait context =>
    simp only [EntryPoint.Hands, timedwait_makes (ofNat_ne_zero h), timedwait_tmout h,
      exists_eq_right, ofNat_mul_toInt h.2]
    rfl
  | semTake =>
    have htmout : Semaphore.tmout (.ofNat ms) = .ofNat ms * 1000 := by
      rw [Semaphore.tmout, if_neg (ofNat_ne_neg_one h)]
    simp only [EntryPoint.Hands, semTake_makes, htmout, exists_eq_right, ofNat_mul_toInt h.2]
    rfl
  | mutexLock =>
    simp only [EntryPoint.Hands, mutexLock_makes (ofNat_ne_neg_one h), exists_eq_right,
      ofNat_mul_toInt h.2]
    rfl
  | sleep =>
    obtain ⟨-, hlt, h0, h1⟩ := h
    have hmul : ((UInt32.ofNat ms * 1000).toNat : ℤ) = (1000 * ms : ℤ) % 2 ^ 32 := by
      rw [UInt32.toNat_mul, UInt32.toNat_ofNat_of_lt' hlt]
      show ((ms * 1000 % 2 ^ 32 : ℕ) : ℤ) = _
      omega
    simp only [EntryPoint.Hands, sleep_makes h0 h1, exists_eq_right, hmul]
    rfl

theorem mul_bmod_eq_iff (ms : ℕ) :
    (1000 * ms : ℤ).bmod (2 ^ 32) = 1000 * ms ↔ ms ≤ 2147483 := by
  constructor
  · intro h
    have hlt : (1000 * ms : ℤ).bmod (2 ^ 32) < ((2 ^ 32 : ℕ) + 1) / 2 := Int.bmod_lt (by decide)
    rw [h] at hlt
    omega
  · intro h
    apply Int.bmod_eq_of_le
    · omega
    · omega

theorem mul_emod_eq_iff (ms : ℕ) : (1000 * ms : ℤ) % 2 ^ 32 = 1000 * ms ↔ ms ≤ 4294967 := by
  constructor
  · intro h
    have hlt : (1000 * ms : ℤ) % 2 ^ 32 < 2 ^ 32 := Int.emod_lt_of_pos _ (by decide)
    rw [h] at hlt
    omega
  · intro h
    apply Int.emod_eq_of_lt
    · omega
    · omega

theorem usec_eq_iff : e.usec ms = 1000 * ms ↔ ms ≤ e.limit := by
  cases e with
  | sleep => exact mul_emod_eq_iff ms
  | _ => exact mul_bmod_eq_iff ms

/-- The microseconds are the exact ones for just the timeouts up to the limit: above it the
product does not fit into the 32 bits in which it is computed. -/
theorem converted_iff (h : e.Admits H ms) : Converted H e ms ↔ ms ≤ e.limit := by
  constructor
  · intro hc
    obtain ⟨usec, hu⟩ := hc.waits
    have hexact := hc.exact usec hu
    rw [hands_iff h] at hu
    rw [← usec_eq_iff, hu]
    exact hexact
  · intro hle
    have husec := usec_eq_iff.mpr hle
    have hpos : 0 < ms := by
      cases e with
      | _ => exact h.1
    refine ⟨⟨_, (hands_iff h _).mpr rfl⟩, ?_, ?_, ?_⟩
    · intro usec hu
      exact ((hands_iff h usec).mp hu).symm.trans husec
    · intro usec hu
      rw [← (hands_iff h usec).mp hu, husec]
      omega
    · intro ms' usec' usec h' hms hu' hu
      rw [← (hands_iff h' usec').mp hu', ← (hands_iff h usec).mp hu, husec,
        usec_eq_iff.mpr (hms.trans hle)]
      omega

def sampleHeader : Header where
  toKernel := sampleKernel
  NRF_MODEM_OS_NO_WAIT := 0
  NRF_MODEM_OS_FOREVER := 0xffffffff
  NRF_EINVAL := 22

theorem converted_iff_sample : Converted sampleHeader .semTake 2147483 ∧
    Converted sampleHeader .sleep 4294967 := by
  have htake : EntryPoint.semTake.Admits sampleHeader 2147483 := ⟨by decide, by decide⟩
  have hsleep : EntryPoint.sleep.Admits sampleHeader 4294967 :=
    ⟨by decide, by decide, by decide, by decide⟩
  exact ⟨(converted_iff htake).mpr le_rfl, (converted_iff hsleep).mpr le_rfl⟩

/-- The wait for 2 ^ 29 milliseconds is one without a deadline. -/
theorem wait_becomes_zero : ¬∀ H e ms, EntryPoint.Admits H e ms → Converted H e ms := by
  intro hall
  have htake : EntryPoint.semTake.Admits sampleHeader 536870912 := ⟨by decide, by decide⟩
  have hzero : EntryPoint.semTake.usec 536870912 = 0 := by decide
  have hpos := (hall sampleHeader .semTake 536870912 htake).positive 0
    ((hands_iff htake 0).mpr hzero)
  exact absurd hpos (by decide)

end Nrf9160.Timeout
