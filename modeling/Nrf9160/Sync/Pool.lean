import Mathlib.Data.Finset.Card
import Mathlib.Data.List.FinRange
import Mathlib.Logic.Function.Basic
import Nrf9160.Lib.Run

/-! The pools of `nrf_modem_os_sem_init` and `nrf_modem_os_mutex_init`: which slot a call hands
out, and when a pool is exhausted. -/

namespace Nrf9160.Pools

/-- The addresses of the slots of an array. -/
structure Slots (Ptr : Type) (N : ℕ) where
  addr : Fin N → Ptr
  addr_injective : Function.Injective addr

structure Pool (Obj : Type) (N : ℕ) where
  used : UInt8
  slot : Fin N → Obj

variable {Ptr Obj Sem Mtx : Type} [DecidableEq Ptr] {N semMax mtxMax : ℕ}

/-- The loop over the slots, up to its `goto reinit`. -/
def search (A : Slots Ptr N) (arg : Ptr) : Option (Fin N) :=
  (List.finRange N).find? fun i => A.addr i = arg

/-- The text that the two functions share, with what they do to the slot: the value of `*arg`
and the pool afterwards, if no `KASSERT` stops the system. -/
def initSlot (A : Slots Ptr N) (init : Obj → Obj) (s : Pool Obj N) (arg : Ptr) :
    Option (Ptr × Pool Obj N) :=
  match search A arg with
  | some i => some (arg, { s with slot := Function.update s.slot i (init (s.slot i)) })
  | none =>
    if h : s.used.toNat < N then
      let i : Fin N := ⟨s.used.toNat, h⟩
      some (A.addr i, ⟨s.used + 1, Function.update s.slot i (init (s.slot i))⟩)
    else none

/-- The arrays, and what the kernel makes of a slot that it initialises. -/
structure Layout (Ptr Sem Mtx : Type) (semMax mtxMax : ℕ) where
  nrfModemOsSemaphores : Slots Ptr semMax
  nrfModemOsMutexes : Slots Ptr mtxMax
  mdxSemInit : Sem → UInt32 → Sem
  mdxMutexInit : Mtx → Mtx

def nrfModemOsSemInit (L : Layout Ptr Sem Mtx semMax mtxMax) (s : Pool Sem semMax) (arg : Ptr)
    (initialCount _limit : UInt32) : Option (Ptr × Pool Sem semMax) :=
  initSlot L.nrfModemOsSemaphores (fun sem => L.mdxSemInit sem initialCount) s arg

def nrfModemOsMutexInit (L : Layout Ptr Sem Mtx semMax mtxMax) (s : Pool Mtx mtxMax)
    (arg : Ptr) : Option (Ptr × Pool Mtx mtxMax) :=
  initSlot L.nrfModemOsMutexes L.mdxMutexInit s arg

/-- A pool, and what the calls so far had in `*arg` before and after. -/
structure Service (Ptr Obj : Type) (N : ℕ) where
  pool : Pool Obj N
  log : List (Ptr × Ptr) := []

def Service.handles (x : Service Ptr Obj N) : List Ptr := x.log.map Prod.snd

def Outside (A : Slots Ptr N) (arg : Ptr) : Prop := ∀ i, A.addr i ≠ arg

instance (A : Slots Ptr N) (arg : Ptr) : Decidable (Outside A arg) :=
  inferInstanceAs (Decidable (∀ _, _))

/-- The handles that were handed out for a pointer outside the pool. -/
def Service.fresh (A : Slots Ptr N) (x : Service Ptr Obj N) : List Ptr :=
  (x.log.filter fun e => Outside A e.1).map Prod.snd

/-- What a caller may have in `*arg`. -/
def Service.Admits (A : Slots Ptr N) (x : Service Ptr Obj N) (arg : Ptr) : Prop :=
  Outside A arg ∨ arg ∈ x.handles

def Service.after (x : Service Ptr Obj N) (arg : Ptr) (o : Option (Ptr × Pool Obj N)) :
    Option (Service Ptr Obj N) :=
  o.map fun r => ⟨r.2, x.log ++ [(arg, r.1)]⟩

structure System (Ptr Sem Mtx : Type) (semMax mtxMax : ℕ) where
  sems : Service Ptr Sem semMax
  mutexes : Service Ptr Mtx mtxMax

inductive Request (Ptr : Type) where
  | semInit (arg : Ptr) (initialCount limit : UInt32)
  | mutexInit (arg : Ptr)

def step (L : Layout Ptr Sem Mtx semMax mtxMax) (s : System Ptr Sem Mtx semMax mtxMax) :
    Request Ptr → Option (System Ptr Sem Mtx semMax mtxMax)
  | .semInit arg initialCount limit =>
    (s.sems.after arg (nrfModemOsSemInit L s.sems.pool arg initialCount limit)).map
      fun x => { s with sems := x }
  | .mutexInit arg =>
    (s.mutexes.after arg (nrfModemOsMutexInit L s.mutexes.pool arg)).map
      fun x => { s with mutexes := x }

def Admitted (L : Layout Ptr Sem Mtx semMax mtxMax) (s : System Ptr Sem Mtx semMax mtxMax) :
    Request Ptr → Prop
  | .semInit arg _ _ => s.sems.Admits L.nrfModemOsSemaphores arg
  | .mutexInit arg => s.mutexes.Admits L.nrfModemOsMutexes arg

def boot (sems : Fin semMax → Sem) (mutexes : Fin mtxMax → Mtx) :
    System Ptr Sem Mtx semMax mtxMax where
  sems := { pool := ⟨0, sems⟩ }
  mutexes := { pool := ⟨0, mutexes⟩ }

/-- The handles handed out so far: a new slot for each fresh request, counted by `used`. -/
structure HandedOnce (A : Slots Ptr N) (x : Service Ptr Obj N) : Prop where
  nodup : (x.fresh A).Nodup
  inside : ∀ q ∈ x.handles, ∃ i, A.addr i = q
  used_eq : x.pool.used.toNat = x.handles.toFinset.card
  used_le : x.pool.used.toNat ≤ N

/-- The law of one call: when it asserts, and which slot it initialises and returns. -/
structure CallLaw (A : Slots Ptr N) (init : Obj → Obj) (x : Service Ptr Obj N) (arg : Ptr)
    (o : Option (Service Ptr Obj N)) : Prop where
  asserts_iff : o = none ↔ Outside A arg ∧ x.handles.toFinset.card = N
  serves : ∀ y, o = some y → ∃ i, y.log = x.log ++ [(arg, A.addr i)] ∧
    y.pool.slot = Function.update x.pool.slot i (init (x.pool.slot i)) ∧
    (arg ∈ x.handles → A.addr i = arg ∧ y.pool.used = x.pool.used) ∧
    (Outside A arg → A.addr i ∉ x.handles ∧ y.pool.used.toNat = x.pool.used.toNat + 1)

/-- The law of one call in the system of both pools. -/
def StepLaw (L : Layout Ptr Sem Mtx semMax mtxMax) (s : System Ptr Sem Mtx semMax mtxMax) :
    Request Ptr → Prop
  | .semInit arg initialCount limit =>
    CallLaw L.nrfModemOsSemaphores (fun sem => L.mdxSemInit sem initialCount) s.sems arg
      ((step L s (.semInit arg initialCount limit)).map System.sems) ∧
    ∀ t, step L s (.semInit arg initialCount limit) = some t → t.mutexes = s.mutexes
  | .mutexInit arg =>
    CallLaw L.nrfModemOsMutexes L.mdxMutexInit s.mutexes arg
      ((step L s (.mutexInit arg)).map System.mutexes) ∧
    ∀ t, step L s (.mutexInit arg) = some t → t.sems = s.sems

variable {A : Slots Ptr N} {init : Obj → Obj} {s : Pool Obj N} {x y : Service Ptr Obj N}
  {arg q : Ptr} {L : Layout Ptr Sem Mtx semMax mtxMax}

theorem search_addr (i : Fin N) : search A (A.addr i) = some i := by
  cases hs : search A (A.addr i) with
  | none =>
    have hno := List.find?_eq_none.mp hs i (List.mem_finRange i)
    exact absurd (decide_eq_true rfl) hno
  | some j =>
    have hj : A.addr j = A.addr i := by simpa using List.find?_some hs
    rw [A.addr_injective hj]

theorem search_outside (h : Outside A arg) : search A arg = none :=
  List.find?_eq_none.mpr fun i _ hi => h i (of_decide_eq_true hi)

theorem initSlot_addr (i : Fin N) : initSlot A init s (A.addr i) =
    some (A.addr i, { s with slot := Function.update s.slot i (init (s.slot i)) }) := by
  rw [initSlot, search_addr]

theorem initSlot_outside (h : Outside A arg) (hlt : s.used.toNat < N) :
    initSlot A init s arg = some (A.addr ⟨s.used.toNat, hlt⟩, ⟨s.used + 1,
      Function.update s.slot ⟨s.used.toNat, hlt⟩ (init (s.slot ⟨s.used.toNat, hlt⟩))⟩) := by
  rw [initSlot, search_outside h]
  exact dif_pos hlt

theorem initSlot_full (h : Outside A arg) (hle : N ≤ s.used.toNat) :
    initSlot A init s arg = none := by
  rw [initSlot, search_outside h]
  exact dif_neg (Nat.not_lt.mpr hle)

/-- What every call keeps: the handles are the slots below `used`. -/
structure Kept (A : Slots Ptr N) (x : Service Ptr Obj N) : Prop where
  used_le : x.pool.used.toNat ≤ N
  inside : ∀ q ∈ x.handles, ∃ i, A.addr i = q
  addr_mem : ∀ i, A.addr i ∈ x.handles ↔ i.val < x.pool.used.toNat
  nodup : (x.fresh A).Nodup
  length_eq : (x.fresh A).length = x.pool.used.toNat
  mem_fresh : ∀ q, q ∈ x.fresh A ↔ q ∈ x.handles

theorem Kept.card_eq (h : Kept A x) : x.handles.toFinset.card = x.pool.used.toNat := by
  have hset : x.handles.toFinset = (x.fresh A).toFinset := by
    ext q
    rw [List.mem_toFinset, List.mem_toFinset, h.mem_fresh]
  rw [hset, List.toFinset_card_of_nodup h.nodup, h.length_eq]

theorem Kept.handedOnce (h : Kept A x) : HandedOnce A x where
  nodup := h.nodup
  inside := h.inside
  used_eq := h.card_eq.symm
  used_le := h.used_le

omit [DecidableEq Ptr] in
theorem handles_append (p : Pool Obj N) (log : List (Ptr × Ptr)) (e : Ptr × Ptr) :
    (⟨p, log ++ [e]⟩ : Service Ptr Obj N).handles = log.map Prod.snd ++ [e.2] := List.map_append

theorem fresh_append_outside (p : Pool Obj N) (log : List (Ptr × Ptr)) (h : Outside A arg) :
    (⟨p, log ++ [(arg, q)]⟩ : Service Ptr Obj N).fresh A =
      (⟨p, log⟩ : Service Ptr Obj N).fresh A ++ [q] := by
  simp only [Service.fresh, List.filter_append, List.map_append, List.filter_cons, h,
    decide_true, if_true, List.filter_nil, List.map_cons, List.map_nil]

theorem fresh_append_addr (p : Pool Obj N) (log : List (Ptr × Ptr)) (i : Fin N) :
    (⟨p, log ++ [(A.addr i, q)]⟩ : Service Ptr Obj N).fresh A =
      (⟨p, log⟩ : Service Ptr Obj N).fresh A := by
  have hout : ¬Outside A (A.addr i) := fun h => h i rfl
  simp only [Service.fresh, List.filter_append, List.filter_cons, hout, decide_false,
    Bool.false_eq_true, if_false, List.filter_nil, List.append_nil]

/-- What a call does for a caller: it is on a handle that is out, or it hands out the slot
that `used` counts to. -/
theorem after_cases (h : Kept A x) (ha : x.Admits A arg)
    (hy : x.after arg (initSlot A init x.pool arg) = some y) :
    (∃ i, A.addr i = arg ∧ arg ∈ x.handles ∧ y = ⟨{ x.pool with
      slot := Function.update x.pool.slot i (init (x.pool.slot i)) }, x.log ++ [(arg, arg)]⟩) ∨
    (Outside A arg ∧ ∃ i : Fin N, i.val = x.pool.used.toNat ∧ y = ⟨⟨x.pool.used + 1,
      Function.update x.pool.slot i (init (x.pool.slot i))⟩, x.log ++ [(arg, A.addr i)]⟩) := by
  rcases ha with hout | hmem
  · rcases Nat.lt_or_ge x.pool.used.toNat N with hlt | hle
    · rw [initSlot_outside hout hlt] at hy
      exact .inr ⟨hout, ⟨_, hlt⟩, rfl, (Option.some.inj hy).symm⟩
    · rw [initSlot_full hout hle] at hy
      cases hy
  · obtain ⟨i, rfl⟩ := h.inside arg hmem
    rw [initSlot_addr] at hy
    exact .inl ⟨i, rfl, hmem, (Option.some.inj hy).symm⟩

theorem used_succ (hN : N ≤ 255) (p : Pool Obj N) (i : Fin N) (hi : i.val = p.used.toNat) :
    (p.used + 1).toNat = p.used.toNat + 1 := by
  have hlt := i.isLt
  rw [UInt8.toNat_add]
  show (p.used.toNat + 1) % 256 = _
  exact Nat.mod_eq_of_lt (by omega)

/-- A call on a handle that is out. -/
theorem Kept.again {i : Fin N} (h : Kept A x) (hmem : A.addr i ∈ x.handles)
    (slot : Fin N → Obj) : Kept A
      (⟨{ x.pool with slot }, x.log ++ [(A.addr i, A.addr i)]⟩ : Service Ptr Obj N) := by
  have hmem' : ∀ q, q ∈ x.handles ++ [A.addr i] ↔ q ∈ x.handles := by
    intro q
    rw [List.mem_append, List.mem_singleton]
    exact or_iff_left_of_imp fun he => he ▸ hmem
  constructor
  · exact h.used_le
  · intro q hq
    rw [handles_append] at hq
    exact h.inside q ((hmem' q).mp hq)
  · intro j
    rw [handles_append]
    exact (hmem' _).trans (h.addr_mem j)
  · rw [fresh_append_addr]
    exact h.nodup
  · rw [fresh_append_addr]
    exact h.length_eq
  · intro q
    rw [fresh_append_addr, handles_append]
    exact (h.mem_fresh q).trans (hmem' q).symm

/-- A call that hands out the slot that `used` counts to. -/
theorem Kept.next {i : Fin N} (hN : N ≤ 255) (h : Kept A x) (hout : Outside A arg)
    (hi : i.val = x.pool.used.toNat) (slot : Fin N → Obj) : Kept A
      (⟨⟨x.pool.used + 1, slot⟩, x.log ++ [(arg, A.addr i)]⟩ : Service Ptr Obj N) := by
  have hused := used_succ hN x.pool i hi
  have hnew : A.addr i ∉ x.handles := by
    rw [h.addr_mem]
    omega
  constructor
  · show (x.pool.used + 1).toNat ≤ N
    have hlt := i.isLt
    omega
  · intro q hq
    rw [handles_append, List.mem_append, List.mem_singleton] at hq
    rcases hq with hq | rfl
    · exact h.inside q hq
    · exact ⟨i, rfl⟩
  · intro j
    show _ ↔ j.val < (x.pool.used + 1).toNat
    rw [handles_append, List.mem_append, List.mem_singleton, hused, Nat.lt_succ_iff_lt_or_eq,
      A.addr_injective.eq_iff, Fin.ext_iff, hi]
    exact or_congr_left (h.addr_mem j)
  · rw [fresh_append_outside _ _ hout]
    refine List.nodup_append.mpr ⟨h.nodup, List.nodup_singleton _, ?_⟩
    rintro q hq _ hq' rfl
    rw [List.mem_singleton] at hq'
    exact hnew (hq' ▸ (h.mem_fresh q).mp hq)
  · rw [fresh_append_outside _ _ hout, List.length_append]
    show _ = (x.pool.used + 1).toNat
    rw [hused]
    exact congrArg (· + 1) h.length_eq
  · intro q
    rw [fresh_append_outside _ _ hout, handles_append, List.mem_append, List.mem_append]
    exact or_congr_left (h.mem_fresh q)

theorem kept_after (hN : N ≤ 255) (h : Kept A x) (ha : x.Admits A arg)
    (hy : x.after arg (initSlot A init x.pool arg) = some y) : Kept A y := by
  rcases after_cases h ha hy with ⟨i, rfl, hmem, rfl⟩ | ⟨hout, i, hi, rfl⟩
  · exact h.again hmem _
  · exact h.next hN hout hi _

theorem callLaw (hN : N ≤ 255) (h : Kept A x) (ha : x.Admits A arg) :
    CallLaw A init x arg (x.after arg (initSlot A init x.pool arg)) := by
  constructor
  · rw [h.card_eq]
    constructor
    · intro hnone
      rcases ha with hout | hmem
      · refine ⟨hout, Nat.le_antisymm h.used_le (Nat.le_of_not_lt fun hlt => ?_)⟩
        rw [initSlot_outside hout hlt] at hnone
        cases hnone
      · obtain ⟨i, rfl⟩ := h.inside arg hmem
        rw [initSlot_addr] at hnone
        cases hnone
    · rintro ⟨hout, hfull⟩
      rw [initSlot_full hout (Nat.le_of_eq hfull.symm)]
      rfl
  · intro y hy
    rcases after_cases h ha hy with ⟨i, rfl, hmem, rfl⟩ | ⟨hout, i, hi, rfl⟩
    · refine ⟨i, rfl, rfl, fun _ => ⟨rfl, rfl⟩, fun hout => absurd rfl (hout i)⟩
    · refine ⟨i, rfl, rfl, fun hmem => ?_, fun _ => ⟨?_, used_succ hN _ i hi⟩⟩
      · obtain ⟨j, hj⟩ := h.inside arg hmem
        exact absurd hj (hout j)
      · rw [h.addr_mem]
        omega

theorem kept_boot (slot : Fin N → Obj) : Kept A (⟨⟨0, slot⟩, []⟩ : Service Ptr Obj N) where
  used_le := Nat.zero_le N
  inside _ hq := absurd hq List.not_mem_nil
  addr_mem _ := iff_of_false List.not_mem_nil (Nat.not_lt_zero _)
  nodup := List.nodup_nil
  length_eq := rfl
  mem_fresh _ := Iff.rfl

section

variable {sys t : System Ptr Sem Mtx semMax mtxMax} {r : Request Ptr} {rs : List (Request Ptr)}

theorem semInit_eq_some {initialCount limit : UInt32} :
    step L sys (.semInit arg initialCount limit) = some t ↔
      ∃ y, sys.sems.after arg (initSlot L.nrfModemOsSemaphores
        (fun sem => L.mdxSemInit sem initialCount) sys.sems.pool arg) = some y ∧
        { sys with sems := y } = t := by
  simp only [step, nrfModemOsSemInit, Option.map_eq_some_iff]

theorem mutexInit_eq_some : step L sys (.mutexInit arg) = some t ↔
    ∃ y, sys.mutexes.after arg (initSlot L.nrfModemOsMutexes L.mdxMutexInit
      sys.mutexes.pool arg) = some y ∧ { sys with mutexes := y } = t := by
  simp only [step, nrfModemOsMutexInit, Option.map_eq_some_iff]

/-- Both pools keep their law, whichever of them a request is for. -/
def KeptBoth (L : Layout Ptr Sem Mtx semMax mtxMax) (sys : System Ptr Sem Mtx semMax mtxMax) :
    Prop :=
  Kept L.nrfModemOsSemaphores sys.sems ∧ Kept L.nrfModemOsMutexes sys.mutexes

theorem kept_step (hsem : semMax ≤ 255) (hmtx : mtxMax ≤ 255) (h : KeptBoth L sys)
    (ha : Admitted L sys r) (hs : step L sys r = some t) : KeptBoth L t := by
  cases r with
  | semInit arg initialCount limit =>
    obtain ⟨y, hy, rfl⟩ := semInit_eq_some.mp hs
    exact ⟨kept_after hsem h.1 ha hy, h.2⟩
  | mutexInit arg =>
    obtain ⟨y, hy, rfl⟩ := mutexInit_eq_some.mp hs
    exact ⟨h.1, kept_after hmtx h.2 ha hy⟩

theorem stepLaw (hsem : semMax ≤ 255) (hmtx : mtxMax ≤ 255) (h : KeptBoth L sys)
    (ha : Admitted L sys r) : StepLaw L sys r := by
  cases r with
  | semInit arg initialCount limit =>
    constructor
    · have hlaw : CallLaw _ (fun sem => L.mdxSemInit sem initialCount) _ _ _ :=
        callLaw hsem h.1 ha
      simpa only [step, nrfModemOsSemInit, Option.map_map, Function.comp_def, Option.map_id']
        using hlaw
    · intro t ht
      obtain ⟨y, -, rfl⟩ := semInit_eq_some.mp ht
      rfl
  | mutexInit arg =>
    constructor
    · have hlaw : CallLaw _ L.mdxMutexInit _ _ _ := callLaw hmtx h.2 ha
      simpa only [step, nrfModemOsMutexInit, Option.map_map, Function.comp_def, Option.map_id']
        using hlaw
    · intro t ht
      obtain ⟨y, -, rfl⟩ := mutexInit_eq_some.mp ht
      rfl

/-- In every run without an assertion, each pool has handed out a slot once for each fresh
request, and the next call keeps the law of calls whatever it asks for. -/
theorem slots_handed_once (L : Layout Ptr Sem Mtx semMax mtxMax) (hsem : semMax ≤ 255)
    (hmtx : mtxMax ≤ 255) (sems : Fin semMax → Sem) (mutexes : Fin mtxMax → Mtx)
    (hr : Schedule.Steps (step L) (Admitted L) (boot sems mutexes) rs)
    (h : Schedule.run (step L) (boot sems mutexes) rs = some sys) :
    HandedOnce L.nrfModemOsSemaphores sys.sems ∧ HandedOnce L.nrfModemOsMutexes sys.mutexes ∧
      ∀ r, Admitted L sys r → StepLaw L sys r := by
  have hkept : KeptBoth L sys := by
    refine Schedule.Steps.run_invariant hr (fun s a t hs ha ht => ?_) ?_ h
    · exact kept_step hsem hmtx hs ha ht
    · exact ⟨kept_boot sems, kept_boot mutexes⟩
  exact ⟨hkept.1.handedOnce, hkept.2.handedOnce, fun r ha => stepLaw hsem hmtx hkept ha⟩

end

instance (A : Slots Ptr N) (x : Service Ptr Obj N) (arg : Ptr) : Decidable (x.Admits A arg) :=
  inferInstanceAs (Decidable (_ ∨ _))

instance (L : Layout Ptr Sem Mtx semMax mtxMax) (s : System Ptr Sem Mtx semMax mtxMax) :
    ∀ r, Decidable (Admitted L s r)
  | .semInit _ _ _ => inferInstanceAs (Decidable (Service.Admits _ _ _))
  | .mutexInit _ => inferInstanceAs (Decidable (Service.Admits _ _ _))

/-- Two semaphores from address 16 on and one mutex at 32. -/
def sampleLayout : Layout ℕ ℕ Bool 2 1 where
  nrfModemOsSemaphores := ⟨fun i => 16 + i, fun _ _ h => Fin.ext (Nat.add_left_cancel h)⟩
  nrfModemOsMutexes := ⟨fun i => 32 + i, fun _ _ h => Fin.ext (Nat.add_left_cancel h)⟩
  mdxSemInit _ initialCount := initialCount.toNat
  mdxMutexInit _ := false

theorem slots_handed_once_sample : ∃ sys, Schedule.run (step sampleLayout)
    (boot (fun _ => 0) fun _ => false) [.semInit 0 1 1, .mutexInit 0, .semInit 16 0 1] =
      some sys ∧ HandedOnce sampleLayout.nrfModemOsSemaphores sys.sems ∧
        HandedOnce sampleLayout.nrfModemOsMutexes sys.mutexes ∧
          StepLaw sampleLayout sys (.semInit 0 1 1) := by
  obtain ⟨sys, hrun⟩ : ∃ sys, Schedule.run (step sampleLayout) (boot (fun _ => 0) fun _ => false)
      [.semInit 0 1 1, .mutexInit 0, .semInit 16 0 1] = some sys := ⟨_, rfl⟩
  have hsteps : Schedule.Steps (step sampleLayout) (Admitted sampleLayout)
      (boot (fun _ => 0) fun _ => false) [.semInit 0 1 1, .mutexInit 0, .semInit 16 0 1] := by
    decide
  obtain ⟨hsems, hmutexes, hlaw⟩ := slots_handed_once sampleLayout (by decide) (by decide)
    (fun _ => 0) (fun _ => false) hsteps hrun
  exact ⟨sys, hrun, hsems, hmutexes, hlaw _ (.inl (by decide))⟩

end Nrf9160.Pools
