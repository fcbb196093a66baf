import Mathlib.Data.Fintype.Basic
import Nrf9160.Lib.Prog
import Nrf9160.Sync.Pool

/-! `nrf_modem_os_sem_init` and `nrf_modem_os_mutex_init` access by access, in any number of
threads at once. Neither of them has a critical section: which interleavings of their accesses
to `sem_used` or `mutex_used` hand a slot out twice, or one that is outside of the array. -/

namespace Nrf9160.Overlap

open Pools

/-- The accesses that the two functions share: the `KASSERT`, the read and the write of
`used++`, and the call of the kernel on a slot. -/
inductive InitCall (Obj : Type) where
  | kassert
  | load
  | store (used : UInt8)
  | init (index : ℕ) (f : Obj → Obj)

@[reducible] def InitCall.Answer (Obj : Type) (N : ℕ) : InitCall Obj → Type
  | .load => UInt8
  | .init _ _ => Fin N
  | _ => Unit

abbrev InitProg (Obj : Type) (N : ℕ) := Prog (InitCall Obj) (InitCall.Answer Obj N)

variable {Id Ptr Obj : Type} {N : ℕ}

section

variable [DecidableEq Id] [DecidableEq Ptr]

def kassert : InitProg Obj N Unit := .call .kassert .ret

def load : InitProg Obj N UInt8 := .call .load .ret

def store (used : UInt8) : InitProg Obj N Unit := .call (.store used) .ret

def init (index : ℕ) (f : Obj → Obj) : InitProg Obj N (Fin N) := .call (.init index f) .ret

/-- What the call has in `*arg` when it returns. -/
def initText (A : Slots Ptr N) (f : Obj → Obj) (arg : Ptr) : InitProg Obj N Ptr :=
  match search A arg with
  | some i => do
    let _ ← init i f
    return arg
  | none => do
    kassert
    let used ← load
    store (used + 1)
    let i ← init used.toNat f
    return A.addr i

structure Running (Ptr Obj : Type) (N : ℕ) where
  arg : Ptr
  prog : InitProg Obj N Ptr

/-- `taken` are the slots that the calls with a pointer outside of the pool have in `sem`. -/
structure State (Id Ptr Obj : Type) (N : ℕ) where
  service : Service Ptr Obj N
  running : Id → Option (Running Ptr Obj N) := fun _ => none
  taken : List ℕ := []

inductive Action (Id Ptr Obj : Type) where
  | start (i : Id) (arg : Ptr) (f : Obj → Obj)
  | go (i : Id)
  | ret (i : Id)

def State.setRunning (s : State Id Ptr Obj N) (i : Id) (r : Option (Running Ptr Obj N)) :
    State Id Ptr Obj N :=
  { s with running := Function.update s.running i r }

def State.setPool (s : State Id Ptr Obj N) (p : Pool Obj N) : State Id Ptr Obj N :=
  { s with service := { s.service with pool := p } }

def State.take (s : State Id Ptr Obj N) (k : ℕ) : State Id Ptr Obj N :=
  { s with taken := s.taken ++ [k] }

def step (A : Slots Ptr N) (s : State Id Ptr Obj N) :
    Action Id Ptr Obj → Option (State Id Ptr Obj N)
  | .start i arg f =>
    if (s.running i).isNone then some (s.setRunning i (some ⟨arg, initText A f arg⟩)) else none
  | .go i => (s.running i).bind fun r => match r.prog with
    | .call .kassert k =>
      if s.service.pool.used.toNat < N then some (s.setRunning i (some ⟨r.arg, k ()⟩)) else none
    | .call .load k =>
      let used := s.service.pool.used
      some ((s.take used.toNat).setRunning i (some ⟨r.arg, k used⟩))
    | .call (.store used) k =>
      some ((s.setPool ⟨used, s.service.pool.slot⟩).setRunning i (some ⟨r.arg, k ()⟩))
    | .call (.init index f) k =>
      -- a slot outside of the array is not the pool's to write
      if h : index < N then
        let p := s.service.pool
        let slot := Function.update p.slot ⟨index, h⟩ (f (p.slot ⟨index, h⟩))
        some ((s.setPool ⟨p.used, slot⟩).setRunning i (some ⟨r.arg, k ⟨index, h⟩⟩))
      else none
    | .ret _ => none
  | .ret i => (s.running i).bind fun r => match r.prog with
    | .ret handle => some { s.setRunning i none with
        service := { s.service with log := s.service.log ++ [(r.arg, handle)] } }
    | _ => none

def boot (slot : Fin N → Obj) : State Id Ptr Obj N where
  service := { pool := ⟨0, slot⟩ }

/-- The value that the next access writes to the counter. -/
def pendingStore : InitProg Obj N Ptr → Option UInt8
  | .call (.store used) _ => some used
  | _ => none

def isLoad : InitProg Obj N Ptr → Bool
  | .call .load _ => true
  | _ => false

/-- What thread `i` has read from the counter, plus one, as long as it has not written it. -/
def State.pending (s : State Id Ptr Obj N) (i : Id) : Option UInt8 :=
  (s.running i).bind fun r => pendingStore r.prog

def State.atLoad (s : State Id Ptr Obj N) (i : Id) : Bool :=
  (s.running i).any fun r => isLoad r.prog

/-- No slot is taken twice, and none that the array does not have. -/
structure Sound (s : State Id Ptr Obj N) : Prop where
  once : s.taken.Nodup
  inside : ∀ k ∈ s.taken, k < N

/-- The counter is read only while it is below the size and no thread has it to write back. -/
def Undisturbed (s : State Id Ptr Obj N) : Action Id Ptr Obj → Prop
  | .go i => s.atLoad i = true → s.service.pool.used.toNat < N ∧ ∀ j, s.pending j = none
  | _ => True

end

variable {A : Slots Ptr N} {f : Obj → Obj} {s t : State Id Ptr Obj N} {i j : Id} {arg : Ptr}
  {a : Action Id Ptr Obj} {as : List (Action Id Ptr Obj)} {o : Option (Running Ptr Obj N)}

/-- The rest of a call that has read the counter. -/
def fromLoad (A : Slots Ptr N) (f : Obj → Obj) (used : UInt8) : InitProg Obj N Ptr :=
  .call (.store (used + 1)) fun _ => .call (.init used.toNat f) fun i => .ret (A.addr i)

@[simp] theorem take_service (s : State Id Ptr Obj N) (k : ℕ) :
    (s.take k).service = s.service := rfl

@[simp] theorem setPool_service (s : State Id Ptr Obj N) (p : Pool Obj N) :
    (s.setPool p).service = { s.service with pool := p } := rfl

theorem pending_of_running {r : Running Ptr Obj N} (h : s.running i = some r) :
    s.pending i = pendingStore r.prog := by
  rw [State.pending, h]
  rfl

/-- The programs that a call goes through. -/
inductive Stage (A : Slots Ptr N) : InitProg Obj N Ptr → Prop where
  | again (i : Fin N) (f : Obj → Obj) (arg : Ptr) : Stage A (.call (.init i f) fun _ => .ret arg)
  | kassert (f : Obj → Obj) : Stage A (.call .kassert fun _ => .call .load (fromLoad A f))
  | load (f : Obj → Obj) : Stage A (.call .load (fromLoad A f))
  | store (f : Obj → Obj) (used : UInt8) : Stage A (fromLoad A f used)
  | init (f : Obj → Obj) (index : ℕ) : Stage A (.call (.init index f) fun i => .ret (A.addr i))
  | ret (handle : Ptr) : Stage A (.ret handle)

/-- As long as the counter is read undisturbed, the slots are taken in their order, and at most
one thread has the counter to write back. -/
structure Kept (A : Slots Ptr N) (s : State Id Ptr Obj N) : Prop where
  stage : ∀ i r, s.running i = some r → Stage A r.prog
  taken_eq : s.taken = List.range s.taken.length
  length_le : s.taken.length ≤ N
  counted : ((∀ j, s.pending j = none) ∧ s.service.pool.used.toNat = s.taken.length) ∨
    ∃ i used, s.pending i = some used ∧ used.toNat = s.taken.length ∧
      s.service.pool.used.toNat + 1 = s.taken.length ∧ ∀ j, j ≠ i → s.pending j = none

theorem Kept.sound (h : Kept A s) : Sound s where
  once := by
    rw [h.taken_eq]
    exact List.nodup_range
  inside k hk := by
    rw [h.taken_eq, List.mem_range] at hk
    exact Nat.lt_of_lt_of_le hk h.length_le

theorem kept_boot (slot : Fin N → Obj) : Kept A (boot slot : State Id Ptr Obj N) where
  stage _ _ h := nomatch h
  taken_eq := rfl
  length_le := Nat.zero_le N
  counted := .inl ⟨fun _ => rfl, rfl⟩

variable [DecidableEq Id]

@[simp] theorem setRunning_running_self (s : State Id Ptr Obj N) (i : Id)
    (o : Option (Running Ptr Obj N)) : (s.setRunning i o).running i = o := by
  simp [State.setRunning]

@[simp] theorem setRunning_service (s : State Id Ptr Obj N) (i : Id)
    (o : Option (Running Ptr Obj N)) : (s.setRunning i o).service = s.service := rfl

@[simp] theorem setRunning_pending (s : State Id Ptr Obj N) (i : Id)
    (o : Option (Running Ptr Obj N)) : (s.setRunning i o).pending =
      Function.update s.pending i (o.bind fun r => pendingStore r.prog) := by
  funext j
  by_cases h : j = i
  · subst h
    simp [State.pending, State.setRunning]
  · simp [State.pending, State.setRunning, Function.update_of_ne h]

theorem stage_update (h : Kept A s) (ht : t.running = Function.update s.running i o)
    (ho : ∀ r, o = some r → Stage A r.prog) : ∀ j r, t.running j = some r → Stage A r.prog := by
  intro j r hr
  rw [ht] at hr
  by_cases hj : j = i
  · subst hj
    rw [Function.update_self] at hr
    exact ho r hr
  · rw [Function.update_of_ne hj] at hr
    exact h.stage j r hr

/-- A step that neither reads nor writes the counter. -/
theorem Kept.frame (h : Kept A s) (hr : t.running = Function.update s.running i o)
    (ho : ∀ r, o = some r → Stage A r.prog) (hp : t.pending = s.pending)
    (ht : t.taken = s.taken) (hu : t.service.pool.used = s.service.pool.used) : Kept A t where
  stage := stage_update h hr ho
  taken_eq := ht ▸ h.taken_eq
  length_le := ht ▸ h.length_le
  counted := by
    rw [hp, ht, hu]
    exact h.counted

theorem kept_load {k : UInt8 → InitProg Obj N Ptr} (hN : N ≤ 255) (h : Kept A s)
    (hi : s.running i = some ⟨arg, .call .load k⟩)
    (hg : s.service.pool.used.toNat < N ∧ ∀ j, s.pending j = none) :
    Kept A ((s.take s.service.pool.used.toNat).setRunning i
      (some ⟨arg, k s.service.pool.used⟩)) := by
  obtain ⟨hlt, hnone⟩ := hg
  have hused : s.service.pool.used.toNat = s.taken.length := by
    rcases h.counted with ⟨-, hused⟩ | ⟨j, used, hj, -⟩
    · exact hused
    · rw [hnone j] at hj
      cases hj
  have hsucc : (s.service.pool.used + 1).toNat = s.service.pool.used.toNat + 1 := by
    rw [UInt8.toNat_add]
    exact Nat.mod_eq_of_lt (by change _ + 1 < 256; omega)
  obtain ⟨f, rfl⟩ : ∃ f, k = fromLoad A f := by
    cases h.stage i _ hi with
    | load f => exact ⟨f, rfl⟩
  have hlen : (s.taken ++ [s.service.pool.used.toNat]).length = s.taken.length + 1 :=
    List.length_append
  constructor
  · refine stage_update (o := some ⟨arg, fromLoad A f s.service.pool.used⟩) h rfl ?_
    rintro _ ⟨⟩
    exact .store f _
  · show s.taken ++ [_] = List.range (s.taken ++ [_]).length
    rw [hlen, List.range_succ, ← h.taken_eq, hused]
  · show (s.taken ++ [_]).length ≤ N
    omega
  · refine .inr ⟨i, s.service.pool.used + 1, ?_, ?_, ?_, fun j hj => ?_⟩
    · rw [setRunning_pending]
      exact Function.update_self ..
    · show (s.service.pool.used + 1).toNat = (s.taken ++ [_]).length
      omega
    · show s.service.pool.used.toNat + 1 = (s.taken ++ [_]).length
      omega
    · rw [setRunning_pending, Function.update_of_ne hj]
      exact hnone j

theorem kept_store {used : UInt8} {k : Unit → InitProg Obj N Ptr} (h : Kept A s)
    (hi : s.running i = some ⟨arg, .call (.store used) k⟩) :
    Kept A ((s.setPool ⟨used, s.service.pool.slot⟩).setRunning i (some ⟨arg, k ()⟩)) := by
  have hpending : s.pending i = some used := pending_of_running hi
  have hk : Stage A (k ()) ∧ pendingStore (k ()) = none := by
    cases h.stage i _ hi with
    | store f used => exact ⟨.init f _, rfl⟩
  constructor
  · refine stage_update (o := some ⟨arg, k ()⟩) h rfl ?_
    rintro _ ⟨⟩
    exact hk.1
  · exact h.taken_eq
  · exact h.length_le
  · rcases h.counted with ⟨hnone, -⟩ | ⟨i', used', hi', hused, -, hothers⟩
    · rw [hnone i] at hpending
      cases hpending
    obtain rfl : i = i' := by
      by_contra hne
      rw [hothers i hne] at hpending
      cases hpending
    obtain rfl : used = used' := Option.some.inj (hpending.symm.trans hi')
    refine .inl ⟨fun j => ?_, hused⟩
    rw [setRunning_pending]
    by_cases hj : j = i
    · subst hj
      rw [Function.update_self]
      exact hk.2
    · rw [Function.update_of_ne hj]
      exact hothers j hj

/-- An access to the counter apart, a thread goes on by itself. -/
theorem kept_other {p p' : InitProg Obj N Ptr} (h : Kept A s) (hi : s.running i = some ⟨arg, p⟩)
    (hp : pendingStore p = none) (hp' : Stage A p') (hnone : pendingStore p' = none)
    (slot : Fin N → Obj) :
    Kept A ((s.setPool ⟨s.service.pool.used, slot⟩).setRunning i (some ⟨arg, p'⟩)) := by
  refine h.frame (o := some ⟨arg, p'⟩) rfl ?_ ?_ rfl rfl
  · rintro _ ⟨⟩
    exact hp'
  · rw [setRunning_pending]
    refine Function.update_eq_iff.mpr ⟨?_, fun _ _ => rfl⟩
    exact hnone.trans (hp.symm.trans (pending_of_running hi).symm)

variable [DecidableEq Ptr]

theorem initText_some {k : Fin N} (h : search A arg = some k) : initText A f arg =
    .call (.init k f) fun _ => .ret arg := by
  rw [initText, h]
  rfl

theorem initText_none (h : search A arg = none) : initText A f arg =
    .call .kassert fun _ => .call .load (fromLoad A f) := by
  rw [initText, h]
  rfl

/-- The accesses of one call. -/
def accesses (A : Slots Ptr N) (i : Id) (arg : Ptr) : List (Action Id Ptr Obj) :=
  List.replicate (if (search A arg).isSome then 1 else 4) (.go i)

/-- A call with no other between its accesses does what the call at once does. -/
theorem run_accesses (hi : s.running i = none) :
    (Schedule.run (step A) s (.start i arg f :: (accesses A i arg ++ [.ret i]))).map
      State.service = s.service.after arg (initSlot A f s.service.pool arg) := by
  cases h : search A arg with
  | some k =>
    simp [accesses, h, Schedule.run, step, hi, initText_some h, initSlot, Service.after]
  | none =>
    by_cases hlt : s.service.pool.used.toNat < N
    · simp [accesses, h, Schedule.run, step, hi, initText_none h, fromLoad, initSlot,
        Service.after, hlt]
    · simp [accesses, h, Schedule.run, step, hi, initText_none h, initSlot, Service.after, hlt]

theorem stage_initText (A : Slots Ptr N) (f : Obj → Obj) (arg : Ptr) :
    Stage A (initText A f arg) := by
  cases h : search A arg with
  | some k =>
    rw [initText_some h]
    exact .again k f arg
  | none =>
    rw [initText_none h]
    exact .kassert f

theorem pendingStore_initText (A : Slots Ptr N) (f : Obj → Obj) (arg : Ptr) :
    pendingStore (initText A f arg) = none := by
  cases h : search A arg with
  | some k =>
    rw [initText_some h]
    rfl
  | none =>
    rw [initText_none h]
    rfl

theorem kept_go (hN : N ≤ 255) (h : Kept A s) (hg : Undisturbed s (.go i))
    (hs : step A s (.go i) = some t) : Kept A t := by
  obtain ⟨⟨arg, p⟩, hi, hs⟩ := Option.bind_eq_some_iff.mp hs
  have hstage := h.stage i _ hi
  cases hstage with
  | again k f arg' =>
    obtain ⟨hlt, hs⟩ := Option.dite_none_right_eq_some.mp hs
    cases hs
    exact kept_other h hi rfl (.ret _) rfl _
  | kassert f =>
    obtain ⟨hlt, hs⟩ := Option.ite_none_right_eq_some.mp hs
    cases hs
    exact kept_other h hi rfl (.load f) rfl s.service.pool.slot
  | load f =>
    cases hs
    refine kept_load hN h hi (hg ?_)
    rw [State.atLoad, hi]
    rfl
  | store f used =>
    cases hs
    exact kept_store h hi
  | init f index =>
    obtain ⟨hlt, hs⟩ := Option.dite_none_right_eq_some.mp hs
    cases hs
    exact kept_other h hi rfl (.ret _) rfl _
  | ret handle => cases hs

theorem kept_step (hN : N ≤ 255) (h : Kept A s) (hg : Undisturbed s a)
    (hs : step A s a = some t) : Kept A t := by
  cases a with
  | start i arg f =>
    obtain ⟨hfree, hs⟩ := Option.ite_none_right_eq_some.mp hs
    cases hs
    refine h.frame (o := some ⟨arg, initText A f arg⟩) rfl ?_ ?_ rfl rfl
    · rintro _ ⟨⟩
      exact stage_initText A f arg
    · rw [setRunning_pending]
      refine Function.update_eq_iff.mpr ⟨?_, fun _ _ => rfl⟩
      rw [State.pending, Option.isNone_iff_eq_none.mp hfree]
      exact pendingStore_initText A f arg
  | go i => exact kept_go hN h hg hs
  | ret i =>
    obtain ⟨⟨arg, p⟩, hi, hs⟩ := Option.bind_eq_some_iff.mp hs
    cases p with
    | call c k => cases hs
    | ret handle =>
      cases hs
      refine h.frame (o := none) rfl (fun r hr => nomatch hr) ?_ rfl rfl
      show (s.setRunning i none).pending = s.pending
      rw [setRunning_pending]
      exact Function.update_eq_iff.mpr ⟨(pending_of_running hi).symm, fun _ _ => rfl⟩

/-- A read that goes wrong takes a slot that is taken or that is not there. -/
theorem undisturbed_of_sound (h : Kept A s) (hs : step A s a = some t) (ht : Sound t) :
    Undisturbed s a := by
  cases a with
  | start i arg f => trivial
  | ret i => trivial
  | go i =>
    intro hload
    obtain ⟨⟨arg, p⟩, hi, hs⟩ := Option.bind_eq_some_iff.mp hs
    rw [State.atLoad, hi] at hload
    cases h.stage i _ hi with
    | load f =>
      cases hs
      have hmem := ht.inside _ (List.mem_append_right _ (List.mem_singleton.mpr rfl))
      refine ⟨hmem, ?_⟩
      rcases h.counted with ⟨hnone, -⟩ | ⟨j, used, -, -, hused, -⟩
      · exact hnone
      · have hnew := (List.nodup_append.mp ht.once).2.2
        have htaken : s.service.pool.used.toNat ∈ s.taken := by
          rw [h.taken_eq, List.mem_range]
          omega
        exact absurd rfl (hnew _ htaken _ (List.mem_singleton.mpr rfl))
    | again k f arg' => cases hload
    | kassert f => cases hload
    | store f used => cases hload
    | init f index => cases hload
    | ret handle => cases hload

/-- In every interleaving of the calls, all slots are taken once and from the array if and only
if no thread reads the counter between the read and the write of another, or when it has come
to the size of the array. -/
theorem taken_once_iff (A : Slots Ptr N) (hN : N ≤ 255) (slot : Fin N → Obj)
    (as : List (Action Id Ptr Obj)) :
    Schedule.Always (step A) Sound (boot slot) as ↔
      Schedule.Steps (step A) Undisturbed (boot slot) as := by
  have hstep : ∀ (s : State Id Ptr Obj N) a t, True → Kept A s → Undisturbed s a →
      step A s a = some t → Kept A t := fun s a t _ h hg hs => kept_step hN h hg hs
  have hback : ∀ (s : State Id Ptr Obj N) a t, True → Kept A s → step A s a = some t →
      Sound t → Undisturbed s a := fun s a t _ h hs ht => undisturbed_of_sound h hs ht
  exact Schedule.always_iff_steps (fun s h => h.sound) hstep hback (fun _ _ => trivial)
    (kept_boot slot)

instance [Fintype Id] (s : State Id Ptr Obj N) : ∀ a, Decidable (Undisturbed s a)
  | .start _ _ _ => isTrue trivial
  | .ret _ => isTrue trivial
  | .go i => inferInstanceAs (Decidable (s.atLoad i = true → _))

/-- Two calls for new semaphores, the second of which reads the counter before the first has
written it. -/
def racing : List (Action Bool ℕ ℕ) :=
  [.start false 0 (fun _ => 1), .start true 0 (fun _ => 1), .go false, .go true, .go false,
    .go true, .go false, .go true, .go false, .go true, .ret false, .ret true]

theorem taken_once_iff_racing : ¬Schedule.Always (step sampleLayout.nrfModemOsSemaphores) Sound
    (boot fun _ => 0) racing := by
  rw [taken_once_iff sampleLayout.nrfModemOsSemaphores (by decide)]
  decide

example : (Schedule.run (step sampleLayout.nrfModemOsSemaphores) (boot fun _ => 0) racing).map
    (fun s => s.service.handles) = some [16, 16] := by decide

end Nrf9160.Overlap
