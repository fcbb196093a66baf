import Nrf9160.Kernel
import Nrf9160.Lib.Ring

/-! The list of sleeping threads: `td_first`, `td_next` and the loops over them. A pointer
to `struct sleeping_thread` and a pointer to its `node` are one address, since `node` is
the first field and `CONTAINER_OF` subtracts nothing. -/

namespace Nrf9160.Modem

/-- The addresses that `nrf_modem.c` names, and the list operations of the kernel. -/
structure Env (Ptr : Type) extends Kernel where
  NULL : Ptr
  sleepingThreadList : Ptr
  list : Ring.Ops Ptr
  list_ne_null : sleepingThreadList ≠ NULL

variable {Ptr : Type}

def tdFirst (E : Env Ptr) (L : Ring.Links Ptr) : Ptr :=
  if E.list.isEmpty L E.sleepingThreadList then E.NULL else L.next E.sleepingThreadList

variable {E : Env Ptr} {L : Ring.Links Ptr} {xs ys : List Ptr} {x : Ptr}

theorem tdFirst_eq (h : Ring.Rep L E.sleepingThreadList xs) :
    tdFirst E L = xs.headD E.NULL := by
  unfold tdFirst
  cases xs with
  | nil => rw [if_pos ((E.list.isEmpty_iff h).mpr rfl), List.headD_nil]
  | cons x xs =>
    have hne : ¬E.list.isEmpty L E.sleepingThreadList = true := fun he =>
      absurd ((E.list.isEmpty_iff h).mp he) (List.cons_ne_nil x xs)
    rw [if_neg hne, h.next_head, List.headD_cons, List.headD_cons]

variable [DecidableEq Ptr]

def tdNext (E : Env Ptr) (L : Ring.Links Ptr) (td0 : Ptr) : Ptr :=
  if L.next td0 = E.sleepingThreadList then E.NULL else L.next td0

/-- The loop of `nrf_modem_os_event_notify` and `nrf_modem_os_shutdown` from `td` on: every
thread it comes to that is `wanted` gets a post. `none` when `fuel` rounds do not end it. -/
def postLoop (E : Env Ptr) (L : Ring.Links Ptr) (wanted : Ptr → Bool) :
    ℕ → Ptr → (Ptr → ℕ) → Option (Ptr → ℕ)
  | 0, _, _ => none
  | fuel + 1, td, sem =>
    if td = E.NULL then some sem
    else postLoop E L wanted fuel (tdNext E L td)
      (if wanted td then Function.update sem td (mdxSemPost (sem td)) else sem)

theorem tdNext_eq (h : Ring.Rep L E.sleepingThreadList (xs ++ x :: ys)) :
    tdNext E L x = ys.headD E.NULL := by
  unfold tdNext
  rw [h.next_of_append]
  cases ys with
  | nil => rw [List.headD_nil, if_pos rfl, List.headD_nil]
  | cons y ys =>
    have hy : y ≠ E.sleepingThreadList := fun he =>
      h.head_notMem (he ▸ List.mem_append_right xs (List.mem_cons_of_mem x List.mem_cons_self))
    rw [List.headD_cons, if_neg hy, List.headD_cons]

theorem postLoop_eq (xs : List Ptr) (wanted : Ptr → Bool) (fuel : ℕ) (sem : Ptr → ℕ)
    (h : Ring.Rep L E.sleepingThreadList (xs ++ ys)) (hn : E.NULL ∉ ys) :
    postLoop E L wanted fuel (ys.headD E.NULL) sem =
      if ys.length < fuel then
        some fun q => if q ∈ ys ∧ wanted q = true then mdxSemPost (sem q) else sem q
      else none := by
  induction ys generalizing xs fuel sem with
  | nil => cases fuel <;> simp [postLoop]
  | cons y ys ih =>
    cases fuel with
    | zero => rfl
    | succ fuel =>
      have hy : y ≠ E.NULL := fun he => hn (he ▸ List.mem_cons_self)
      have hyn : y ∉ ys := (List.nodup_cons.mp (List.nodup_append.mp h.nodup_tail).2.1).1
      have h' : Ring.Rep L E.sleepingThreadList ((xs ++ [y]) ++ ys) := by
        rwa [List.append_assoc, List.singleton_append]
      rw [List.headD_cons, postLoop, if_neg hy, tdNext_eq h,
        ih (xs ++ [y]) fuel _ h' fun hm => hn (List.mem_cons_of_mem y hm)]
      simp only [List.length_cons, Nat.add_lt_add_iff_right]
      split_ifs with hf hw
      · congr 1
        funext q
        by_cases hq : q = y
        · subst hq
          simp [hyn, hw]
        · simp [hq]
      · congr 1
        funext q
        by_cases hq : q = y
        · subst hq
          simp [hyn, hw]
        · simp [hq]
      all_goals rfl

end Nrf9160.Modem
