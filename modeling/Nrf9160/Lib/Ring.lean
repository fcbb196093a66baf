import Mathlib.Data.List.Nodup
import Mathlib.Logic.Function.Basic
import Mathlib.Data.List.Basic

/-! Circular doubly linked lists with a sentinel, over an arbitrary type of addresses.
`Segment L a xs b` says that the links stored in `L` lead from `a` through exactly `xs` to
`b`, and back; `Rep L head xs`, that they form the ring `head, xs, head`. An `Ops` is an
implementation of the four list operations that meets their specification. -/

namespace Ring

structure Links (P : Type*) where
  next : P → P
  prev : P → P

variable {P : Type*}

def Segment (L : Links P) : P → List P → P → Prop
  | a, [], b => L.next a = b ∧ L.prev b = a
  | a, x :: xs, b => L.next a = x ∧ L.prev x = a ∧ Segment L x xs b

structure Rep (L : Links P) (head : P) (xs : List P) : Prop where
  linked : Segment L head xs head
  nodup : (head :: xs).Nodup

variable {L L' : Links P} {a b head n q x : P} {xs ys : List P}

theorem segment_append :
    Segment L a (xs ++ x :: ys) b ↔ Segment L a xs x ∧ Segment L x ys b := by
  induction xs generalizing a with
  | nil => simp only [List.nil_append, Segment, and_assoc]
  | cons y xs ih => simp only [List.cons_append, Segment, ih, and_assoc]

theorem Segment.congr (h : Segment L a xs b) (hn : ∀ y ∈ a :: xs, L'.next y = L.next y)
    (hp : ∀ y ∈ xs ++ [b], L'.prev y = L.prev y) : Segment L' a xs b := by
  induction xs generalizing a with
  | nil =>
    refine ⟨?_, ?_⟩
    · rw [hn a List.mem_cons_self, h.1]
    · rw [hp b List.mem_cons_self, h.2]
  | cons y ys ih =>
    obtain ⟨h1, h2, h3⟩ := h
    refine ⟨?_, ?_, ih h3 (fun z hz => hn z (List.mem_cons_of_mem a hz))
      (fun z hz => hp z (List.mem_cons_of_mem y hz))⟩
    · rw [hn a List.mem_cons_self, h1]
    · rw [hp y List.mem_cons_self, h2]

theorem Segment.prev_mem (h : Segment L a xs b) : L.prev b ∈ a :: xs := by
  induction xs generalizing a with
  | nil => rw [h.2]; exact List.mem_cons_self
  | cons y ys ih => exact List.mem_cons_of_mem a (ih h.2.2)

theorem Segment.next_first (h : Segment L a xs b) : L.next a = xs.headD b := by
  cases xs with
  | nil => exact h.1
  | cons y ys => exact h.1

theorem Rep.next_of_append (h : Rep L head (xs ++ x :: ys)) :
    L.next x = ys.headD head :=
  (segment_append.mp h.linked).2.next_first

theorem Rep.next_head (h : Rep L head xs) : L.next head = xs.headD head :=
  h.linked.next_first

theorem Rep.head_notMem (h : Rep L head xs) : head ∉ xs := (List.nodup_cons.mp h.nodup).1

theorem Rep.nodup_tail (h : Rep L head xs) : xs.Nodup := (List.nodup_cons.mp h.nodup).2

theorem Rep.frame (h : Rep L head xs) (hn : ∀ y ∈ head :: xs, L'.next y = L.next y)
    (hp : ∀ y ∈ head :: xs, L'.prev y = L.prev y) : Rep L' head xs := by
  refine ⟨h.linked.congr hn fun y hy => hp y ?_, h.nodup⟩
  rcases List.mem_append.mp hy with hy | hy
  · exact List.mem_cons_of_mem head hy
  · rw [List.mem_singleton.mp hy]
    exact List.mem_cons_self

variable [DecidableEq P]

/-- Links that skip from the predecessor of `n` straight to `q`. -/
def redirect (L : Links P) (n q : P) : Links P :=
  ⟨Function.update L.next (L.prev n) q, Function.update L.prev q (L.prev n)⟩

theorem Segment.redirect (h : Segment L a xs n) (hnd : (a :: xs).Nodup) (hq : q ∉ xs) :
    Segment (Ring.redirect L n q) a xs q := by
  induction xs generalizing a with
  | nil =>
    have ha : L.prev n = a := h.2
    simp only [Segment, Ring.redirect, ha, Function.update_self, and_self]
  | cons y ys ih =>
    obtain ⟨h1, h2, h3⟩ := h
    have ha : a ≠ L.prev n := fun he =>
      (List.nodup_cons.mp hnd).1 (he ▸ h3.prev_mem)
    have hy : y ≠ q := fun he => hq (he ▸ List.mem_cons_self)
    refine ⟨?_, ?_, ih h3 (List.nodup_cons.mp hnd).2 fun hm => hq (List.mem_cons_of_mem y hm)⟩
    · simp only [Ring.redirect, Function.update_of_ne ha, h1]
    · simp only [Ring.redirect, Function.update_of_ne hy, h2]

def init (L : Links P) (head : P) : Links P :=
  ⟨Function.update L.next head head, Function.update L.prev head head⟩

def isEmpty (L : Links P) (head : P) : Bool := L.next head = head

def append (L : Links P) (head n : P) : Links P :=
  let M := redirect L head n
  ⟨Function.update M.next n head, Function.update M.prev head n⟩

def remove (L : Links P) (n : P) : Links P := redirect L n (L.next n)

theorem init_rep (L : Links P) (head : P) : Rep (init L head) head [] := by
  refine ⟨?_, List.nodup_singleton head⟩
  simp only [Segment, init, Function.update_self, and_self]

theorem isEmpty_iff (h : Rep L head xs) : isEmpty L head = true ↔ xs = [] := by
  have hn := h.next_head
  cases xs with
  | nil =>
    simp only [isEmpty, decide_eq_true_eq, iff_true]
    exact hn
  | cons y ys =>
    have hy : y ≠ head := fun he => h.head_notMem (he ▸ List.mem_cons_self)
    rw [List.headD_cons] at hn
    simpa only [isEmpty, decide_eq_true_eq, reduceCtorEq, iff_false, hn] using hy

theorem append_rep (h : Rep L head xs) (hn : n ∉ head :: xs) :
    Rep (append L head n) head (xs ++ [n]) := by
  have hnx : n ∉ xs := fun hm => hn (List.mem_cons_of_mem head hm)
  have hnh : head ≠ n := fun he => hn (he ▸ List.mem_cons_self)
  refine ⟨segment_append.mpr ⟨?_, ?_⟩, ?_⟩
  · refine (h.linked.redirect h.nodup hnx).congr (fun y hy => ?_) fun y hy => ?_
    · refine Function.update_of_ne (fun he => ?_) _ _
      exact hn (he ▸ hy)
    · refine Function.update_of_ne (fun he => ?_) _ _
      rcases List.mem_append.mp hy with hy | hy
      · exact h.head_notMem (he ▸ hy)
      · exact hnh (he ▸ List.mem_singleton.mp hy)
  · simp only [Segment, append, Function.update_self, and_self]
  · have hx := List.nodup_append.mpr ⟨h.nodup, List.nodup_singleton n, fun y hy z hz he =>
      hn (List.mem_singleton.mp hz ▸ he ▸ hy)⟩
    exact hx

theorem remove_rep (h : Rep L head (xs ++ n :: ys)) : Rep (remove L n) head (xs ++ ys) := by
  obtain ⟨h1, h2⟩ := segment_append.mp h.linked
  have hsub : (head :: (xs ++ ys)).Sublist (head :: (xs ++ n :: ys)) :=
    ((List.sublist_cons_self n ys).append_left xs).cons_cons head
  have hnd : (head :: xs).Nodup :=
    h.nodup.sublist ((List.sublist_append_left xs (n :: ys)).cons_cons head)
  have hdis : (head :: xs).Disjoint (n :: ys) := by
    apply List.disjoint_of_nodup_append
    exact h.nodup
  refine ⟨?_, h.nodup.sublist hsub⟩
  -- the successor of `n` is the head, or the first entry behind it
  cases ys with
  | nil =>
    have hq : L.next n = head := h2.1
    rw [List.append_nil, remove, hq]
    exact h1.redirect hnd (List.nodup_cons.mp hnd).1
  | cons y ys =>
    have hq : L.next n = y := h2.1
    have hy : y ∉ xs := fun hm =>
      hdis (List.mem_cons_of_mem head hm) (List.mem_cons_of_mem n List.mem_cons_self)
    rw [remove, hq]
    refine segment_append.mpr ⟨h1.redirect hnd hy, h2.2.2.congr (fun z hz => ?_) fun z hz => ?_⟩
    · refine Function.update_of_ne (fun he => ?_) _ _
      exact hdis (he ▸ h1.prev_mem) (List.mem_cons_of_mem n hz)
    · refine Function.update_of_ne (fun he => ?_) _ _
      have hyn : y ∉ ys := by
        have hys := (List.nodup_append.mp (List.nodup_cons.mp h.nodup).2).2.1
        exact (List.nodup_cons.mp (List.nodup_cons.mp hys).2).1
      rcases List.mem_append.mp hz with hz | hz
      · exact hyn (he ▸ hz)
      · have hyh : y = head := he ▸ List.mem_singleton.mp hz
        exact hdis List.mem_cons_self (hyh ▸ List.mem_cons_of_mem n List.mem_cons_self)

structure Ops (P : Type*) where
  init : Links P → P → Links P
  isEmpty : Links P → P → Bool
  append : Links P → P → P → Links P
  remove : Links P → P → Links P
  init_rep : ∀ L head, Rep (init L head) head []
  isEmpty_iff : ∀ {L head xs}, Rep L head xs → (isEmpty L head = true ↔ xs = [])
  append_rep : ∀ {L head xs n}, Rep L head xs → n ∉ head :: xs →
    Rep (append L head n) head (xs ++ [n])
  remove_rep : ∀ {L head n xs ys}, Rep L head (xs ++ n :: ys) → Rep (remove L n) head (xs ++ ys)

/-- The implementation that relinks only the neighbours recorded in the entries. -/
def relink : Ops P where
  init := init
  isEmpty := isEmpty
  append := append
  remove := remove
  init_rep := init_rep
  isEmpty_iff := isEmpty_iff
  append_rep := append_rep
  remove_rep := remove_rep

theorem Ops.remove_erase (ops : Ops P) (h : Rep L head xs) (hn : n ∈ xs) :
    Rep (ops.remove L n) head (xs.erase n) := by
  obtain ⟨ys, zs, hny, rfl, he⟩ := List.exists_erase_eq hn
  rw [he]
  exact ops.remove_rep h

end Ring
