import Mathlib.Order.Basic
import Mathlib.Order.Nat
import Mathlib.Order.WellFounded
import Nrf9160.Lib.Run

/-! Infinite runs of a partial step function, and what weak fairness gives on them. -/

namespace Schedule

variable {S A : Type*}

structure Behaviour (step : S → A → Option S) where
  state : ℕ → S
  action : ℕ → A
  next : ∀ n, step (state n) (action n) = some (state (n + 1))

variable {step : S → A → Option S}

/-- Where some step of `own` is enabled from a moment on, one is taken from it on. -/
def Behaviour.Fair (b : Behaviour step) (own : A → Prop) : Prop :=
  ∀ n, (∀ m, n ≤ m → ∃ a t, own a ∧ step (b.state m) a = some t) → ∃ m, n ≤ m ∧ own (b.action m)

variable {b : Behaviour step} {own : A → Prop} {P : S → Prop} {n : ℕ}

theorem Behaviour.keeps (hstep : ∀ s a t, P s → step s a = some t → P t)
    (hn : P (b.state n)) (m : ℕ) (hm : n ≤ m) : P (b.state m) := by
  induction m, hm using Nat.le_induction with
  | base => exact hn
  | succ m hm ih => exact hstep _ _ _ ih (b.next m)

/-- What only a step of `own` can end lasts until there is one. -/
theorem Behaviour.keeps_or_ends (hn : P (b.state n))
    (hstay : ∀ s a t, P s → ¬own a → step s a = some t → P t) (m : ℕ) (hm : n ≤ m) :
    P (b.state m) ∨ ∃ j, n ≤ j ∧ P (b.state j) ∧ own (b.action j) := by
  induction m, hm using Nat.le_induction with
  | base => exact .inl hn
  | succ m hm ih =>
    rcases ih with ih | ih
    · by_cases ho : own (b.action m)
      · exact .inr ⟨m, hm, ih, ho⟩
      · exact .inl (hstay _ _ _ ih ho (b.next m))
    · exact .inr ih

/-- What only a step of `own` can end, and where one is always enabled, ends by one. -/
theorem Behaviour.ends (hf : b.Fair own) (hn : P (b.state n))
    (hstay : ∀ s a t, P s → ¬own a → step s a = some t → P t)
    (hen : ∀ s, P s → ∃ a t, own a ∧ step s a = some t) :
    ∃ j, n ≤ j ∧ P (b.state j) ∧ own (b.action j) := by
  by_contra hno
  have hP : ∀ m, n ≤ m → P (b.state m) := fun m hm =>
    (b.keeps_or_ends hn hstay m hm).resolve_right hno
  obtain ⟨m, hm, ho⟩ := hf n fun m hm => hen _ (hP m hm)
  exact hno ⟨m, hm, hP m hm, ho⟩

section

variable {stop : A → Prop} {Q : ℕ → Prop} {m : ℕ}

end

/-- The rule for progress. `P r` holds of a state that is `r` away from the goal: where a step
of `own` is always enabled and each brings the goal or a smaller `r`, and no other step changes
`r`, the goal is reached. -/
theorem Behaviour.reaches {R : Type*} [LT R] [WellFoundedLT R] (hf : b.Fair own)
    (P : R → S → Prop) {goal : ℕ → Prop} {r : R}
    (hn : P r (b.state n))
    (hstay : ∀ m, n ≤ m → ∀ r, P r (b.state m) → ¬own (b.action m) →
      goal m ∨ P r (b.state (m + 1)))
    (hmove : ∀ m, n ≤ m → ∀ r, P r (b.state m) → own (b.action m) →
      goal m ∨ ∃ r' < r, P r' (b.state (m + 1)))
    (hen : ∀ m, n ≤ m → ∀ r, P r (b.state m) → ∃ a t, own a ∧ step (b.state m) a = some t) :
    ∃ m, n ≤ m ∧ goal m := by
  induction r using WellFoundedLT.induction generalizing n with
  | ind r ih =>
    by_contra hno
    have hown : ∃ j, n ≤ j ∧ P r (b.state j) ∧ own (b.action j) := by
      by_contra hnever
      have hP (m : ℕ) (hm : n ≤ m) : P r (b.state m) := by
        induction m, hm using Nat.le_induction with
        | base => exact hn
        | succ m hm ih =>
          have ho : ¬own (b.action m) := fun ho => hnever ⟨m, hm, ih, ho⟩
          exact (hstay m hm r ih ho).resolve_left fun hg => hno ⟨m, hm, hg⟩
      obtain ⟨m, hm, ho⟩ := hf n fun m hm => hen m hm r (hP m hm)
      exact hnever ⟨m, hm, hP m hm, ho⟩
    obtain ⟨j, hj, hP, ho⟩ := hown
    rcases hmove j hj r hP ho with hg | ⟨r', hlt, hP'⟩
    · exact hno ⟨j, hj, hg⟩
    · have hle : n ≤ j + 1 := Nat.le_succ_of_le hj
      obtain ⟨m, hm, hg⟩ := ih r' hlt hP' (fun m hm => hstay m (le_trans hle hm))
        (fun m hm => hmove m (le_trans hle hm)) (fun m hm => hen m (le_trans hle hm))
      exact hno ⟨m, le_trans hle hm, hg⟩

/-- The steps of a component, which may also stand still. -/
def stutter (step : S → A → Option S) (s : S) : Option A → Option S
  | none => some s
  | some a => step s a

def Behaviour.project {S' A' : Type*} {step' : S' → A' → Option S'} (b : Behaviour step)
    (view : S → S') (part : A → Option A')
    (h : ∀ s a t, step s a = some t → stutter step' (view s) (part a) = some (view t)) :
    Behaviour (stutter step') where
  state n := view (b.state n)
  action n := part (b.action n)
  next n := h _ _ _ (b.next n)

/-- A finite run goes on as any behaviour from where it ends. -/
theorem Behaviour.exists_append {s : S} {as : List A} (b : Behaviour step)
    (h : run step s as = some (b.state 0)) :
    ∃ b' : Behaviour step, (∀ m < as.length, as[m]? = some (b'.action m)) ∧
      (∀ m ≤ as.length, run step s (as.take m) = some (b'.state m)) ∧
      ∀ m, b'.state (as.length + m) = b.state m ∧ b'.action (as.length + m) = b.action m := by
  induction as generalizing s with
  | nil =>
    refine ⟨b, fun m hm => absurd hm (Nat.not_lt_zero m), fun m hm => ?_, fun m => ?_⟩
    · rw [Nat.le_zero.mp hm]
      exact h
    · rw [List.length_nil, Nat.zero_add]
      exact ⟨rfl, rfl⟩
  | cons a as ih =>
    obtain ⟨t, ht, h⟩ := run_cons_eq_some.mp h
    obtain ⟨c, hact, hst, htail⟩ := ih h
    have hc : c.state 0 = t := (Option.some.inj (hst 0 (Nat.zero_le _))).symm
    refine ⟨⟨fun m => m.casesOn s c.state, fun m => m.casesOn a c.action, fun m => ?_⟩, ?_, ?_, ?_⟩
    · cases m with
      | zero => exact ht.trans (congrArg some hc.symm)
      | succ m => exact c.next m
    · intro m hm
      cases m with
      | zero => rfl
      | succ m => exact hact m (Nat.lt_of_succ_lt_succ hm)
    · intro m hm
      cases m with
      | zero => rfl
      | succ m =>
        exact run_cons_eq_some.mpr ⟨t, ht, hst m (Nat.le_of_succ_le_succ hm)⟩
    · intro m
      rw [List.length_cons, Nat.add_right_comm]
      exact htail m

end Schedule
