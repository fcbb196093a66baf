import Mathlib.Tactic.SplitIfs

/-! Programs that call their environment. `C` is the type of the calls and `R c` the type
of the answers to `c`; what an answer is, and what a call does, is left to the machine
that runs the program. -/

inductive Prog (C : Type) (R : C → Type) (α : Type) where
  | ret (a : α)
  | call (c : C) (k : R c → Prog C R α)

namespace Prog

variable {C : Type} {R : C → Type} {α β : Type}

def bind : Prog C R α → (α → Prog C R β) → Prog C R β
  | ret a, f => f a
  | call c k, f => call c fun r => (k r).bind f

instance : Monad (Prog C R) where
  pure := ret
  bind := bind

@[simp] theorem pure_eq (a : α) : (pure a : Prog C R α) = ret a := rfl

/-- The program can return `a` after the calls and answers of `log`. -/
inductive Runs : Prog C R α → List (Sigma R) → α → Prop where
  | ret (a : α) : Runs (.ret a) [] a
  | call {c : C} {k : R c → Prog C R α} {r : R c} {log : List (Sigma R)} {a : α}
      (h : Runs (k r) log a) : Runs (.call c k) (⟨c, r⟩ :: log) a

/-- `Q` holds of the result and the log, however the calls are answered. -/
def Ensures : Prog C R α → (α → List (Sigma R) → Prop) → Prop
  | ret a, Q => Q a []
  | call c k, Q => ∀ r, (k r).Ensures fun a log => Q a (⟨c, r⟩ :: log)

/-- Some run of the program comes to the call. -/
def Makes : Prog C R α → C → Prop
  | ret _, _ => False
  | call c k, c' => c' = c ∨ ∃ r, (k r).Makes c'

variable {p : Prog C R α} {f : α → Prog C R β} {Q Q' : α → List (Sigma R) → Prop}
  {P : β → List (Sigma R) → Prop}

theorem ensures_iff : p.Ensures Q ↔ ∀ log a, p.Runs log a → Q a log := by
  induction p generalizing Q with
  | ret a =>
    constructor
    · intro h log b hr
      cases hr
      exact h
    · intro h
      exact h [] a (.ret a)
  | call c k ih =>
    constructor
    · intro h log a hr
      cases hr with
      | call hr => exact (ih _).mp (h _) _ _ hr
    · intro h r
      exact (ih r).mpr fun log a hr => h _ a (.call hr)

theorem Ensures.of_runs {log : List (Sigma R)} {a : α} (h : p.Ensures Q) (hr : p.Runs log a) :
    Q a log := ensures_iff.mp h log a hr

theorem Ensures.mono (h : p.Ensures Q) (hq : ∀ a log, Q a log → Q' a log) : p.Ensures Q' :=
  ensures_iff.mpr fun log a hr => hq a log (h.of_runs hr)

theorem ensures_bind : (p >>= f).Ensures P ↔
    p.Ensures fun a log => (f a).Ensures fun b log' => P b (log ++ log') := by
  induction p generalizing P with
  | ret a => exact Iff.rfl
  | call c k ih =>
    have hnext : ∀ r, (k r >>= f).Ensures (fun b log => P b (⟨c, r⟩ :: log)) ↔ _ :=
      fun r => ih r
    exact forall_congr' hnext

/-- The rule for a sequence: what the first part ensures is what the second starts from. -/
theorem Ensures.bind (h : p.Ensures Q)
    (hf : ∀ a log, Q a log → (f a).Ensures fun b log' => P b (log ++ log')) :
    (p >>= f).Ensures P := ensures_bind.mpr (h.mono hf)

theorem ensures_ite {b : Prop} [Decidable b] {p q : Prog C R α} (hp : b → p.Ensures Q)
    (hq : ¬b → q.Ensures Q) : (if b then p else q).Ensures Q := by
  split_ifs with h
  · exact hp h
  · exact hq h

end Prog
