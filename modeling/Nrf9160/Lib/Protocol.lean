import Nrf9160.Lib.Prog

/-! Protocols over an interface: which calls are in order in a state, which answers the
environment may give to them, and the state after a call with its answer. `Obeys` is the
weakest condition under which a program keeps its side. -/

structure Protocol (C : Type) (R : C → Type) (S : Type) where
  ok : S → C → Prop
  legal : S → (c : C) → R c → Prop
  next : S → (c : C) → R c → S

section

variable {C D : Type} {R : C → Type} {T : D → Type} {S U α β : Type}

def Protocol.after (M : Protocol C R S) (s : S) : List (Sigma R) → S
  | [] => s
  | e :: log => M.after (M.next s e.1 e.2) log

/-- The environment has kept its side along the log. -/
def Protocol.Legal (M : Protocol C R S) (s : S) : List (Sigma R) → Prop
  | [] => True
  | e :: log => M.legal s e.1 e.2 ∧ M.Legal (M.next s e.1 e.2) log

namespace Prog

/-- After the calls and answers of `log`, the program goes on as `q`. -/
inductive Steps : Prog C R α → List (Sigma R) → Prog C R α → Prop where
  | nil (p : Prog C R α) : Steps p [] p
  | call {c : C} {k : R c → Prog C R α} {r : R c} {log : List (Sigma R)} {q : Prog C R α}
      (h : Steps (k r) log q) : Steps (.call c k) (⟨c, r⟩ :: log) q

def Obeys (M : Protocol C R S) : Prog C R α → (α → S → Prop) → S → Prop
  | ret a, Q, s => Q a s
  | call c k, Q, s => M.ok s c ∧ ∀ r, M.legal s c r → (k r).Obeys M Q (M.next s c r)

/-- The program over `D` in which `h` stands for the calls of a program over `C`. -/
def interpret (h : ∀ c, Prog D T (R c)) : Prog C R α → Prog D T α
  | ret a => ret a
  | call c k => (h c).bind fun r => (k r).interpret h

variable {M : Protocol C R S} {N : Protocol D T U} {p : Prog C R α} {f : α → Prog C R β}
  {Q Q' : α → S → Prop} {P : β → S → Prop} {s : S} {u : U}

/-- What `Obeys` says of the runs: every call that some run comes to is in order, and what the
program returns with is as promised, as long as the environment keeps its side. -/
theorem obeys_iff : p.Obeys M Q s ↔
    (∀ log c k, p.Steps log (.call c k) → M.Legal s log → M.ok (M.after s log) c) ∧
      ∀ log a, p.Steps log (.ret a) → M.Legal s log → Q a (M.after s log) := by
  induction p generalizing s with
  | ret a =>
    constructor
    · intro h
      constructor
      · intro log c k hs
        cases hs
      · intro log b hs _
        cases hs
        exact h
    · intro h
      exact h.2 [] a (.nil _) trivial
  | call c k ih =>
    constructor
    · intro h
      constructor
      · intro log d k' hs hl
        cases hs with
        | nil => exact h.1
        | call hs => exact ((ih _).mp (h.2 _ hl.1)).1 _ _ _ hs hl.2
      · intro log a hs hl
        cases hs with
        | call hs => exact ((ih _).mp (h.2 _ hl.1)).2 _ _ hs hl.2
    · intro h
      refine ⟨h.1 [] c k (.nil _) trivial, fun r hr => (ih r).mpr ⟨?_, ?_⟩⟩
      · exact fun log d k' hs hl => h.1 _ d k' (.call hs) ⟨hr, hl⟩
      · exact fun log a hs hl => h.2 _ a (.call hs) ⟨hr, hl⟩

theorem Obeys.mono (h : p.Obeys M Q s) (hq : ∀ a t, Q a t → Q' a t) : p.Obeys M Q' s := by
  induction p generalizing s with
  | ret a => exact hq a s h
  | call c k ih => exact ⟨h.1, fun r hr => ih r (h.2 r hr)⟩

theorem obeys_bind : (p >>= f).Obeys M P s ↔ p.Obeys M (fun a t => (f a).Obeys M P t) s := by
  induction p generalizing s with
  | ret a => exact Iff.rfl
  | call c k ih => exact and_congr_right fun _ => forall₂_congr fun r _ => ih r

/-- The rule for a sequence. -/
theorem Obeys.bind (h : p.Obeys M Q s) (hf : ∀ a t, Q a t → (f a).Obeys M P t) :
    (p >>= f).Obeys M P s := obeys_bind.mpr (h.mono hf)

theorem obeys_ite {b : Prop} [Decidable b] {p q : Prog C R α} (hp : b → p.Obeys M Q s)
    (hq : ¬b → q.Obeys M Q s) : (if b then p else q).Obeys M Q s := by
  split_ifs with h
  · exact hp h
  · exact hq h

/-- The rule for an interface that is built on another: `A` relates the states of the two
protocols, and each call that is in order above becomes calls that are in order below, with
an answer that is legal above. -/
theorem Obeys.interpret {h : ∀ c, Prog D T (R c)} {A : S → U → Prop}
    (hcall : ∀ s u c, A s u → M.ok s c →
      (h c).Obeys N (fun r v => M.legal s c r ∧ A (M.next s c r) v) u)
    (hp : p.Obeys M Q s) (hA : A s u) :
    (p.interpret h).Obeys N (fun a v => ∃ t, A t v ∧ Q a t) u := by
  induction p generalizing s u with
  | ret a => exact ⟨s, hA, hp⟩
  | call c k ih =>
    apply Obeys.bind (hcall s u c hA hp.1)
    intro r v hr
    exact ih r (hp.2 r hr.1) hr.2

end Prog

end
