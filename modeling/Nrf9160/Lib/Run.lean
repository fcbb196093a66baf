import Mathlib.Data.List.Basic
import Mathlib.Data.List.Induction

/-! Runs of a partial step function under a schedule of actions. `run` is the state after
a schedule all of whose actions were enabled. `Always` speaks about every state a schedule
passes through, the first one included, and `Steps` about every step it takes and the state
the step is taken in. -/

namespace Schedule

variable {S A : Type*}

def run (step : S → A → Option S) (s : S) : List A → Option S
  | [] => some s
  | a :: as => (step s a).bind fun t => run step t as

def Always (step : S → A → Option S) (P : S → Prop) (s : S) : List A → Prop
  | [] => P s
  | a :: as => P s ∧ ∀ t, step s a = some t → Always step P t as

def Steps (step : S → A → Option S) (G : S → A → Prop) (s : S) : List A → Prop
  | [] => True
  | a :: as => ∀ t, step s a = some t → G s a ∧ Steps step G t as

variable {step : S → A → Option S} {P I : S → Prop} {G : S → A → Prop} {s t u : S}
  {a : A} {as bs : List A}

@[simp] theorem run_nil : run step s [] = some s := rfl

theorem run_cons_eq_some :
    run step s (a :: as) = some u ↔ ∃ t, step s a = some t ∧ run step t as = some u := by
  simp only [run, Option.bind_eq_some_iff]

theorem run_append_eq_some :
    run step s (as ++ bs) = some u ↔ ∃ t, run step s as = some t ∧ run step t bs = some u := by
  induction as generalizing s with
  | nil => simp only [List.nil_append, run_nil, Option.some.injEq, exists_eq_left']
  | cons a as ih =>
    simp only [List.cons_append, run_cons_eq_some, ih]
    constructor
    · rintro ⟨v, hv, t, ht, hu⟩
      exact ⟨t, ⟨v, hv, ht⟩, hu⟩
    · rintro ⟨t, ⟨v, hv, ht⟩, hu⟩
      exact ⟨v, hv, t, ht, hu⟩

theorem run_singleton : run step s [a] = step s a := by
  simp only [run, Option.bind_fun_some]

theorem steps_of_forall (h : ∀ a ∈ as, ∀ s, G s a) : Steps step G s as := by
  induction as generalizing s with
  | nil => trivial
  | cons a as ih =>
    exact fun t _ => ⟨h a List.mem_cons_self s, ih fun b hb => h b (List.mem_cons_of_mem a hb)⟩

theorem Steps.append (h : Steps step G s as)
    (h' : ∀ t, run step s as = some t → Steps step G t bs) : Steps step G s (as ++ bs) := by
  induction as generalizing s with
  | nil => exact h' s rfl
  | cons a as ih =>
    intro t ht
    obtain ⟨ha, has⟩ := h t ht
    exact ⟨ha, ih has fun u hu => h' u (run_cons_eq_some.mpr ⟨t, ht, hu⟩)⟩

theorem Steps.run_invariant (hG : Steps step G s as)
    (hstep : ∀ s a t, I s → G s a → step s a = some t → I t) (hs : I s)
    (h : run step s as = some t) : I t := by
  induction as generalizing s with
  | nil =>
    rw [run_nil, Option.some.injEq] at h
    exact h ▸ hs
  | cons a as ih =>
    obtain ⟨v, hv, h⟩ := run_cons_eq_some.mp h
    exact ih (hG v hv).2 (hstep s a v hs (hG v hv).1 hv) h

theorem run_invariant (hstep : ∀ s a t, I s → step s a = some t → I t) (hs : I s)
    (h : run step s as = some t) : I t := by
  have hG : Steps step (fun _ _ => True) s as := steps_of_forall fun _ _ _ => trivial
  exact hG.run_invariant (fun s a t hI _ => hstep s a t hI) hs h

theorem run_history {R : List A → S → Prop} (hs : R [] s)
    (hstep : ∀ as v a t, R as v → step v a = some t → R (as ++ [a]) t)
    (h : run step s as = some t) : R as t := by
  induction as using List.reverseRecOn generalizing t with
  | nil =>
    rw [run_nil, Option.some.injEq] at h
    exact h ▸ hs
  | append_singleton as a ih =>
    obtain ⟨v, hv, h⟩ := run_append_eq_some.mp h
    rw [run_singleton] at h
    exact hstep as v a t (ih hv) h

theorem Always.of_run (h : Always step P s as) (hr : run step s as = some t) : P t := by
  induction as generalizing s with
  | nil =>
    rw [run_nil, Option.some.injEq] at hr
    exact hr ▸ h
  | cons a as ih =>
    obtain ⟨v, hv, hr⟩ := run_cons_eq_some.mp hr
    exact ih (h.2 v hv) hr

theorem Always.head (h : Always step P s as) : P s := by
  cases as with
  | nil => exact h
  | cons a as => exact h.1

theorem Steps.and {q : A → Prop} (h : Steps step G s as) (hq : ∀ a ∈ as, q a) :
    Steps step (fun s a => G s a ∧ q a) s as := by
  induction as generalizing s with
  | nil => trivial
  | cons a as ih =>
    intro t ht
    have has : ∀ b ∈ as, q b := fun b hb => hq b (List.mem_cons_of_mem a hb)
    exact ⟨⟨(h t ht).1, hq a List.mem_cons_self⟩, ih (h t ht).2 has⟩

theorem Steps.with_invariant (h : Steps step G s as) (hs : I s)
    (hstep : ∀ s a t, I s → G s a → step s a = some t → I t) :
    Steps step (fun s a => G s a ∧ I s) s as := by
  induction as generalizing s with
  | nil => trivial
  | cons a as ih =>
    intro t ht
    obtain ⟨ha, has⟩ := h t ht
    exact ⟨⟨ha, hs⟩, ih has (hstep s a t hs ha ht)⟩

instance decidableSteps [∀ s a, Decidable (G s a)] :
    ∀ (s : S) (as : List A), Decidable (Steps step G s as)
  | _, [] => isTrue trivial
  | s, a :: as =>
    match h : step s a with
    | none => isTrue fun t ht => by rw [h] at ht; cases ht
    | some t =>
      have := decidableSteps t as
      decidable_of_iff (G s a ∧ Steps step G t as)
        ⟨fun hG u hu => Option.some.inj (h.symm.trans hu) ▸ hG, fun hG => hG t h⟩

theorem exists_last {q : A → Prop} (h : ∃ a ∈ as, q a) :
    ∃ bs a cs, as = bs ++ a :: cs ∧ q a ∧ ∀ c ∈ cs, ¬q c := by
  induction as using List.reverseRecOn with
  | nil =>
    obtain ⟨a, ha, _⟩ := h
    exact absurd ha List.not_mem_nil
  | append_singleton as x ih =>
    by_cases hx : q x
    · exact ⟨as, x, [], rfl, hx, fun c hc => absurd hc List.not_mem_nil⟩
    · obtain ⟨a, ha, hqa⟩ := h
      have hne : a ≠ x := fun he => hx (he ▸ hqa)
      have has : a ∈ as := (List.mem_append.mp ha).resolve_right fun hm =>
        hne (List.mem_singleton.mp hm)
      obtain ⟨bs, b, cs, rfl, hb, hcs⟩ := ih ⟨a, has, hqa⟩
      refine ⟨bs, b, cs ++ [x], ?_, hb, ?_⟩
      · rw [List.append_assoc, List.cons_append]
      · intro c hc
        rcases List.mem_append.mp hc with hc | hc
        · exact hcs c hc
        · exact List.mem_singleton.mp hc ▸ hx

/-- A view of the state that only the actions in `seen` move is a fold over these. -/
theorem run_view {V : Type*} (view : S → V) (move : V → A → V) (seen : A → Bool) {q : A → Prop}
    (hI : ∀ s a t, q a → I s → step s a = some t → I t)
    (hview : ∀ s a t, q a → I s → step s a = some t →
      view t = if seen a then move (view s) a else view s)
    (hq : ∀ a ∈ as, q a) (hs : I s) (h : run step s as = some t) :
    view t = (as.filter seen).foldl move (view s) := by
  induction as generalizing s with
  | nil =>
    rw [run_nil, Option.some.injEq] at h
    exact h ▸ rfl
  | cons a as ih =>
    obtain ⟨v, hv, h⟩ := run_cons_eq_some.mp h
    have ha := hq a List.mem_cons_self
    rw [ih (fun b hb => hq b (List.mem_cons_of_mem a hb)) (hI s a v ha hs hv) h,
      hview s a v ha hs hv]
    by_cases hb : seen a = true
    · rw [if_pos hb, List.filter_cons_of_pos hb, List.foldl_cons]
    · rw [if_neg hb, List.filter_cons_of_neg hb]

/-- The same steps, together with a record of what happened that decides nothing. -/
def ghost {H : Type*} (step : S → A → Option S) (note : H → S → A → H) (x : S × H) (a : A) :
    Option (S × H) :=
  (step x.1 a).map fun t => (t, note x.2 x.1 a)

section

variable {H : Type*} {note : H → S → A → H} {g g' : H}

theorem ghost_eq_some :
    ghost step note (s, g) a = some (t, g') ↔ step s a = some t ∧ note g s a = g' := by
  simp only [ghost, Option.map_eq_some_iff, Prod.mk.injEq]
  constructor
  · rintro ⟨v, hv, rfl, rfl⟩
    exact ⟨hv, rfl⟩
  · rintro ⟨ht, rfl⟩
    exact ⟨t, ht, rfl, rfl⟩

theorem exists_ghost (note : H → S → A → H) (g : H) (h : run step s as = some t) :
    ∃ g', run (ghost step note) (s, g) as = some (t, g') := by
  induction as generalizing s g with
  | nil =>
    rw [run_nil, Option.some.injEq] at h
    exact ⟨g, h ▸ rfl⟩
  | cons a as ih =>
    obtain ⟨v, hv, h⟩ := run_cons_eq_some.mp h
    obtain ⟨g', hg⟩ := ih (note g s a) h
    exact ⟨g', run_cons_eq_some.mpr ⟨_, ghost_eq_some.mpr ⟨hv, rfl⟩, hg⟩⟩

end

/-- Where every step is matched by a run of another system that shows the same labels, every
run is. -/
theorem run_refines {S' A' L : Type*} {step' : S' → A' → Option S'} (view : S → S')
    (seen : A → List L) (seen' : A' → List L)
    (hstep : ∀ s a t, step s a = some t →
      ∃ bs, run step' (view s) bs = some (view t) ∧ bs.flatMap seen' = seen a)
    (h : run step s as = some t) :
    ∃ bs, run step' (view s) bs = some (view t) ∧ bs.flatMap seen' = as.flatMap seen := by
  induction as generalizing s with
  | nil =>
    rw [run_nil, Option.some.injEq] at h
    exact ⟨[], congrArg (fun v => some (view v)) h, rfl⟩
  | cons a as ih =>
    obtain ⟨v, hv, h⟩ := run_cons_eq_some.mp h
    obtain ⟨bs, hbs, hl⟩ := hstep s a v hv
    obtain ⟨cs, hcs, hl'⟩ := ih h
    refine ⟨bs ++ cs, run_append_eq_some.mpr ⟨view v, hbs, hcs⟩, ?_⟩
    rw [List.flatMap_append, List.flatMap_cons, hl, hl']

/-- The actions of another system that a schedule stands for, step by step. -/
def project {B : Type*} (step : S → A → Option S) (seen : S → A → List B) : S → List A → List B
  | _, [] => []
  | s, a :: as => seen s a ++ (step s a).elim [] fun t => project step seen t as

theorem project_cons {B : Type*} {seen : S → A → List B} (h : step s a = some t) :
    project step seen s (a :: as) = seen s a ++ project step seen t as := by
  rw [project, h]
  rfl

theorem project_append {B : Type*} {seen : S → A → List B} (h : run step s as = some t) :
    project step seen s (as ++ bs) = project step seen s as ++ project step seen t bs := by
  induction as generalizing s with
  | nil =>
    rw [run_nil, Option.some.injEq] at h
    exact h ▸ rfl
  | cons a as ih =>
    obtain ⟨v, hv, h⟩ := run_cons_eq_some.mp h
    rw [List.cons_append, project_cons hv, project_cons hv, ih h, List.append_assoc]

/-- When keeping `P` at every state is what keeping `G` at every step amounts to, on
schedules of the actions that `q` admits. -/
theorem always_iff_steps {q : A → Prop} (hP : ∀ s, I s → P s)
    (hstep : ∀ s a t, q a → I s → G s a → step s a = some t → I t)
    (hG : ∀ s a t, q a → I s → step s a = some t → P t → G s a)
    (hq : ∀ a ∈ as, q a) (hs : I s) : Always step P s as ↔ Steps step G s as := by
  induction as generalizing s with
  | nil => exact ⟨fun _ => trivial, fun _ => hP s hs⟩
  | cons a as ih =>
    have hqa := hq a List.mem_cons_self
    have hqs : ∀ b ∈ as, q b := fun b hb => hq b (List.mem_cons_of_mem a hb)
    constructor
    · intro h t ht
      have hg : G s a := hG s a t hqa hs ht (h.2 t ht).head
      exact ⟨hg, (ih hqs (hstep s a t hqa hs hg ht)).mp (h.2 t ht)⟩
    · intro h
      refine ⟨hP s hs, fun t ht => ?_⟩
      exact (ih hqs (hstep s a t hqa hs (h t ht).1 ht)).mpr (h t ht).2

end Schedule
