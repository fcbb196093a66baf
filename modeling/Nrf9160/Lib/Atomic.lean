import Nrf9160.Lib.Run

/-! Operations that are made of several writes, with other actions in between. Where the writes
before the last one are not noticed, an operation is as good as one that happens all at once,
at its last write. -/

namespace Atomic

variable {S A O W L : Type*}

/-- `act` are the actions of the operations, `free` says that their thread may run, and `env` are
the other actions. `name` is what an operation shows. -/
structure Writes (S A O W L : Type*) where
  step : S → A → Option S
  act : O → A
  writes : O → List W
  exec : S → W → S
  free : S → Bool
  env : A → Bool
  out : S → A → List L
  name : O → L
  step_act : ∀ s o, step s (act o) = if free s then some ((writes o).foldl exec s) else none
  out_act : ∀ s o, out s (act o) = [name o]

/-- An operation that has begun, with the writes that it has still to make. -/
structure State (S O W : Type*) where
  base : S
  task : Option (O × List W)

inductive Action (A O : Type*) where
  | start (o : O)
  | write
  | env (a : A)

variable (M : Writes S A O W L)

def step (x : State S O W) : Action A O → Option (State S O W)
  | .start o =>
    if M.free x.base ∧ x.task.isNone then some { x with task := some (o, M.writes o) } else none
  | .write => match x.task with
    | some (o, w :: ws) =>
      if M.free x.base then
        some ⟨M.exec x.base w, if ws.isEmpty then none else some (o, ws)⟩
      else none
    | _ => none
  | .env a => if M.env a then (M.step x.base a).map fun s => { x with base := s } else none

def out (x : State S O W) : Action A O → List L
  | .start _ => []
  | .write => match x.task with
    | some (o, [_]) => [M.name o]
    | _ => []
  | .env a => M.out x.base a

variable {M} {x y : State S O W} {a : Action A O} {as : List (Action A O)} {s t : S} {o : O}
  {w : W} {ws done : List W} {J : O → List W → List W → S → Prop}
  {G : State S O W → Action A O → Prop}

theorem write_eq_some (hs : step M x .write = some y) : ∃ w, y.base = M.exec x.base w := by
  obtain ⟨base, task⟩ := x
  cases task with
  | none => cases hs
  | some p =>
    obtain ⟨o, ws⟩ := p
    cases ws with
    | nil => cases hs
    | cons w ws =>
      obtain ⟨-, hs⟩ := Option.ite_none_right_eq_some.mp hs
      cases hs
      exact ⟨w, rfl⟩

/-- The operations at once are in `s`: the one in progress has not happened yet, and `J` holds
of the writes that it has made and has still to make. -/
def Behind (M : Writes S A O W L) (J : O → List W → List W → S → Prop) (s : S)
    (x : State S O W) : Prop :=
  x.task = none ∧ x.base = s ∨
    ∃ o done ws, x.task = some (o, ws) ∧ ws ≠ [] ∧ M.writes o = done ++ ws ∧
      x.base = done.foldl M.exec s ∧ J o done ws s

/-- What has to be shown of the writes before the last: `J` holds of an operation when it
begins, and as long as it does, the other actions do not notice them. -/
structure Unnoticed (M : Writes S A O W L) (J : O → List W → List W → S → Prop)
    (G : State S O W → Action A O → Prop) : Prop where
  nonempty : ∀ o, M.writes o ≠ []
  start : ∀ s o, G ⟨s, none⟩ (.start o) → M.free s = true → J o [] (M.writes o) s
  write : ∀ s o done w ws, J o done (w :: ws) s → ws ≠ [] → J o (done ++ [w]) ws s
  free : ∀ s o done ws, J o done ws s → M.free (done.foldl M.exec s) = M.free s
  env : ∀ s t o done ws a, J o done ws s → ws ≠ [] → M.env a = true →
    G ⟨done.foldl M.exec s, some (o, ws)⟩ (.env a) →
    M.step (done.foldl M.exec s) a = some t → ∃ u, M.step s a = some u ∧
      t = done.foldl M.exec u ∧ M.out (done.foldl M.exec s) a = M.out s a ∧ J o done ws u

theorem refines_step (hJ : Unnoticed M J G) (hx : Behind M J s x) (hg : G x a)
    (hs : step M x a = some y) : ∃ bs t, Schedule.run M.step s bs = some t ∧ Behind M J t y ∧
      Schedule.project M.step M.out s bs = out M x a := by
  obtain ⟨base, task⟩ := x
  cases a with
  | start o =>
    obtain ⟨⟨hfree, hnone⟩, hs⟩ := Option.ite_none_right_eq_some.mp hs
    cases hs
    rcases hx with ⟨htask, rfl⟩ | ⟨o', done, ws, htask, -⟩
    · obtain rfl : task = none := htask
      exact ⟨[], base, rfl, .inr ⟨o, [], M.writes o, rfl, hJ.nonempty o, rfl, rfl,
        hJ.start base o hg hfree⟩, rfl⟩
    · obtain rfl : task = _ := htask
      cases hnone
  | write =>
    rcases hx with ⟨htask, rfl⟩ | ⟨o, done, ws, htask, hne, hw, hbase, hj⟩
    · obtain rfl : task = none := htask
      cases hs
    obtain rfl : task = _ := htask
    obtain rfl : base = _ := hbase
    cases ws with
    | nil => exact absurd rfl hne
    | cons w ws =>
      obtain ⟨hfree, hs⟩ := Option.ite_none_right_eq_some.mp hs
      replace hfree := (hJ.free s o done _ hj).symm.trans hfree
      cases hs
      have hexec : M.exec (done.foldl M.exec s) w = (done ++ [w]).foldl M.exec s := by
        rw [List.foldl_append]
        rfl
      cases ws with
      | nil =>
        -- the last write is where the operation happens
        have hstep : M.step s (M.act o) = some ((done ++ [w]).foldl M.exec s) := by
          rw [M.step_act, if_pos hfree, hw]
        refine ⟨[M.act o], _, Schedule.run_singleton.trans hstep, .inl ⟨rfl, hexec⟩, ?_⟩
        rw [Schedule.project_cons hstep, M.out_act]
        rfl
      | cons w' ws =>
        refine ⟨[], s, rfl, .inr ⟨o, done ++ [w], w' :: ws, rfl, List.cons_ne_nil _ _, ?_, hexec,
          hJ.write s o done w _ hj (List.cons_ne_nil _ _)⟩, rfl⟩
        rw [hw, List.append_assoc]
        rfl
  | env a =>
    obtain ⟨henv, hs⟩ := Option.ite_none_right_eq_some.mp hs
    obtain ⟨t, ht, rfl⟩ := Option.map_eq_some_iff.mp hs
    rcases hx with ⟨htask, rfl⟩ | ⟨o, done, ws, htask, hne, hw, hbase, hj⟩
    · refine ⟨[a], t, Schedule.run_singleton.trans ht, .inl ⟨htask, rfl⟩, ?_⟩
      rw [Schedule.project_cons ht]
      exact List.append_nil _
    · obtain rfl : task = _ := htask
      obtain rfl : base = _ := hbase
      obtain ⟨u, hu, rfl, hout, hj⟩ := hJ.env s t o done ws a hj hne henv hg ht
      refine ⟨[a], u, Schedule.run_singleton.trans hu, ?_, ?_⟩
      · exact .inr ⟨o, done, ws, rfl, hne, hw, rfl, hj⟩
      · rw [Schedule.project_cons hu]
        exact (List.append_nil _).trans hout.symm

theorem refines_run (hJ : Unnoticed M J G) (hx : Behind M J s x)
    (hg : Schedule.Steps (step M) G x as) (h : Schedule.run (step M) x as = some y) :
    ∃ bs t, Schedule.run M.step s bs = some t ∧ Behind M J t y ∧
      Schedule.project M.step M.out s bs = Schedule.project (step M) (out M) x as := by
  induction as generalizing s x with
  | nil =>
    cases h
    exact ⟨[], s, rfl, hx, rfl⟩
  | cons a as ih =>
    obtain ⟨v, hv, h⟩ := Schedule.run_cons_eq_some.mp h
    obtain ⟨ha, hg⟩ := hg v hv
    obtain ⟨bs, u, hbs, hu, hout⟩ := refines_step hJ hx ha hv
    obtain ⟨cs, t, hcs, ht, hout'⟩ := ih hu hg h
    refine ⟨bs ++ cs, t, Schedule.run_append_eq_some.mpr ⟨u, hbs, hcs⟩, ht, ?_⟩
    rw [Schedule.project_cons hv, Schedule.project_append hbs, hout, hout']

end Atomic
