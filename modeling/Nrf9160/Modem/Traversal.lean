import Nrf9160.Modem.Queue

/-! `nrf_modem_os_shutdown` step by step. It runs in a thread and outside any critical
section, so the critical sections of the sleepers come in between its reads and posts. -/

namespace Nrf9160.Modem

/-- Where the traversal stands: before its post to `td`, or before its read of the
successor of `td`. -/
inductive Cursor (Ptr : Type) where
  | idle
  | post (td : Ptr)
  | next (td : Ptr)
  | done
  deriving DecidableEq

variable {Ptr : Type} {E : Env Ptr}

/-- The traversal, and the calls it still owes a post: those that were queued when it
began, are queued ever since and have had none from it. -/
structure Walk (Ptr : Type) where
  cursor : Cursor Ptr := .idle
  owed : Ptr → Bool := fun _ => false

inductive WalkAction (Ptr : Type) where
  | os (a : Action Ptr)
  | first
  | post
  | next
  deriving DecidableEq

def Walk.standsAt (w : Walk Ptr) (td : Ptr) : Prop := w.cursor = .post td ∨ w.cursor = .next td

/-- The traversal stands at a node that is on the list, and owes no post when it ends. -/
def OnTrack (x : State Ptr × Walk Ptr) : Prop :=
  (∀ td, x.2.standsAt td → x.1.queued td = true) ∧ (x.2.cursor = .done → ∀ p, x.2.owed p = false)

def Walk.Placed (w : Walk Ptr) (xs : List Ptr) : Prop :=
  match w.cursor with
  | .idle => True
  | .post td => ∃ ys zs, xs = ys ++ td :: zs ∧ ∀ p, w.owed p = true → p ∈ td :: zs
  | .next td => ∃ ys zs, xs = ys ++ td :: zs ∧ ∀ p, w.owed p = true → p ∈ zs
  | .done => ∀ p, w.owed p = false

def WalkInv (E : Env Ptr) (x : State Ptr × Walk Ptr) : Prop :=
  ∃ xs, Queue E x.1 xs ∧ x.2.Placed xs

variable {s t : State Ptr} {w : Walk Ptr} {x y : State Ptr × Walk Ptr}
  {a : WalkAction Ptr} {b : Action Ptr} {xs ys zs : List Ptr} {td p : Ptr}

theorem onTrack_of_walkInv (h : WalkInv E x) : OnTrack x := by
  obtain ⟨xs, hq, hw⟩ := h
  have mem {td : Ptr} {ys zs : List Ptr} (he : xs = ys ++ td :: zs) : x.1.queued td = true := by
    rw [← (hq.ok td).mem_iff, he]
    exact List.mem_append_right ys List.mem_cons_self
  constructor
  · rintro td (hc | hc)
    all_goals
      simp only [Walk.Placed, hc] at hw
      obtain ⟨ys, zs, he, -⟩ := hw
      exact mem he
  · intro hc
    simpa only [Walk.Placed, hc] using hw

variable [DecidableEq Ptr]

def Cursor.enter (E : Env Ptr) (td : Ptr) : Cursor Ptr := if td = E.NULL then .done else .post td

def walkStep (E : Env Ptr) (x : State Ptr × Walk Ptr) :
    WalkAction Ptr → Option (State Ptr × Walk Ptr)
  | .os a => (step E x.1 a).map fun t =>
      (t, { x.2 with owed := fun p => x.2.owed p && t.queued p })
  | .first =>
    if x.2.cursor = .idle ∨ x.2.cursor = .done then
      some (x.1, ⟨.enter E (tdFirst E x.1.links), x.1.queued⟩)
    else none
  | .post => match x.2.cursor with
    | .post td => some ({ x.1 with sem := Function.update x.1.sem td (mdxSemPost (x.1.sem td)) },
        ⟨.next td, Function.update x.2.owed td false⟩)
    | _ => none
  | .next => match x.2.cursor with
    | .next td => some (x.1, { x.2 with cursor := .enter E (tdNext E x.1.links td) })
    | _ => none

/-- Uninterrupted, the steps of the traversal are the loop of `nrf_modem_os_shutdown`. -/
theorem walk_postLoop {fuel : ℕ} {td : Ptr} {sem : Ptr → ℕ} (s : State Ptr) (owed : Ptr → Bool)
    (h : postLoop E s.links (fun _ => true) fuel td s.sem = some sem) :
    ∃ as owed', (∀ a ∈ as, a = .post ∨ a = .next) ∧
      Schedule.run (walkStep E) (s, ⟨.enter E td, owed⟩) as =
        some ({ s with sem }, ⟨.done, owed'⟩) := by
  induction fuel generalizing s td owed with
  | zero => cases h
  | succ fuel ih =>
    rw [postLoop] at h
    by_cases htd : td = E.NULL
    · rw [if_pos htd] at h
      cases h
      refine ⟨[], owed, by simp, ?_⟩
      rw [Cursor.enter, if_pos htd, Schedule.run_nil]
    · rw [if_neg htd, if_pos rfl] at h
      obtain ⟨as, owed', ha, hr⟩ := ih
        { s with sem := Function.update s.sem td (mdxSemPost (s.sem td)) } _ h
      refine ⟨.post :: .next :: as, owed', ?_, ?_⟩
      · intro a hm
        rcases List.mem_cons.mp hm with rfl | hm
        · exact .inl rfl
        · rcases List.mem_cons.mp hm with rfl | hm
          · exact .inr rfl
          · exact ha a hm
      · rw [Cursor.enter, if_neg htd]
        exact hr

theorem walk_shutdown {fuel : ℕ} {s t : State Ptr} (h : nrfModemOsShutdown E fuel s = some t) :
    ∃ as owed, (∀ a ∈ as, a = .first ∨ a = .post ∨ a = .next) ∧
      Schedule.run (walkStep E) (s, {}) as = some (t, ⟨.done, owed⟩) := by
  obtain ⟨sem, hsem, rfl⟩ := Option.map_eq_some_iff.mp h
  obtain ⟨as, owed, ha, hr⟩ := walk_postLoop s s.queued hsem
  refine ⟨.first :: as, owed, ?_, hr⟩
  intro a hm
  rcases List.mem_cons.mp hm with rfl | hm
  · exact .inl rfl
  · exact .inr (ha a hm)

/-- The step is no removal of the node that the traversal stands at. -/
def SparesCursor (x : State Ptr × Walk Ptr) : WalkAction Ptr → Prop
  | .os (.remove td) => ¬x.2.standsAt td
  | _ => True

instance (x : State Ptr × Walk Ptr) (a : WalkAction Ptr) : Decidable (SparesCursor x a) := by
  unfold SparesCursor Walk.standsAt
  split <;> infer_instance

theorem queueStep_split (hn : (ys ++ td :: zs).Nodup) (hr : b ≠ .remove td) (hi : b ≠ .init) :
    ∃ ys' zs', queueStep (ys ++ td :: zs) b = ys' ++ td :: zs' ∧
      ∀ p ∈ zs, p ∈ queueStep (ys ++ td :: zs) b → p ∈ zs' := by
  cases b with
  | append q =>
    refine ⟨ys, zs ++ [q], ?_, fun p hp _ => List.mem_append_left [q] hp⟩
    rw [queueStep, List.append_assoc, List.cons_append]
  | remove q =>
    have hq : q ≠ td := fun he => hr (he ▸ rfl)
    -- the node goes from before the cursor, or else from behind it
    by_cases hy : q ∈ ys
    · refine ⟨ys.erase q, zs, ?_, fun p hp _ => hp⟩
      rw [queueStep, List.erase_append_left _ hy]
    · refine ⟨ys, zs.erase q, ?_, ?_⟩
      · rw [queueStep, List.erase_append_right _ hy, List.erase_cons_tail]
        simpa using hq.symm
      · intro p hp hm
        have hpq : p ≠ q := (hn.mem_erase_iff.mp hm).1
        exact (List.mem_erase_of_ne hpq).mpr hp
  | init => exact absurd rfl hi
  | _ => exact ⟨ys, zs, rfl, fun p hp _ => hp⟩

theorem placed_os (h : Queue E t (queueStep xs b)) (hn : xs.Nodup) (hw : w.Placed xs)
    (hr : ∀ td, b = .remove td → ¬w.standsAt td) (hi : b ≠ .init) :
    ({ w with owed := fun p => w.owed p && t.queued p } : Walk Ptr).Placed (queueStep xs b) := by
  have mem (p : Ptr) (hp : (w.owed p && t.queued p) = true) :
      w.owed p = true ∧ p ∈ queueStep xs b := by
    obtain ⟨ho, hq⟩ := Bool.and_eq_true_iff.mp hp
    exact ⟨ho, (h.ok p).mem_iff.mpr hq⟩
  cases hc : w.cursor with
  | idle => simp only [Walk.Placed]
  | post td =>
    simp only [Walk.Placed, hc] at hw ⊢
    obtain ⟨ys, zs, rfl, ho⟩ := hw
    obtain ⟨ys', zs', he, hz⟩ := queueStep_split hn (fun hb => hr td hb (.inl hc)) hi
    refine ⟨ys', zs', he, ?_⟩
    intro p hp
    obtain ⟨hp, hm⟩ := mem p hp
    rcases List.mem_cons.mp (ho p hp) with rfl | hp
    · exact List.mem_cons_self
    · exact List.mem_cons_of_mem td (hz p hp hm)
  | next td =>
    simp only [Walk.Placed, hc] at hw ⊢
    obtain ⟨ys, zs, rfl, ho⟩ := hw
    obtain ⟨ys', zs', he, hz⟩ := queueStep_split hn (fun hb => hr td hb (.inr hc)) hi
    refine ⟨ys', zs', he, ?_⟩
    intro p hp
    obtain ⟨hp, hm⟩ := mem p hp
    exact hz p (ho p hp) hm
  | done =>
    simp only [Walk.Placed, hc] at hw ⊢
    intro p
    rw [hw p, Bool.false_and]

theorem placed_enter (he : xs = ys ++ zs) (hn : E.NULL ∉ zs) {owed : Ptr → Bool}
    (ho : ∀ p, owed p = true → p ∈ zs) :
    (⟨.enter E (zs.headD E.NULL), owed⟩ : Walk Ptr).Placed xs := by
  cases zs with
  | nil =>
    rw [List.headD_nil, Cursor.enter, if_pos rfl]
    intro p
    apply eq_false_of_ne_true
    intro hp
    exact List.not_mem_nil (ho p hp)
  | cons z zs =>
    have hz : z ≠ E.NULL := fun hz => hn (hz ▸ List.mem_cons_self)
    rw [List.headD_cons, Cursor.enter, if_neg hz]
    exact ⟨ys, zs, he, ho⟩

theorem placed_post {owed : Ptr → Bool} (ho : ∀ p, owed p = true → p ∈ td :: zs) :
    (⟨.next td, Function.update owed td false⟩ : Walk Ptr).Placed (ys ++ td :: zs) := by
  refine ⟨ys, zs, rfl, ?_⟩
  intro p hp
  by_cases he : p = td
  · subst he
    simp at hp
  · have hp' : owed p = true := by simpa [Function.update_of_ne he] using hp
    exact (List.mem_cons.mp (ho p hp')).resolve_left he

theorem walkInv_step (ha : a ≠ .os .init) (h : WalkInv E x) (hg : SparesCursor x a)
    (hs : walkStep E x a = some y) : WalkInv E y := by
  obtain ⟨xs, hq, hw⟩ := h
  cases a with
  | os b =>
    obtain ⟨t, ht, rfl⟩ := Option.map_eq_some_iff.mp hs
    have hb : b ≠ .init := fun he => ha (he ▸ rfl)
    have hq' := hq.step (fun he => absurd he hb) ht
    refine ⟨_, hq', placed_os hq' hq.ring.nodup_tail hw ?_ hb⟩
    rintro td rfl
    exact hg
  | first =>
    obtain ⟨_, hs⟩ := Option.ite_none_right_eq_some.mp hs
    cases hs
    refine ⟨xs, hq, ?_⟩
    rw [tdFirst_eq hq.ring]
    apply placed_enter (List.nil_append xs).symm hq.null_notMem
    intro p hp
    exact (hq.ok p).mem_iff.mpr hp
  | post =>
    simp only [walkStep] at hs
    split at hs
    · next td hc =>
      cases hs
      simp only [Walk.Placed, hc] at hw
      obtain ⟨ys, zs, rfl, ho⟩ := hw
      refine ⟨_, hq.post fun q hne => ?_, placed_post ho⟩
      apply Function.update_of_ne
      rintro rfl
      exact hne (List.mem_append_right ys List.mem_cons_self)
    · cases hs
  | next =>
    simp only [walkStep] at hs
    split at hs
    · next td hc =>
      cases hs
      simp only [Walk.Placed, hc] at hw
      obtain ⟨ys, zs, rfl, ho⟩ := hw
      refine ⟨_, hq, ?_⟩
      rw [tdNext_eq hq.ring]
      apply placed_enter (List.append_cons ys td zs) _ ho
      intro hn
      exact hq.null_notMem (List.mem_append_right ys (List.mem_cons_of_mem td hn))
    · cases hs

theorem sparesCursor_of_onTrack (hs : walkStep E x a = some y) (hy : OnTrack y) :
    SparesCursor x a := by
  unfold SparesCursor
  split
  · next td =>
    intro hc
    obtain ⟨t, ht, rfl⟩ := Option.map_eq_some_iff.mp hs
    have hq : t.queued td = true := hy.1 td hc
    obtain ⟨c, hcall, hpt, rfl⟩ := atPoint_eq_some.mp ht
    -- after its removal a call is no longer queued
    rw [queued_of_call (setCall_call_self _)] at hq
    cases hq
  · trivial

/-- The traversal keeps to the list in all of a run exactly when no call removes its node
while the traversal stands at it. -/
theorem onTrack_iff (h : s.Reached E) (as : List (WalkAction Ptr)) (ha : ∀ a ∈ as, a ≠ .os .init) :
    Schedule.Always (walkStep E) OnTrack (s, {}) as ↔
      Schedule.Steps (walkStep E) SparesCursor (s, {}) as := by
  obtain ⟨xs, hq⟩ := queue_of_reached h
  have h0 : WalkInv E (s, ({} : Walk Ptr)) := ⟨xs, hq, trivial⟩
  refine Schedule.always_iff_steps (I := WalkInv E) ?_ ?_ ?_ ha h0
  · intro x hx
    exact onTrack_of_walkInv hx
  · intro x a y hb hx hg hs
    exact walkInv_step hb hx hg hs
  · intro x a y _ _ hs hy
    exact sparesCursor_of_onTrack hs hy

theorem onTrack_iff_sample : ∃ s,
    Schedule.run (step sampleEnv) sampleState
      (.init :: (fallAsleep 2 7 100 ++ fallAsleep 3 8 100)) = some s ∧
      Schedule.Always (walkStep sampleEnv) OnTrack (s, {})
        [.first, .post, .next, .os (.wait 2), .os (.remove 2), .post, .next] := by
  have h : (Schedule.run (step sampleEnv) sampleState
      (.init :: (fallAsleep 2 7 100 ++ fallAsleep 3 8 100))).any (fun s =>
        Schedule.Steps (walkStep sampleEnv) SparesCursor (s, {})
          [.first, .post, .next, .os (.wait 2), .os (.remove 2), .post, .next]) = true := by
    decide
  obtain ⟨s, hs, h⟩ := (Option.any_eq_true ..).mp h
  refine ⟨s, hs, ?_⟩
  exact (onTrack_iff (sample_reached (by decide) hs) _ (by decide)).mpr (of_decide_eq_true h)

/-- The call at 2 wakes, removes its node and returns between the post to it and the read
of its successor. The next call there clears the link, and the call at 3 gets no post. -/
def strayWalk : List (WalkAction ℕ) :=
  [.first, .post, .os (.wait 2), .os (.remove 2), .os (.recheck 2), .os (.ret 2 0),
    .os (.call 2 7 100), .os (.check 2), .os (.setup 2), .next]

theorem strayWalk_leaves_list : ∃ s t w,
    Schedule.run (step sampleEnv) sampleState
      (.init :: (fallAsleep 2 7 100 ++ fallAsleep 3 8 100)) = some s ∧
      Schedule.run (walkStep sampleEnv) (s, {}) strayWalk = some (t, w) ∧
      w.cursor = .done ∧ t.queued 3 = true ∧ w.owed 3 = true ∧
      ¬Schedule.Always (walkStep sampleEnv) OnTrack (s, {}) strayWalk := by
  have h : (Schedule.run (step sampleEnv) sampleState
      (.init :: (fallAsleep 2 7 100 ++ fallAsleep 3 8 100))).any (fun s =>
        (Schedule.run (walkStep sampleEnv) (s, {}) strayWalk).any fun x =>
          x.2.cursor = .done ∧ x.1.queued 3 = true ∧ x.2.owed 3 = true) = true := by
    decide
  obtain ⟨s, hs, h⟩ := (Option.any_eq_true ..).mp h
  obtain ⟨⟨t, w⟩, hr, h⟩ := (Option.any_eq_true ..).mp h
  obtain ⟨hc, hq, ho⟩ := of_decide_eq_true h
  refine ⟨s, t, w, hs, hr, hc, hq, ho, ?_⟩
  intro halways
  have hn : w.owed 3 = false := (halways.of_run hr).2 hc 3
  rw [ho] at hn
  cases hn

end Nrf9160.Modem
