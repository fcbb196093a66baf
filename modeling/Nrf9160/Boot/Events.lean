import Nrf9160.Boot.Order

/-! What `main` shows of itself to the modem's AT interface, as the events of `lte_connect`. The
network clients are a single event each there, and are left out on both sides. -/

namespace Nrf9160.Boot

def Call.event : (c : Call) → c.Answer → List Lte.Event
  | .nrfModemAtPrintf cmd => fun _ => [.lteAt cmd.text]
  | .nrfModemAtScanf => fun q => [.query q]
  | .nrfModemAtCmdAsync _ => fun _ => [.lteSignal]
  | .mdxUsleep usec => fun _ => [.usleep usec]
  | _ => fun _ => []

def events (log : List (Sigma Call.Answer)) : List Lte.Event := log.flatMap fun e => e.1.event e.2

def shown (es : List Lte.Event) : List Lte.Event := es.filter fun e => e ∉ Lte.traffic

/-- The events so far are the beginning of those of `lte_connect` on some answers. -/
def Within (status : Int32) (es : List Lte.Event) : Prop :=
  ∃ qs, es <+: shown (Lte.lteConnect status qs)

def trace (status : Int32) : Protocol Call Call.Answer (List Lte.Event) where
  ok es _ := Within status es
  legal _ _ _ := True
  next es c r := es ++ c.event r

variable {E : Start} {status : Int32} {es : List Lte.Event} {α : Type}
  {Q : α → List Lte.Event → Prop} {log : List (Sigma Call.Answer)}

theorem after_trace : (trace status).after es log = es ++ events log := by
  induction log generalizing es with
  | nil => exact (List.append_nil es).symm
  | cons e log ih =>
    show (trace status).after (es ++ e.1.event e.2) log = es ++ (e.1.event e.2 ++ events log)
    rw [ih, List.append_assoc]

theorem legal_trace : (trace status).Legal es log := by
  induction log generalizing es with
  | nil => trivial
  | cons e log ih => exact ⟨trivial, ih⟩

theorem Within.of_append {fs : List Lte.Event} (h : Within status (es ++ fs)) :
    Within status es := by
  obtain ⟨qs, hqs⟩ := h
  exact ⟨qs, (List.prefix_append es fs).trans hqs⟩

theorem trace_ask {c : Call} {f : c.Answer → BootProg α} (h : Within status es)
    (hf : ∀ r, (f r).Obeys (trace status) Q (es ++ c.event r)) :
    (ask c >>= f).Obeys (trace status) Q es := ⟨h, fun r _ => hf r⟩

theorem trace_silent {c : Call} {f : c.Answer → BootProg α} (hc : ∀ r, c.event r = [])
    (h : Within status es) (hf : ∀ r, (f r).Obeys (trace status) Q es) :
    (ask c >>= f).Obeys (trace status) Q es := by
  refine trace_ask h fun r => ?_
  rw [hc, List.append_nil]
  exact hf r

theorem trace_net (p : Net.NetProg α) (h : Within status es) :
    (net p).Obeys (trace status) (fun _ t => t = es) es := by
  induction p with
  | ret a => exact rfl
  | call c k ih => exact trace_silent (fun _ => rfl) h ih

theorem trace_gnss (p : Gnss.GnssProg α) (h : Within status es) :
    (gnss p).Obeys (trace status) (fun _ t => t = es) es := by
  induction p with
  | ret a => exact rfl
  | call c k ih => exact trace_silent (fun _ => rfl) h ih

theorem trace_usleep {usec : UInt32} {f : Unit → BootProg α} (h : Within status es)
    (hf : (f ()).Obeys (trace status) Q (es ++ [.usleep usec])) :
    (ask (.mdxUsleep usec) >>= f).Obeys (trace status) Q es := trace_ask h fun _ => hf

theorem trace_lteAt {cmd : At} {f : ℤ → BootProg α} (h : Within status (es ++ [.lteAt cmd.text]))
    (hf : ∀ err, (f err).Obeys (trace status) Q (es ++ [.lteAt cmd.text])) :
    (lteAt cmd >>= f).Obeys (trace status) Q es := by
  have hcmd : (lteAt cmd).Obeys (trace status) (fun _ t => t = es ++ [.lteAt cmd.text]) es := by
    refine ⟨h.of_append, fun err _ => Prog.obeys_ite (fun _ => ?_) fun _ => rfl⟩
    exact trace_silent (fun _ => rfl) h fun _ => rfl
  apply hcmd.bind
  rintro err _ rfl
  exact hf err

theorem trace_panic (h : Within status es) : (panic : BootProg α).Obeys (trace status) Q es :=
  ⟨h, fun e : Empty => nomatch e⟩

/-! `lte_connect` in the two models, part by part. -/

theorem shown_waitLoop (l : Lte.Locals) (qs : List Lte.Query) :
    shown (Lte.waitLoop l qs).1 = (Lte.waitLoop l qs).1 :=
  List.filter_eq_self.mpr fun e he => decide_eq_true (Lte.waitLoop_events l qs e he)

theorem shown_append (es fs : List Lte.Event) : shown (es ++ fs) = shown es ++ shown fs :=
  List.filter_append ..

theorem shown_lteConnect (status : Int32) (qs : List Lte.Query) :
    shown (Lte.lteConnect status qs) = Lte.setup ++ (Lte.lteWait status qs).1 ++
      shown (Lte.afterWait (Lte.lteWait status qs).2) := by
  have hsetup : shown Lte.setup = Lte.setup := rfl
  rw [Lte.lteConnect, shown_append, shown_append, hsetup, Lte.lteWait, shown_waitLoop]

/-- The rounds of the loop, from the one that starts with `l`. -/
theorem lteWait_trace (n : ℕ) (l : Lte.Locals) (es : List Lte.Event)
    (h : ∀ qs, Within status (es ++ (Lte.waitLoop l qs).1)) :
    (lteWait n l).Obeys (trace status) (fun o t => ∃ qs, t = es ++ (Lte.waitLoop l qs).1 ∧
      o = (Lte.waitLoop l qs).2) es := by
  induction n generalizing es l with
  | zero => exact ⟨[], (List.append_nil es).symm, rfl⟩
  | succ n ih =>
    refine trace_ask (h []).of_append fun q => ?_
    cases hs : Lte.switchStatus (l.scan q).status with
    | some r =>
      have hw : Lte.waitLoop l [q] = ([.query q], some r) := by rw [Lte.waitLoop, hs]
      refine ⟨[q], ?_, ?_⟩
      · rw [hw]
        rfl
      · rw [hw]
    | none =>
      have hw (qs : List Lte.Query) : Lte.waitLoop l (q :: qs) =
          (.query q :: .usleep 1000000 :: (Lte.waitLoop (l.scan q) qs).1,
            (Lte.waitLoop (l.scan q) qs).2) := by rw [Lte.waitLoop, hs]
      have hes (qs : List Lte.Query) : es ++ [.query q] ++ [.usleep 1000000] ++
          (Lte.waitLoop (l.scan q) qs).1 = es ++ (Lte.waitLoop l (q :: qs)).1 := by
        rw [hw, List.append_assoc, List.append_assoc]
        rfl
      have hnext : Within status (es ++ [.query q] ++ [.usleep 1000000]) :=
        ((hes []).symm ▸ h [q] : Within status (_ ++ (Lte.waitLoop (l.scan q) []).1)).of_append
      show Prog.Obeys _ _ _ (es ++ [.query q])
      refine trace_usleep hnext.of_append ?_
      apply (ih (l.scan q) _ fun qs => hes qs ▸ h (q :: qs)).mono
      rintro o t ⟨qs, rfl, rfl⟩
      exact ⟨q :: qs, hes qs, by rw [hw]⟩

theorem shown_afterWait (r : ℤ) : shown (Lte.afterWait (some r)) =
    (if r = 0 then [.lteSignal] else []) ++ shown Lte.finish := by
  show shown (if r = 0 then Lte.connected ++ Lte.finish else Lte.finish) = _
  split_ifs
  · rfl
  · rfl

theorem within_setup (h : es <+: Lte.setup) : Within status es := by
  refine ⟨[], h.trans ?_⟩
  rw [shown_lteConnect, List.append_assoc]
  exact List.prefix_append _ _

theorem within_wait (qs : List Lte.Query) :
    Within status (Lte.setup ++ (Lte.lteWait status qs).1) := by
  refine ⟨qs, ?_⟩
  rw [shown_lteConnect]
  exact List.prefix_append _ _

/-- The events from the start to where `lte_wait` has returned `r` and the branch is behind. -/
def branched (status : Int32) (qs : List Lte.Query) (r : ℤ) : List Lte.Event :=
  Lte.setup ++ (Lte.lteWait status qs).1 ++ if r = 0 then [.lteSignal] else []

theorem shown_of_some {qs : List Lte.Query} {r : ℤ} (hr : (Lte.lteWait status qs).2 = some r) :
    shown (Lte.lteConnect status qs) = branched status qs r ++ shown Lte.finish := by
  rw [shown_lteConnect, hr, shown_afterWait, branched, List.append_assoc _ _ (shown Lte.finish)]

theorem within_finish {qs : List Lte.Query} {r : ℤ} (hr : (Lte.lteWait status qs).2 = some r)
    {fs : List Lte.Event} (h : fs <+: shown Lte.finish) :
    Within status (branched status qs r ++ fs) := by
  refine ⟨qs, ?_⟩
  rw [shown_of_some hr]
  exact List.prefix_append_right_inj _ |>.mpr h

theorem traffic_trace {qs : List Lte.Query} {r : ℤ} (hr : (Lte.lteWait status qs).2 = some r) :
    (if r = 0 then traffic E else pure 0).Obeys (trace status)
      (fun _ t => t = branched status qs r) (Lte.setup ++ (Lte.lteWait status qs).1) := by
  have hafter : Within status (branched status qs r) := by
    have h := within_finish hr List.nil_prefix
    rwa [List.append_nil] at h
  refine Prog.obeys_ite (fun h0 => ?_) fun h0 => ?_
  · have hb : branched status qs r = Lte.setup ++ (Lte.lteWait status qs).1 ++ [.lteSignal] := by
      rw [branched, if_pos h0]
    rw [hb] at hafter ⊢
    have hsignal : lteSignal.Obeys (trace status) (fun _ t => t =
        Lte.setup ++ (Lte.lteWait status qs).1 ++ [.lteSignal])
        (Lte.setup ++ (Lte.lteWait status qs).1) :=
      ⟨hafter.of_append, fun _ _ => Prog.obeys_ite (fun _ => rfl) fun _ => rfl⟩
    apply hsignal.bind
    rintro _ _ rfl
    apply (trace_net _ hafter).bind
    rintro _ _ rfl
    exact trace_net _ hafter
  · show Lte.setup ++ (Lte.lteWait status qs).1 = branched status qs r
    rw [branched, if_neg h0, List.append_nil]

theorem httpcMain_trace (h : Within status es) :
    (httpcMain E).Obeys (trace status) (fun _ t => t = es) es := by
  refine trace_silent (fun _ => rfl) h fun _ => ?_
  apply (trace_net _ h).bind
  rintro _ _ rfl
  exact rfl

/-- What a run of `lte_connect` ends with. -/
def Shows (status : Int32) (o : Option ℤ) (es : List Lte.Event) : Prop :=
  ∃ qs, es = shown (Lte.lteConnect status qs) ∧ (o = none ↔ (Lte.lteWait status qs).2 = none)

theorem lteConnect_trace (E : Start) (n : ℕ) :
    (lteConnect E n).Obeys (trace E.status) (Shows E.status) [] := by
  have hset (k : ℕ) : Within E.status (Lte.setup.take k) := within_setup (List.take_prefix k _)
  refine trace_lteAt (hset 1) fun _ => trace_lteAt (hset 2) fun _ => ?_
  refine trace_lteAt (hset 3) fun _ => trace_lteAt (hset 4) fun _ => ?_
  refine trace_lteAt (hset 5) fun _ => trace_lteAt (hset 6) fun _ => ?_
  refine trace_lteAt (hset 7) fun _ => trace_lteAt (hset 8) fun _ => ?_
  refine trace_lteAt (hset 9) fun _ => trace_lteAt (hset 10) fun _ => ?_
  refine trace_lteAt (hset 11) fun _ => trace_lteAt (hset 12) fun _ => ?_
  apply Prog.Obeys.bind (lteWait_trace n ⟨E.status, 0⟩ Lte.setup within_wait)
  rintro (_ | r) _ ⟨qs, rfl, hr⟩
  · refine ⟨qs, ?_, iff_of_true rfl hr.symm⟩
    have hnone : (Lte.lteWait E.status qs).2 = none := hr.symm
    rw [shown_lteConnect, hnone]
    exact (List.append_nil _).symm
  replace hr : (Lte.lteWait E.status qs).2 = some r := hr.symm
  have hfin (k : ℕ) : Within E.status (branched E.status qs r ++ (shown Lte.finish).take k) :=
    within_finish hr (List.take_prefix k _)
  have hstart : Within E.status (branched E.status qs r) := (hfin 0).of_append
  have hassoc (fs gs : List Lte.Event) : branched E.status qs r ++ fs ++ gs =
      branched E.status qs r ++ (fs ++ gs) := List.append_assoc ..
  apply Prog.Obeys.bind (traffic_trace hr)
  rintro _ _ rfl
  apply Prog.Obeys.bind (httpcMain_trace hstart)
  rintro _ _ rfl
  refine trace_usleep hstart (trace_lteAt ?_ fun _ => ?_)
  · rw [hassoc]
    exact hfin 2
  rw [hassoc]
  refine trace_usleep (hfin 2) (trace_lteAt ?_ fun _ => ?_)
  · rw [hassoc, hassoc]
    exact hfin 4
  rw [hassoc, hassoc]
  refine trace_usleep (hfin 4) (trace_lteAt ?_ fun _ => ?_)
  · rw [hassoc, hassoc]
    exact hfin 6
  rw [hassoc, hassoc]
  refine trace_usleep (hfin 6) ⟨qs, ?_, iff_of_false (Option.some_ne_none 0) ?_⟩
  · rw [shown_of_some hr, hassoc]
    rfl
  · rw [hr]
    exact Option.some_ne_none r

theorem main_trace (E : Start) (n : ℕ) : (main E n).Obeys (trace E.status) (fun p es =>
    Shows E.status (match p with | .waiting => none | .idle _ => some 0) es) [] := by
  have h0 : Within E.status [] := within_setup List.nil_prefix
  refine trace_silent (fun _ => rfl) h0 fun _ => ?_
  refine Prog.obeys_ite (fun _ => trace_panic h0) fun _ => ?_
  refine trace_silent (fun _ => rfl) h0 fun _ => trace_silent (fun _ => rfl) h0 fun error => ?_
  refine Prog.obeys_ite (fun _ => trace_panic h0) fun _ => ?_
  refine trace_silent (fun _ => rfl) h0 fun _ => trace_silent (fun _ => rfl) h0 fun _ => ?_
  apply Prog.Obeys.bind (lteConnect_trace E n)
  rintro (_ | r) es hes
  · exact hes
  have hwithin : Within E.status es := by
    obtain ⟨qs, rfl, -⟩ := hes
    exact ⟨qs, List.prefix_refl _⟩
  refine trace_silent (fun _ => rfl) hwithin fun _ => ?_
  apply Prog.Obeys.bind (trace_gnss Gnss.gpsInit hwithin)
  rintro error _ rfl
  exact ⟨hes.choose, hes.choose_spec.1, iff_of_false (Option.some_ne_none 0) fun h =>
    Option.some_ne_none r (hes.choose_spec.2.mpr h)⟩

/-- At every call of every run of `main`, what it has done to the AT interface is the beginning
of what `lte_connect` does on some answers, and when `main` has left its straight course, it
is all of it. -/
theorem main_refines_lteConnect (E : Start) (n : ℕ) (log : List (Sigma Call.Answer)) :
    (∀ c k, (main E n).Steps log (.call c k) → Within E.status (events log)) ∧
      ((main E n).Steps log (.ret .waiting) →
        ∃ qs, events log = shown (Lte.lteConnect E.status qs) ∧
          (Lte.lteWait E.status qs).2 = none) ∧
      ∀ error, (main E n).Steps log (.ret (.idle error)) →
        ∃ qs, events log = shown (Lte.lteConnect E.status qs) ∧
          (Lte.lteWait E.status qs).2 ≠ none := by
  obtain ⟨hcall, hret⟩ := Prog.obeys_iff.mp (main_trace E n)
  have hlog : (trace E.status).after [] log = events log := after_trace
  refine ⟨fun c k hs => ?_, fun hs => ?_, fun error hs => ?_⟩
  · exact hlog ▸ hcall log c k hs legal_trace
  · obtain ⟨qs, hqs, ho⟩ := hret log _ hs legal_trace
    exact ⟨qs, hlog ▸ hqs, ho.mp rfl⟩
  · obtain ⟨qs, hqs, ho⟩ := hret log _ hs legal_trace
    exact ⟨qs, hlog ▸ hqs, fun h => Option.some_ne_none 0 (ho.mpr h)⟩

theorem main_refines_lteConnect_denied :
    (∃ k, (main sampleStart 1).Steps deniedLog (.call (.net (.nrfSend 5 [71])) k)) ∧
      Within 0 (events deniedLog) := by
  obtain ⟨k, hk⟩ := steps_denied
  exact ⟨⟨k, hk⟩, (main_refines_lteConnect sampleStart 1 deniedLog).1 _ k hk⟩

end Nrf9160.Boot
