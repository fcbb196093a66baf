import Mathlib.Data.Int.Notation
import Mathlib.Data.Seq.Basic
import Mathlib.Tactic.SplitIfs

/-! `lte_wait` and `lte_connect`: what the result of the registration, and the traffic that
follows it, owe to the answers of the modem. -/

namespace Nrf9160.Lte

def LTE_CEREG_NOT_REGISTERED : Int32 := 0
def LTE_CEREG_REGISTERED_HOME : Int32 := 1
def LTE_CEREG_SEARCHING : Int32 := 2
def LTE_CEREG_REGISTRATION_DENIED : Int32 := 3
def LTE_CEREG_UNKNOWN : Int32 := 4
def LTE_CEREG_REGISTERED_ROAMING : Int32 := 5
def LTE_CEREG_UICC_FAIL : Int32 := 90

/-- The outcome of one `AT+CEREG?`: the return value of `nrf_modem_at_scanf` and the fields
that it converted. -/
structure Query where
  err : Int32
  status : Option Int32
  cellId : Option UInt32
  deriving DecidableEq

structure Locals where
  status : Int32
  cellId : UInt32

/-- The stores of `nrf_modem_at_scanf`: a field that it does not convert stays as it was. -/
def Locals.scan (l : Locals) (q : Query) : Locals where
  status := q.status.getD l.status
  cellId := q.cellId.getD l.cellId

/-- The `switch` of `lte_wait`: what it returns, or `none` where it breaks. -/
def switchStatus (status : Int32) : Option ℤ :=
  if status = LTE_CEREG_NOT_REGISTERED then none
  else if status = LTE_CEREG_REGISTERED_HOME then some 0
  else if status = LTE_CEREG_SEARCHING then none
  else if status = LTE_CEREG_REGISTRATION_DENIED then some 1
  else if status = LTE_CEREG_UNKNOWN then none
  else if status = LTE_CEREG_REGISTERED_ROAMING then some 0
  else if status = LTE_CEREG_UICC_FAIL then some 1
  else none

inductive Event where
  | lteAt (cmd : String)
  | query (q : Query)
  | usleep (usec : UInt32)
  | lteSignal
  | ntpMain
  | connectToServer
  | httpcMain
  deriving DecidableEq

/-- The loop of `lte_wait` on the answers that have come so far: what it has done, and what
it returns if they were enough. -/
def waitLoop (l : Locals) : List Query → List Event × Option ℤ
  | [] => ([], none)
  | q :: qs =>
    -- `err` is printed and not tested
    match switchStatus (l.scan q).status with
    | some r => ([.query q], some r)
    | none =>
      let w := waitLoop (l.scan q) qs
      (.query q :: .usleep 1000000 :: w.1, w.2)

/-- `status` is what the uninitialised local holds on entry. -/
def lteWait (status : Int32) (qs : List Query) : List Event × Option ℤ :=
  waitLoop { status, cellId := 0 } qs

def setup : List Event :=
  [.lteAt "AT+CFUN=4", .lteAt "AT%%XSYSTEMMODE?", .lteAt "AT%%XSYSTEMMODE=1,0,1,0",
    .lteAt "AT%%XMAGPIO=1,0,0,1,1,1574,1577", .lteAt "AT%%XCOEX0=1,1,1565,1586",
    .lteAt "AT+CPSMS=1,,,\"00000110\",\"00000000\"", .lteAt "AT+CIND?",
    .lteAt "AT+CEDRXS=1,4,\"1000\"", .lteAt "AT%%XDATAPRFL=4",
    .lteAt "AT%%XBANDLOCK=2,\"10000001000000001100\"", .lteAt "AT+CEREG=5",
    .lteAt "AT+CFUN=1"]

def connected : List Event := [.lteSignal, .ntpMain, .connectToServer]

def guarded : List Event := [.ntpMain, .connectToServer]

def traffic : List Event := [.ntpMain, .connectToServer, .httpcMain]

def finish : List Event :=
  [.httpcMain, .usleep 500000, .lteAt "AT+CFUN=20", .usleep 500000, .lteAt "AT+CEDRXS=3",
    .usleep 500000, .lteAt "AT+CFUN=31", .usleep 500000]

def afterWait : Option ℤ → List Event
  | none => []
  -- `httpc_main` stands behind both branches
  | some r => if r = 0 then connected ++ finish else finish

/-- What `lte_connect` has done on the answers that have come so far, none of the results of
its other calls being looked at. -/
def lteConnect (status : Int32) (qs : List Query) : List Event :=
  setup ++ (lteWait status qs).1 ++ afterWait (lteWait status qs).2

/-! What the result and the traffic should rest on. -/

def Query.registered (q : Query) : Prop := q.status = some 1 ∨ q.status = some 5

def Query.denied (q : Query) : Prop := q.status = some 3 ∨ q.status = some 90

structure Answered (q : Query) (r : Option ℤ) : Prop where
  zero : r = some 0 → q.registered
  one : r = some 1 → q.denied
  again : ¬q.registered → ¬q.denied → r = none

/-- Each time `lte_wait` has waited for an answer, it goes by that answer. -/
def WaitAnswered (status : Int32) (qs : List Query) : Prop :=
  ∀ ps q rest, qs = ps ++ q :: rest → (lteWait status ps).2 = none →
    Answered q (lteWait status (ps ++ [q])).2

def Event.query? : Event → Option Query
  | .query q => some q
  | _ => none

def queries (es : List Event) : List Query := es.filterMap Event.query?

/-- Whenever an event of the kind starts, the latest query has reported a registration. -/
def OnlyRegistered (kind : List Event) (es : List Event) : Prop :=
  ∀ pre e post, es = pre ++ e :: post → e ∈ kind →
    ∃ q, (queries pre).getLast? = some q ∧ q.registered

/-- If the first query converts no status, the local does not hold one that ends the loop. -/
def FirstAnswer (status : Int32) (first : Option Query) : Prop :=
  ∀ q, first = some q → q.status = none → status ≠ 1 ∧ status ≠ 3 ∧ status ≠ 5 ∧ status ≠ 90

def NotDenied (answers : ℕ → Option Query) : Prop :=
  ∀ n q, answers n = some q → q.denied → ∃ m p, m < n ∧ answers m = some p ∧ p.registered

variable {status : Int32} {q : Query} {qs : List Query} {l : Locals} {r : ℤ}

theorem switchStatus_eq (status : Int32) : switchStatus status =
    if status = 1 ∨ status = 5 then some 0
    else if status = 3 ∨ status = 90 then some 1
    else none := by
  by_cases h1 : status = 1
  · subst h1
    rfl
  by_cases h3 : status = 3
  · subst h3
    rfl
  by_cases h5 : status = 5
  · subst h5
    rfl
  by_cases h90 : status = 90
  · subst h90
    rfl
  simp only [switchStatus, LTE_CEREG_REGISTERED_HOME, LTE_CEREG_REGISTRATION_DENIED,
    LTE_CEREG_REGISTERED_ROAMING, LTE_CEREG_UICC_FAIL, h1, h3, h5, h90, or_self, if_false,
    ite_self]

def Query.reports (q : Query) : Option ℤ := q.status.bind switchStatus

theorem reports_eq_zero : q.reports = some 0 ↔ q.registered := by
  unfold Query.reports Query.registered
  cases hs : q.status with
  | none => simp
  | some x =>
    rw [Option.bind_some, switchStatus_eq]
    split_ifs with h h'
    · simpa using h
    · simpa using h
    · simpa using h

theorem reports_eq_one : q.reports = some 1 ↔ q.denied := by
  unfold Query.reports Query.denied
  cases hs : q.status with
  | none => simp
  | some x =>
    rw [Option.bind_some, switchStatus_eq]
    split_ifs with h h'
    · rcases h with rfl | rfl <;> simp
    · simpa using h'
    · simpa using h'

theorem reports_cases (q : Query) : q.reports = none ∨ q.registered ∨ q.denied := by
  rw [← reports_eq_zero, ← reports_eq_one]
  unfold Query.reports
  cases q.status with
  | none => exact .inl rfl
  | some x =>
    rw [Option.bind_some, switchStatus_eq]
    split_ifs
    · exact .inr (.inl rfl)
    · exact .inr (.inr rfl)
    · exact .inl rfl

theorem answered_reports (q : Query) : Answered q q.reports where
  zero := reports_eq_zero.mp
  one := reports_eq_one.mp
  again h h' := ((reports_cases q).resolve_right fun hor => hor.elim h h')

theorem switchStatus_eq_none :
    switchStatus status = none ↔ status ≠ 1 ∧ status ≠ 3 ∧ status ≠ 5 ∧ status ≠ 90 := by
  rw [switchStatus_eq]
  split_ifs with h h'
  · simp only [false_iff]
    rintro ⟨h1, -, h5, -⟩
    exact h.elim h1 h5
  · simp only [false_iff]
    rintro ⟨-, h3, -, h90⟩
    exact h'.elim h3 h90
  · exact iff_of_true rfl
      ⟨fun e => h (.inl e), fun e => h' (.inl e), fun e => h (.inr e), fun e => h' (.inr e)⟩

theorem switchStatus_scan (h : q.status = none → switchStatus l.status = none) :
    switchStatus (l.scan q).status = q.reports := by
  unfold Locals.scan Query.reports
  cases hs : q.status with
  | none => exact h hs
  | some x => rfl

/-- Once the local does not end the loop, or is converted first, the loop goes by the first
answer that does. -/
theorem waitLoop_result
    (h : ∀ q, qs.head? = some q → q.status = none → switchStatus l.status = none) :
    (waitLoop l qs).2 = qs.findSome? Query.reports := by
  induction qs generalizing l with
  | nil => rfl
  | cons q qs ih =>
    have hq : switchStatus (l.scan q).status = q.reports := switchStatus_scan (h q rfl)
    rw [waitLoop, List.findSome?_cons, hq]
    cases hr : q.reports with
    | some r => rfl
    | none =>
      -- what the local carries on is a status that has not ended the loop
      exact ih fun _ _ _ => hq.trans hr

theorem lteWait_result (h : FirstAnswer status qs.head?) :
    (lteWait status qs).2 = qs.findSome? Query.reports :=
  waitLoop_result fun q hq hn => switchStatus_eq_none.mpr (h q hq hn)

theorem waitAnswered_iff : WaitAnswered status qs ↔ FirstAnswer status qs.head? := by
  constructor
  · intro h
    cases qs with
    | nil =>
      intro q hq
      cases hq
    | cons q qs =>
      intro p hp hn
      obtain rfl : q = p := Option.some.inj hp
      have ha := h [] q qs rfl rfl
      -- the switch goes by the local as it was on entry
      have hw : (lteWait status ([] ++ [q])).2 = switchStatus status := by
        simp only [lteWait, List.nil_append, waitLoop, Locals.scan, hn, Option.getD_none]
        cases switchStatus status <;> rfl
      have hnone := ha.again (by simp [Query.registered, hn]) (by simp [Query.denied, hn])
      exact switchStatus_eq_none.mp (hw.symm.trans hnone)
  · rintro h ps q rest rfl hps
    have hhead : FirstAnswer status (ps ++ [q]).head? := by
      cases ps <;> exact h
    rw [lteWait_result hhead]
    have hps' : ps.findSome? Query.reports = none := by
      rw [← hps]
      refine (lteWait_result ?_).symm
      cases ps with
      | nil =>
        intro p hp
        cases hp
      | cons p ps => exact h
    rw [List.findSome?_append, hps', Option.none_or, List.findSome?_singleton]
    exact answered_reports q

theorem waitLoop_events (l : Locals) (qs : List Query) :
    ∀ e ∈ (waitLoop l qs).1, e ∉ traffic := by
  induction qs generalizing l with
  | nil => simp [waitLoop]
  | cons q qs ih =>
    rw [waitLoop]
    cases switchStatus (l.scan q).status with
    | some r => simp [traffic]
    | none =>
      intro e he
      rcases List.mem_cons.mp he with rfl | he
      · simp [traffic]
      · rcases List.mem_cons.mp he with rfl | he
        · simp [traffic]
        · exact ih (l.scan q) e he

theorem waitLoop_answer (h : (waitLoop l qs).2 = some r) :
    ∃ ps q rest, qs = ps ++ q :: rest ∧ (waitLoop l ps).2 = none ∧
      (waitLoop l (ps ++ [q])).2 = some r ∧ queries (waitLoop l qs).1 = ps ++ [q] := by
  induction qs generalizing l with
  | nil => cases h
  | cons q qs ih =>
    rw [waitLoop] at h
    cases hs : switchStatus (l.scan q).status with
    | some r' =>
      rw [hs] at h
      refine ⟨[], q, qs, rfl, rfl, ?_, ?_⟩
      · simp only [List.nil_append, waitLoop, hs]
        exact h
      · simp [waitLoop, hs, queries, Event.query?]
    | none =>
      rw [hs] at h
      obtain ⟨ps, p, rest, rfl, hps, hp, hq⟩ := ih h
      refine ⟨q :: ps, p, rest, rfl, ?_, ?_, ?_⟩
      · simp only [waitLoop, hs]
        exact hps
      · simp only [List.cons_append, waitLoop, hs]
        exact hp
      · simp only [waitLoop, hs]
        exact congrArg (q :: ·) hq

theorem queries_append (es fs : List Event) : queries (es ++ fs) = queries es ++ queries fs :=
  List.filterMap_append

theorem queries_afterWait (r : Option ℤ) : queries (afterWait r) = [] := by
  cases r with
  | none => rfl
  | some r =>
    show queries (if r = 0 then connected ++ finish else finish) = []
    split_ifs <;> rfl

theorem queries_of_prefix {r : Option ℤ} {mid post : List Event}
    (h : afterWait r = mid ++ post) : queries mid = [] := by
  have hq := queries_afterWait r
  rw [h, queries_append] at hq
  exact (List.append_eq_nil_iff.mp hq).1

theorem setup_events : ∀ e ∈ setup, e ∉ traffic := by
  decide

theorem split_of_notMem {es fs pre post : List Event} {e : Event} (h : es ++ fs = pre ++ e :: post)
    (he : e ∉ es) : ∃ mid, pre = es ++ mid ∧ fs = mid ++ e :: post := by
  rcases List.append_eq_append_iff.mp h with ⟨mid, hp, hf⟩ | ⟨mid, hp, hf⟩
  · exact ⟨mid, hp, hf⟩
  · cases mid with
    | nil => exact ⟨[], by simpa using hp.symm, hf.symm⟩
    | cons x mid =>
      obtain rfl : e = x := (List.cons.inj hf).1
      exact absurd (hp ▸ List.mem_append_right pre List.mem_cons_self) he

theorem onlyRegistered_iff {kind : List Event} (hk : ∀ e ∈ kind, e ∈ traffic) :
    OnlyRegistered kind (lteConnect status qs) ↔
      ∀ e ∈ afterWait (lteWait status qs).2, e ∈ kind →
        ∃ q, (queries (lteWait status qs).1).getLast? = some q ∧ q.registered := by
  have hquery : queries (setup ++ (lteWait status qs).1) = queries (lteWait status qs).1 := by
    rw [queries_append]
    rfl
  constructor
  · intro h e he hek
    obtain ⟨mid, post, hmid⟩ := List.append_of_mem he
    have hlast := h (setup ++ (lteWait status qs).1 ++ mid) e post
      (by rw [lteConnect, hmid, ← List.append_assoc]) hek
    rwa [queries_append, queries_of_prefix hmid, List.append_nil, hquery] at hlast
  · intro h pre e post he hek
    have hnot : e ∉ setup ++ (lteWait status qs).1 := by
      intro hm
      rcases List.mem_append.mp hm with hm | hm
      · exact setup_events e hm (hk e hek)
      · exact waitLoop_events _ qs e hm (hk e hek)
    obtain ⟨mid, rfl, hmid⟩ := split_of_notMem he hnot
    rw [queries_append, queries_of_prefix hmid, List.append_nil, hquery]
    exact h e (hmid ▸ List.mem_append_right mid List.mem_cons_self) hek

theorem answered_of_result (h : WaitAnswered status qs) (hr : (lteWait status qs).2 = some r) :
    ∃ q, (queries (lteWait status qs).1).getLast? = some q ∧ Answered q (some r) := by
  obtain ⟨ps, q, rest, he, hps, hq, hqueries⟩ := waitLoop_answer hr
  refine ⟨q, ?_, ?_⟩
  · show (queries (waitLoop _ qs).1).getLast? = some q
    rw [hqueries, List.getLast?_concat]
  · have ha := h ps q rest he hps
    rw [lteWait, hq] at ha
    exact ha

theorem zero_or_one (h : WaitAnswered status qs) (hr : (lteWait status qs).2 = some r) :
    r = 0 ∨ r = 1 := by
  rw [lteWait_result (waitAnswered_iff.mp h)] at hr
  obtain ⟨q, _, hq⟩ := List.exists_of_findSome?_eq_some hr
  rcases reports_cases q with hn | hreg | hden
  · exact absurd (hq.symm.trans hn) (by simp)
  · exact .inl (Option.some.inj (hq.symm.trans (reports_eq_zero.mpr hreg)))
  · exact .inr (Option.some.inj (hq.symm.trans (reports_eq_one.mpr hden)))

theorem not_registered_of_denied (h : q.denied) : ¬q.registered := by
  intro hreg
  have he := (reports_eq_zero.mpr hreg).symm.trans (reports_eq_one.mpr h)
  simp at he

theorem finish_events : ∀ e ∈ finish, e ∉ guarded := by
  decide

theorem onlyRegistered_guarded (h : WaitAnswered status qs) :
    OnlyRegistered guarded (lteConnect status qs) := by
  apply (onlyRegistered_iff (by decide)).mpr
  intro e he hek
  cases hr : (lteWait status qs).2 with
  | none =>
    rw [hr] at he
    exact absurd he List.not_mem_nil
  | some r =>
    obtain ⟨q, hq, ha⟩ := answered_of_result h hr
    refine ⟨q, hq, ?_⟩
    by_cases h0 : r = 0
    · exact ha.zero (congrArg some h0)
    · rw [hr, afterWait, if_neg h0] at he
      exact absurd hek (finish_events e he)

/-- `httpc_main` is started after a denial as well. -/
theorem onlyRegistered_traffic (h : WaitAnswered status qs) :
    OnlyRegistered traffic (lteConnect status qs) ↔ (lteWait status qs).2 ≠ some 1 := by
  rw [onlyRegistered_iff fun e he => he]
  constructor
  · intro hall hr
    obtain ⟨q, hq, ha⟩ := answered_of_result h hr
    have hmem : Event.httpcMain ∈ afterWait (lteWait status qs).2 := by
      rw [hr]
      decide
    obtain ⟨p, hp, hreg⟩ := hall _ hmem (by decide)
    obtain rfl : q = p := Option.some.inj (hq.symm.trans hp)
    exact not_registered_of_denied (ha.one rfl) hreg
  · intro hne e he _
    cases hr : (lteWait status qs).2 with
    | none =>
      rw [hr] at he
      exact absurd he List.not_mem_nil
    | some r =>
      obtain ⟨q, hq, ha⟩ := answered_of_result h hr
      have h1 : r ≠ 1 := fun h1 => hne (hr.trans (congrArg some h1))
      have h0 : r = 0 := (zero_or_one h hr).resolve_right h1
      exact ⟨q, hq, ha.zero (congrArg some h0)⟩

theorem findSome?_ne_one :
    qs.findSome? Query.reports ≠ some 1 ↔ NotDenied fun n => qs[n]? := by
  induction qs with
  | nil =>
    refine iff_of_true (by simp) ?_
    intro n q hq
    simp at hq
  | cons p qs ih =>
    rw [List.findSome?_cons]
    rcases reports_cases p with hn | hreg | hden
    · have hreg : ¬p.registered := fun h => by simp [reports_eq_zero.mpr h] at hn
      have hden : ¬p.denied := fun h => by simp [reports_eq_one.mpr h] at hn
      rw [hn]
      refine ih.trans ⟨fun h n q hq hd => ?_, fun h n q hq hd => ?_⟩
      · cases n with
        | zero => exact absurd (Option.some.inj hq ▸ hd) hden
        | succ n =>
          obtain ⟨m, q', hm, hq', hr⟩ := h n q hq hd
          exact ⟨m + 1, q', Nat.succ_lt_succ hm, hq', hr⟩
      · obtain ⟨m, q', hm, hq', hr⟩ := h (n + 1) q hq hd
        cases m with
        | zero => exact absurd (Option.some.inj hq' ▸ hr) hreg
        | succ m => exact ⟨m, q', Nat.lt_of_succ_lt_succ hm, hq', hr⟩
    · rw [reports_eq_zero.mpr hreg]
      refine iff_of_true (by simp) ?_
      intro n q hq hd
      cases n with
      | zero =>
        have hp : p = q := Option.some.inj hq
        exact absurd hreg (not_registered_of_denied (hp ▸ hd))
      | succ n => exact ⟨0, p, Nat.succ_pos n, rfl, hreg⟩
    · rw [reports_eq_one.mpr hden]
      refine iff_of_false (fun h => h rfl) ?_
      intro h
      obtain ⟨m, q, hm, -⟩ := h 0 p rfl hden
      exact absurd hm (Nat.not_lt_zero m)

/-- `lte_wait` goes by each of the answers that have come so far, and `lte_connect` starts the
events of the kind only after a registration. -/
structure Sound (kind : List Event) (status : Int32) (qs : List Query) : Prop where
  answered : WaitAnswered status qs
  traffic : OnlyRegistered kind (lteConnect status qs)

theorem sound_guarded_iff : Sound guarded status qs ↔ FirstAnswer status qs.head? := by
  rw [← waitAnswered_iff]
  exact ⟨Sound.answered, fun h => ⟨h, onlyRegistered_guarded h⟩⟩

theorem sound_traffic_iff : Sound traffic status qs ↔
    FirstAnswer status qs.head? ∧ NotDenied fun n => qs[n]? := by
  rw [← waitAnswered_iff, ← findSome?_ne_one]
  constructor
  · rintro ⟨h, ht⟩
    rw [onlyRegistered_traffic h, lteWait_result (waitAnswered_iff.mp h)] at ht
    exact ⟨h, ht⟩
  · rintro ⟨h, hne⟩
    rw [← lteWait_result (waitAnswered_iff.mp h), ← onlyRegistered_traffic h] at hne
    exact ⟨h, hne⟩

section

variable {answers : Stream'.Seq Query}

theorem firstAnswer_take_iff :
    (∀ n, FirstAnswer status (answers.take n).head?) ↔ FirstAnswer status (answers.get? 0) := by
  constructor
  · intro h q hq
    apply h 1
    rw [List.head?_eq_getElem?, Stream'.Seq.getElem?_take, if_pos Nat.zero_lt_one]
    exact hq
  · intro h n q hq
    apply h
    rw [List.head?_eq_getElem?, Stream'.Seq.getElem?_take] at hq
    exact (Option.ite_none_right_eq_some.mp hq).2

theorem notDenied_take_iff :
    (∀ n, NotDenied fun k => (answers.take n)[k]?) ↔ NotDenied answers.get? := by
  constructor
  · intro h n q hq hd
    have hn : (answers.take (n + 1))[n]? = some q := by
      rw [Stream'.Seq.getElem?_take, if_pos (Nat.lt_succ_self n)]
      exact hq
    obtain ⟨m, p, hm, hp, hr⟩ := h (n + 1) n q hn hd
    replace hp : (answers.take (n + 1))[m]? = some p := hp
    rw [Stream'.Seq.getElem?_take] at hp
    exact ⟨m, p, hm, (Option.ite_none_right_eq_some.mp hp).2, hr⟩
  · intro h n k q hq hd
    replace hq : (answers.take n)[k]? = some q := hq
    rw [Stream'.Seq.getElem?_take] at hq
    obtain ⟨hk, hq⟩ := Option.ite_none_right_eq_some.mp hq
    obtain ⟨m, p, hm, hp, hr⟩ := h k q hq hd
    refine ⟨m, p, hm, ?_, hr⟩
    show (answers.take n)[m]? = some p
    rw [Stream'.Seq.getElem?_take, if_pos (hm.trans hk)]
    exact hp

/-- Over every finite or infinite sequence of answers and every value that the local holds
on entry: when the result of `lte_wait` and the traffic of `lte_connect` rest on what the
modem reported, first for the traffic inside the branch and then with `httpc_main`. -/
theorem registration_iff (status : Int32) (answers : Stream'.Seq Query) :
    ((∀ n, Sound guarded status (answers.take n)) ↔ FirstAnswer status (answers.get? 0)) ∧
      ((∀ n, Sound traffic status (answers.take n)) ↔
        FirstAnswer status (answers.get? 0) ∧ NotDenied answers.get?) := by
  constructor
  · simp only [sound_guarded_iff]
    exact firstAnswer_take_iff
  · simp only [sound_traffic_iff, forall_and]
    exact and_congr firstAnswer_take_iff notDenied_take_iff

end

/-- The first query fails and the local happens to hold 1. -/
theorem stale_status_registers : lteWait 1 [⟨-5, none, none⟩] =
    ([.query ⟨-5, none, none⟩], some 0) ∧ ¬WaitAnswered 1 [⟨-5, none, none⟩] := by
  refine ⟨rfl, ?_⟩
  intro h
  obtain ⟨h1, -⟩ := waitAnswered_iff.mp h _ rfl rfl
  exact h1 rfl

end Nrf9160.Lte
