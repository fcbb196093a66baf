import Mathlib.Algebra.Ring.Nat
import Nrf9160.Net.Http

/-! The bytes that the transport of the HTTP client moves. The client works through a request
and fills its memory with the response, and advances in each by the length that a successful
call leaves; the modem sends the request and hands over the response. -/

namespace Nrf9160.Net

structure Streams where
  request : List UInt8
  response : ℕ → UInt8

/-- The next bytes of the request, or room for bytes of the response, up to a length. -/
inductive Want where
  | read (length : ℕ)
  | write (length : ℕ)

/-- Where the client is in the request and in its memory, what the modem has sent, and how much
of the response it has handed over. -/
structure Link where
  out : ℕ
  filled : ℕ
  memory : ℕ → UInt8
  wire : List UInt8
  taken : ℕ

structure Transferred where
  want : Want
  log : List Event
  ret : ℤ
  length : ℕ

def Want.transfer (S : Streams) (s : Link) : Want → Transfer
  | read length => .read length
  | write length => .write ((S.request.drop s.out).take length)

def Link.store (S : Streams) (s : Link) (n : ℕ) : Link := { s with
  memory := fun i => if s.filled ≤ i ∧ i < s.filled + n then S.response (s.taken + (i - s.filled))
    else s.memory i
  taken := s.taken + n }

def Link.effect (S : Streams) (s : Link) : (c : Call) → c.Answer → Link
  | .nrfSend _ buf => fun (n : ℤ) => { s with wire := s.wire ++ buf.take n.toNat }
  | .nrfRecv .. => fun (n : ℤ) => s.store S n.toNat
  | _ => fun _ => s

def Link.advance (s : Link) (length : ℕ) : Want → Link
  | .read _ => { s with filled := s.filled + length }
  | .write _ => { s with out := s.out + length }

def Link.next (S : Streams) (s : Link) (x : Transferred) : Link :=
  let s := x.log.foldl (fun s ev => s.effect S ev.1 ev.2) s
  if x.ret = 0 then s.advance x.length x.want else s

/-- The modem moves no more than it is asked for. -/
def Call.InRange : (c : Call) → c.Answer → Prop
  | nrfSend _ buf => fun (n : ℤ) => n ≤ buf.length
  | nrfRecv _ length => fun (n : ℤ) => n ≤ length
  | _ => fun _ => True

inductive Link.Session (S : Streams) (socket : ℤ) : Link → List Transferred → Link → Prop where
  | nil {s : Link} : Session S socket s [] s
  | cons {s t : Link} {x : Transferred} {xs : List Transferred}
      (h : ((x.want.transfer S s).prog socket).Runs x.log (x.ret, x.length))
      (hr : ∀ ev ∈ x.log, ev.1.InRange ev.2) (hs : Session S socket (s.next S x) xs t) :
      Session S socket s (x :: xs) t

def Call.moved : (c : Call) → c.Answer → ℕ
  | nrfSend .. => fun (n : ℤ) => n.toNat
  | nrfRecv .. => fun (n : ℤ) => n.toNat
  | _ => fun _ => 0

def moved (log : List Event) : ℕ := (log.map fun ev => ev.1.moved ev.2).sum

def Call.MoveFails : (c : Call) → c.Answer → Prop
  | nrfSend .. => fun (n : ℤ) => n < 0
  | nrfRecv .. => fun (n : ℤ) => n < 0
  | _ => fun _ => False

/-- What a call of the transport promises. -/
structure Transferred.Accounted (x : Transferred) : Prop where
  length_eq : x.ret = 0 → x.length = moved x.log
  failed : Has Call.MoveFails x.log → x.ret ≠ 0

/-- No byte is skipped and none repeated, on the way out and on the way in. -/
structure Link.InStep (S : Streams) (s : Link) : Prop where
  wire_eq : s.wire = S.request.take s.out
  taken_eq : s.taken = s.filled
  memory_eq : ∀ i < s.filled, s.memory i = S.response i

/-- A send that does not fail sends all it is given. -/
def Call.SendsAll : (c : Call) → c.Answer → Prop
  | nrfSend _ buf => fun (n : ℤ) => 0 ≤ n → n = buf.length
  | _ => fun _ => True

def Link.start (memory : ℕ → UInt8) : Link where
  out := 0
  filled := 0
  memory := memory
  wire := []
  taken := 0

variable {S : Streams} {socket : ℤ} {s t : Link} {x : Transferred} {xs : List Transferred}
  {memory : ℕ → UInt8}

theorem httpcRead_ensures (length : ℕ) : (httpcRead socket length).Ensures fun a log =>
    ∃ n : ℤ, log = [⟨.nrfRecv socket length, n⟩] ∧
      a = if n ≥ 0 then (0, n.toNat) else (n, length) := by
  intro (n : ℤ)
  refine Prog.ensures_ite (fun hn => ⟨n, rfl, (if_pos hn).symm⟩) fun hn => ?_
  exact ⟨n, rfl, (if_neg hn).symm⟩

theorem httpcWrite_ensures (buf : List UInt8) : (httpcWrite socket buf).Ensures fun a log =>
    ∃ n : ℤ, log = [⟨.nrfSend socket buf, n⟩] ∧
      a = if n > 0 then (0, buf.length) else (n, buf.length) := by
  intro (n : ℤ)
  refine Prog.ensures_ite (fun hn => ⟨n, rfl, (if_pos hn).symm⟩) fun hn => ?_
  exact ⟨n, rfl, (if_neg hn).symm⟩

/-- What one call does, by what the client wants and what the modem answers. -/
inductive Transferred.Cases (S : Streams) (socket : ℤ) (s : Link) : Transferred → Prop where
  | received {length : ℕ} {n : ℤ} (hn : 0 ≤ n) (hle : n ≤ length) :
      Cases S socket s ⟨.read length, [⟨.nrfRecv socket length, n⟩], 0, n.toNat⟩
  | notReceived {length : ℕ} {n : ℤ} (hn : n < 0) :
      Cases S socket s ⟨.read length, [⟨.nrfRecv socket length, n⟩], n, length⟩
  | sent {length : ℕ} {buf : List UInt8} {n : ℤ} (hn : 0 ≤ n) (hle : n ≤ buf.length)
      (hbuf : buf = (S.request.drop s.out).take length) :
      Cases S socket s ⟨.write length, [⟨.nrfSend socket buf, n⟩], 0, buf.length⟩
  | notSent {length : ℕ} {buf : List UInt8} {n : ℤ} (hn : n < 0) :
      Cases S socket s ⟨.write length, [⟨.nrfSend socket buf, n⟩], n, buf.length⟩

theorem transferred_cases {want : Want} {log : List Event} {ret : ℤ} {length : ℕ}
    (h : ((want.transfer S s).prog socket).Runs log (ret, length))
    (hr : ∀ ev ∈ log, ev.1.InRange ev.2) :
    Transferred.Cases S socket s ⟨want, log, ret, length⟩ := by
  cases want with
  | read wanted =>
    obtain ⟨n, rfl, ha⟩ := (httpcRead_ensures wanted).of_runs h
    split_ifs at ha with hn
    · obtain ⟨rfl, rfl⟩ := Prod.mk.inj ha
      exact .received hn (hr _ (List.mem_singleton_self _))
    · obtain ⟨rfl, rfl⟩ := Prod.mk.inj ha
      exact .notReceived (Int.not_le.mp hn)
  | write wanted =>
    obtain ⟨n, rfl, ha⟩ := (httpcWrite_ensures _).of_runs h
    have hle : n ≤ _ := hr _ (List.mem_singleton_self _)
    split_ifs at ha with hn
    · obtain ⟨rfl, rfl⟩ := Prod.mk.inj ha
      exact .sent hn.le hle rfl
    · obtain ⟨rfl, rfl⟩ := Prod.mk.inj ha
      rcases (Int.not_lt.mp hn).eq_or_lt with rfl | hlt
      · exact .sent le_rfl hle rfl
      · exact .notSent hlt

theorem has_singleton {ev : Event} {P : (c : Call) → c.Answer → Prop} :
    Has P [ev] ↔ P ev.1 ev.2 := has_cons.trans (or_iff_left not_has_nil)

theorem accounted_iff (h : x.Cases S socket s) :
    x.Accounted ↔ ∀ ev ∈ x.log, ev.1.SendsAll ev.2 := by
  cases h with
  | received hn hle =>
    refine iff_of_true ⟨fun _ => ?_, fun hf => ?_⟩ (List.forall_mem_singleton.mpr trivial)
    · exact (Nat.add_zero _).symm
    · exact absurd (has_singleton.mp hf) (Int.not_lt.mpr hn)
  | notReceived hn =>
    refine iff_of_true ⟨fun h0 => ?_, fun _ => ?_⟩ (List.forall_mem_singleton.mpr trivial)
    · exact absurd h0 hn.ne
    · exact hn.ne
  | @sent length buf n hn hle hbuf =>
    rw [List.forall_mem_singleton]
    constructor
    · intro h _
      have hlen : buf.length = n.toNat + 0 := h.length_eq rfl
      show n = buf.length
      omega
    · intro h
      have hlen : n = buf.length := h hn
      refine ⟨fun _ => ?_, fun hf => ?_⟩
      · show buf.length = n.toNat + 0
        omega
      · exact absurd (has_singleton.mp hf) (Int.not_lt.mpr hn)
  | notSent hn =>
    refine iff_of_true ⟨fun h0 => ?_, fun _ => ?_⟩ (List.forall_mem_singleton.mpr ?_)
    · exact absurd h0 hn.ne
    · exact hn.ne
    · exact fun h0 => absurd h0 (Int.not_le.mpr hn)

theorem inStep_start : (Link.start memory).InStep S where
  wire_eq := rfl
  taken_eq := rfl
  memory_eq := fun _ hi => absurd hi (Nat.not_lt_zero _)

theorem store_zero : s.store S 0 = s := by
  have hmem : (s.store S 0).memory = s.memory := funext fun i => if_neg (by omega)
  obtain ⟨out, filled, memory, wire, taken⟩ := s
  simp only [Link.store] at hmem ⊢
  rw [hmem, Nat.add_zero]

theorem inStep_next (h : x.Cases S socket s) (hx : ∀ ev ∈ x.log, ev.1.SendsAll ev.2)
    (hs : s.InStep S) : (s.next S x).InStep S := by
  cases h with
  | @received length n hn hle =>
    refine ⟨hs.wire_eq, ?_, ?_⟩
    · exact congrArg (· + n.toNat) hs.taken_eq
    · intro i (hi : i < s.filled + n.toNat)
      show (if s.filled ≤ i ∧ i < s.filled + n.toNat then S.response (s.taken + (i - s.filled))
        else s.memory i) = _
      split_ifs with hnew
      · rw [hs.taken_eq, Nat.add_sub_cancel' hnew.1]
      · exact hs.memory_eq i (by omega)
  | @notReceived length n hn =>
    have h0 : n.toNat = 0 := Int.toNat_of_nonpos hn.le
    have hnext : s.next S ⟨.read length, [⟨.nrfRecv socket length, n⟩], n, length⟩ =
        s.store S n.toNat := if_neg hn.ne
    rw [hnext, h0, store_zero]
    exact hs
  | @sent length buf n hn hle hbuf =>
    have hlen : n = buf.length := List.forall_mem_singleton.mp hx hn
    have hbytes : (S.request.drop s.out).take buf.length = buf :=
      (List.prefix_iff_eq_take.mp (hbuf ▸ List.take_prefix ..)).symm
    refine ⟨?_, hs.taken_eq, hs.memory_eq⟩
    show s.wire ++ buf.take n.toNat = S.request.take (s.out + buf.length)
    rw [hs.wire_eq, List.take_add, hbytes, hlen, Int.toNat_natCast, List.take_length]
  | @notSent length buf n hn =>
    have h0 : n.toNat = 0 := Int.toNat_of_nonpos hn.le
    have hnext : s.next S ⟨.write length, [⟨.nrfSend socket buf, n⟩], n, buf.length⟩ =
        { s with wire := s.wire ++ buf.take n.toNat } := if_neg hn.ne
    rw [hnext, h0, List.take_zero, List.append_nil]
    exact hs

theorem inStep_session (h : Link.Session S socket s xs t)
    (hx : ∀ x ∈ xs, ∀ ev ∈ x.log, ev.1.SendsAll ev.2) (hs : s.InStep S) : t.InStep S := by
  induction h with
  | nil => exact hs
  | cons h hr _ ih =>
    obtain ⟨hhead, htail⟩ := List.forall_mem_cons.mp hx
    exact ih htail (inStep_next (transferred_cases h hr) hhead hs)

theorem accounted_session_iff (h : Link.Session S socket s xs t) :
    (∀ x ∈ xs, x.Accounted) ↔ ∀ x ∈ xs, ∀ ev ∈ x.log, ev.1.SendsAll ev.2 := by
  induction h with
  | nil => exact iff_of_true (List.forall_mem_nil _) (List.forall_mem_nil _)
  | cons h hr _ ih =>
    rw [List.forall_mem_cons, List.forall_mem_cons, ih, accounted_iff (transferred_cases h hr)]

/-- The transport accounts for its bytes in just the sessions in which no send is short: a
short one is reported as a success, with the length that was asked for. -/
theorem session_accounted_iff (h : Link.Session S socket (.start memory) xs t) :
    (∀ x ∈ xs, x.Accounted) ∧ t.InStep S ↔ ∀ x ∈ xs, ∀ ev ∈ x.log, ev.1.SendsAll ev.2 := by
  rw [← accounted_session_iff h]
  refine and_iff_left_of_imp fun hx => ?_
  exact inStep_session h ((accounted_session_iff h).mp hx) inStep_start

def sampleStreams : Streams where
  request := [0x47, 0x45, 0x54]
  response := fun i => .ofNat i

def sampleExchange : List Transferred :=
  [⟨.write 3, [⟨.nrfSend 1 [0x47, 0x45, 0x54], (3 : ℤ)⟩], 0, 3⟩,
    ⟨.read 8, [⟨.nrfRecv 1 8, (2 : ℤ)⟩], 0, 2⟩, ⟨.read 8, [⟨.nrfRecv 1 8, (-1 : ℤ)⟩], -1, 8⟩]

theorem session_accounted_iff_sample : ∃ t : Link,
    Link.Session sampleStreams 1 (.start fun _ => 0) sampleExchange t ∧
      (∀ x ∈ sampleExchange, x.Accounted) ∧ t.InStep sampleStreams := by
  have h2 : (2 : ℤ) ≤ 8 := by decide
  have h1 : (-1 : ℤ) ≤ 8 := by decide
  have h : Link.Session sampleStreams 1 (.start fun _ => 0) sampleExchange _ :=
    .cons (.call (.ret _)) (List.forall_mem_singleton.mpr le_rfl)
      (.cons (.call (.ret _)) (List.forall_mem_singleton.mpr h2)
        (.cons (.call (.ret _)) (List.forall_mem_singleton.mpr h1) .nil))
  refine ⟨_, h, (session_accounted_iff h).mpr ?_⟩
  simp only [sampleExchange, List.forall_mem_cons]
  exact ⟨⟨fun _ => rfl, List.forall_mem_nil _⟩, ⟨trivial, List.forall_mem_nil _⟩,
    ⟨trivial, List.forall_mem_nil _⟩, List.forall_mem_nil _⟩

/-- The modem takes one byte of the three, and the next send starts behind all of them. -/
theorem short_send_loses_bytes : ¬∀ S socket memory xs t,
    Link.Session S socket (.start memory) xs t → (∀ x ∈ xs, x.Accounted) ∧ t.InStep S := by
  intro hall
  have h1 : (1 : ℤ) ≤ 3 := by decide
  have h : Link.Session sampleStreams 1 (.start fun _ => 0)
      [⟨.write 3, [⟨.nrfSend 1 [0x47, 0x45, 0x54], (1 : ℤ)⟩], 0, 3⟩] _ :=
    .cons (.call (.ret _)) (List.forall_mem_singleton.mpr h1) .nil
  have hwire := (hall _ _ _ _ _ h).2.wire_eq
  exact absurd hwire (by decide)

end Nrf9160.Net
