import Cybrg.Sessions.Isolation
import Cybrg.Sessions.Reflection
import Mathlib.Data.List.Induction

/-!
# The numbering at one end of a session

Both counters of a `Crypto` object are tested for a wrap only after they have moved on twice:
`send` tests when the packet has gone out, `recv` when it has decrypted it and not handed it
over.  A run of an end is taken up to the first exception of its object.

* `Station.step` — calls of one end, with any bytes arriving in between;
* `Station.SendSide` — its packets are numbered, and the exception about the end of the numbers
  comes at the packet with index `2 ^ 31 - 1`;
* `Station.RecvSide` — the same for the headers that it accepts, with the plaintext of all earlier
  packets handed over;
* `disciplined_run` — both hold after every run, whatever arrives and whatever the socket takes.
-/

namespace Cybrg

open Octets

theorem counter_eq_zero_iff {n : ℕ} (hpos : 0 < n) (hle : n ≤ 2 ^ 31) :
    counter n = 0 ↔ n = 2 ^ 31 := by
  constructor
  · intro h0
    by_contra hne
    exact counter_ne_zero hpos (by omega) h0
  · rintro rfl
    decide

/-- The two numbers of a packet. -/
def Packet.numbers (p : Packet) : List UInt32 :=
  [p.rocket.sequenceNumber, p.spacecraft.sequenceNumber]

/-- A byte string that the tag of the header with number `n` covers. -/
def HeaderInput (o : ByteOrder) (n : ℕ) (bs : Bytes) : Prop :=
  if n % 2 = 0 then ∃ size : UInt32, bs = o.store size ++ o.store (UInt32.ofNat n)
  else ∃ payload : Bytes, bs = o.store (UInt32.ofNat n) ++ payload

/-! ### One end -/

namespace Station

inductive Event where
  | send (plaintext : Bytes)
  | recv (size : ℕ)
  /-- Some bytes arrive, whoever sent them. -/
  | arrive (bs : Bytes)

/-- A call that came back, with what it gave its caller. -/
inductive Call where
  | send (plaintext : Bytes) (result : Except Ex ℤ)
  | recv (size : ℕ) (result : Except Ex Bytes)
  deriving DecidableEq

abbrev session (t : Station) : Session := t.endpoint.session

/-- The packets that the end has built. -/
def sent (t : Station) : List Packet := t.session.hist.sent

/-- The packets that the end has accepted. -/
def accepted (t : Station) : List Accepted := t.session.hist.accepted

/-- The headers that the end has accepted, as the byte strings under their tags. -/
def headers (t : Station) : List Bytes := t.session.hist.verified

/-- One event at an end; after its first exception it makes no more calls. -/
def step (P : Primitives) (o : ByteOrder) (t : Station) : Event → Station × List Call
  | .send plaintext =>
      if t.closed then (t, []) else
        let r := (Crypto.send P o plaintext).run t.endpoint.session
        (⟨{ t.endpoint with session := Exec.endState r }, Exec.threw r⟩,
          [.send plaintext (Exec.outcome r)])
  | .recv size =>
      if t.closed then (t, []) else
        let r := (Crypto.recv P o size).run t.endpoint
        (⟨Exec.endState r, Exec.threw r⟩, [.recv size (Exec.outcome r)])
  | .arrive bs => ({ t with endpoint := t.endpoint.deliver bs }, [])

/-- A fresh object on a connection. -/
def new (k : SessionKeys) (conn : Connection := {}) : Station where
  endpoint := Endpoint.new k conn

/-- The plaintexts that went into calls of `send`. -/
def plaintexts (calls : List Call) : List Bytes :=
  calls.filterMap fun
    | .send plaintext _ => some plaintext
    | .recv _ _ => none

/-- The bytes that the calls of `recv` returned. -/
def returned (calls : List Call) : Bytes :=
  calls.flatMap fun
    | .send _ _ => []
    | .recv _ result => returnedBytes result

/-- A `send` threw `ExSeqNumOverflow`. -/
def SendOverflow (calls : List Call) : Prop :=
  ∃ plaintext m, .send plaintext (.error (.exSeqNumOverflow m)) ∈ calls

/-- A `recv` threw `ExSeqNumOverflow`. -/
def RecvOverflow (calls : List Call) : Prop :=
  ∃ size m, .recv size (.error (.exSeqNumOverflow m)) ∈ calls

theorem returned_append (calls calls' : List Call) :
    returned (calls ++ calls') = returned calls ++ returned calls' := by
  simp [returned]

theorem plaintexts_append (calls calls' : List Call) :
    plaintexts (calls ++ calls') = plaintexts calls ++ plaintexts calls' := by
  simp [plaintexts]

/-! ### What holds after every run of an end -/

/-- Every entry of a list stands where it should. -/
def Placed {α : Type} (R : ℕ → α → Prop) (xs : List α) : Prop :=
  ∀ n x, xs[n]? = some x → R n x

theorem Placed.nil {α : Type} {R : ℕ → α → Prop} : Placed R [] := by
  intro n x h
  simp at h

theorem Placed.snoc {α : Type} {R : ℕ → α → Prop} {xs : List α} (h : Placed R xs) {x : α}
    (hx : R xs.length x) : Placed R (xs ++ [x]) := by
  intro n y hy
  rw [List.getElem?_append] at hy
  split at hy
  · exact h n y hy
  · rename_i hn
    obtain ⟨h0, rfl⟩ := List.getElem?_eq_some_iff.mp hy
    have hlen : n = xs.length := by
      simp only [List.length_singleton] at h0
      omega
    rw [List.getElem_singleton, hlen]
    exact hx

theorem Placed.init {α : Type} {R : ℕ → α → Prop} {xs : List α} {x : α}
    (h : Placed R (xs ++ [x])) : Placed R xs := by
  intro n y hy
  refine h n y ?_
  rw [List.getElem?_append_left (List.getElem?_eq_some_iff.mp hy).1, hy]

theorem Placed.last {α : Type} {R : ℕ → α → Prop} {xs : List α} {x : α}
    (h : Placed R (xs ++ [x])) : R xs.length x :=
  h xs.length x (by simp)

theorem counter_add_one (n : ℕ) : counter n + 1 = UInt32.ofNat (2 * n + 1) := by
  rw [counter, UInt32.ofNat_add]
  rfl

/-- **The numbers of a numbered list of packets** are those from zero on. -/
theorem numbers_eq {ps : List Packet}
    (h : Placed (fun i p => Packet.numbers p = [counter i, counter i + 1]) ps) :
    ps.flatMap Packet.numbers = (List.range (2 * ps.length)).map UInt32.ofNat := by
  induction ps using List.reverseRecOn with
  | nil => rfl
  | append_singleton ps p ih =>
    rw [List.flatMap_append, ih h.init, List.flatMap_singleton, h.last, counter_add_one, counter,
      List.length_append, List.length_singleton, Nat.mul_add, Nat.mul_one, List.range_succ,
      List.range_succ, List.map_append, List.map_append, List.append_assoc]
    rfl

/-- Up to `2 ^ 31` packets no number comes twice. -/
theorem numbers_nodup {ps : List Packet}
    (h : Placed (fun i p => Packet.numbers p = [counter i, counter i + 1]) ps)
    (hcount : ps.length ≤ 2 ^ 31) : (ps.flatMap Packet.numbers).Nodup := by
  rw [numbers_eq h]
  refine List.Nodup.map_on ?_ List.nodup_range
  intro m hm n hn heq
  rw [List.mem_range] at hm hn
  have hval := congrArg UInt32.toNat heq
  rwa [UInt32.toNat_ofNat', UInt32.toNat_ofNat', Nat.mod_eq_of_lt (by omega),
    Nat.mod_eq_of_lt (by omega)] at hval

/-- The numbers of a packet as natural numbers. -/
theorem toNat_numbers {p : Packet} {i : ℕ} (hi : i < 2 ^ 31)
    (h : p.numbers = [counter i, counter i + 1]) :
    p.rocket.sequenceNumber.toNat = 2 * i ∧ p.spacecraft.sequenceNumber.toNat = 2 * i + 1 := by
  simp only [Packet.numbers, List.cons.injEq, and_true] at h
  rw [h.1, h.2]
  exact ⟨toNat_counter hi, toNat_counter_add_one hi⟩

/-- The sending side of an end. -/
structure SendSide (P : Primitives) (o : ByteOrder) (authKey : Tag) (t : Station)
    (calls : List Call) : Prop where
  numbered : Crypto.Numbered P o authKey t.session
  count : t.sent.length ≤ 2 ^ 31
  countOpen : t.closed = false → t.sent.length < 2 ^ 31
  overflow : SendOverflow calls → t.sent.length = 2 ^ 31

/-- The receiving side of an end. -/
structure RecvSide (P : Primitives) (o : ByteOrder) (t : Station) (calls : List Call) : Prop where
  verified : Process.AllVerified P o t.session
  headersCount : t.headers.length ≤ 2 ^ 32
  headers : Placed (HeaderInput o) t.headers
  headersOpen : t.closed = false → t.headers.length = 2 * t.accepted.length
  accepted : Placed (fun i a => a.packet.numbers = [counter i, counter i + 1]) t.accepted
  acceptedCount : t.accepted.length ≤ 2 ^ 31
  acceptedOpen : t.closed = false → t.accepted.length < 2 ^ 31
  next : t.closed = false → t.session.crypto.sequenceNumberI = counter t.accepted.length
  overflow : RecvOverflow calls ↔ t.accepted.length = 2 ^ 31
  delivered : t.closed = false →
    returned calls ++ t.endpoint.buf.unread = Process.plaintexts t.session
  deliveredEarlier : t.accepted.length = 2 ^ 31 →
    returned calls = (t.accepted.take (2 ^ 31 - 1)).flatMap (·.plaintext)

variable {P : Primitives} {o : ByteOrder} {authKey : Tag} {t : Station} {calls : List Call}

theorem SendSide.new (k : SessionKeys) (conn : Connection) :
    SendSide P o k.authKey (new k conn) [] :=
  ⟨.new k conn, Nat.zero_le _, fun _ => Nat.two_pow_pos 31,
    fun ⟨_, _, h⟩ => absurd h List.not_mem_nil⟩

theorem RecvSide.new (k : SessionKeys) (conn : Connection) : RecvSide P o (new k conn) [] := by
  have hpos : 0 < 2 ^ 31 := by omega
  refine ⟨fun a ha => absurd ha List.not_mem_nil, Nat.zero_le _, .nil, fun _ => rfl, .nil,
    Nat.zero_le _, fun _ => hpos, fun _ => rfl, ?_, fun _ => ?_, fun h => absurd h hpos.ne⟩
  · exact ⟨fun ⟨_, _, h⟩ => absurd h List.not_mem_nil, fun h => absurd h hpos.ne⟩
  · rw [RecvBuffer.unread_of_empty rfl]
    rfl

/-- What the sending side depends on. -/
theorem SendSide.of_eq (h : SendSide P o authKey t calls) {t' : Station} {calls' : List Call}
    (hkey : t'.session.crypto.authKey = t.session.crypto.authKey)
    (hseq : t'.session.crypto.sequenceNumberO = t.session.crypto.sequenceNumberO)
    (hsent : t'.sent = t.sent) (hopen : t'.closed = false → t.closed = false)
    (hcalls : SendOverflow calls' → SendOverflow calls) : SendSide P o authKey t' calls' := by
  refine ⟨h.numbered.of_eq hkey hseq hsent, ?_, ?_, ?_⟩
  · rw [hsent]
    exact h.count
  · rw [hsent]
    exact fun hc => h.countOpen (hopen hc)
  · rw [hsent]
    exact fun hc => h.overflow (hcalls hc)

/-- What the receiving side depends on. -/
theorem RecvSide.of_eq (h : RecvSide P o t calls) {t' : Station} {calls' : List Call}
    (hkey : t'.session.crypto.authKey = t.session.crypto.authKey)
    (hseq : t'.session.crypto.sequenceNumberI = t.session.crypto.sequenceNumberI)
    (hacc : t'.accepted = t.accepted) (hhead : t'.headers = t.headers)
    (hbuf : t'.endpoint.buf = t.endpoint.buf) (hopen : t'.closed = false → t.closed = false)
    (hover : RecvOverflow calls' ↔ RecvOverflow calls) (hret : returned calls' = returned calls) :
    RecvSide P o t' calls' := by
  have hplain : Process.plaintexts t'.session = Process.plaintexts t.session :=
    congrArg (List.flatMap Accepted.plaintext) hacc
  refine ⟨h.verified.of_eq hkey hacc, ?_, ?_, ?_, ?_, ?_, ?_, ?_, ?_, ?_, ?_⟩
  · exact hhead ▸ h.headersCount
  · exact hhead ▸ h.headers
  · rw [hhead, hacc]
    exact fun hc => h.headersOpen (hopen hc)
  · exact hacc ▸ h.accepted
  · exact hacc ▸ h.acceptedCount
  · rw [hacc]
    exact fun hc => h.acceptedOpen (hopen hc)
  · rw [hseq, hacc]
    exact fun hc => h.next (hopen hc)
  · rw [hover, hacc]
    exact h.overflow
  · rw [hret, hbuf, hplain]
    exact fun hc => h.delivered (hopen hc)
  · rw [hret, hacc]
    exact h.deliveredEarlier

/-! ### A call of `send` -/

/-- The calls after one more that threw no `ExSeqNumOverflow`, or another kind of call. -/
theorem sendOverflow_snoc {c : Call} :
    SendOverflow (calls ++ [c]) ↔
      SendOverflow calls ∨ ∃ plaintext m, c = .send plaintext (.error (.exSeqNumOverflow m)) := by
  simp only [SendOverflow, List.mem_append, List.mem_singleton, exists_or, eq_comm]

theorem recvOverflow_snoc {c : Call} :
    RecvOverflow (calls ++ [c]) ↔
      RecvOverflow calls ∨ ∃ size m, c = .recv size (.error (.exSeqNumOverflow m)) := by
  simp only [RecvOverflow, List.mem_append, List.mem_singleton, exists_or, eq_comm]

/-- **A `send` at an open end** builds the next packet; the end stays open only below
`2 ^ 31` packets, and the exception about the end of the numbers comes only at the last. -/
theorem SendSide.send (h : SendSide P o authKey t calls) (hopen : t.closed = false)
    (plaintext : Bytes) :
    SendSide P o authKey (step P o t (.send plaintext)).1
      (calls ++ (step P o t (.send plaintext)).2) := by
  have hnum := h.numbered.send plaintext
  have hn := h.countOpen hopen
  obtain ⟨c, -, hend⟩ := Crypto.send_cases P o plaintext t.endpoint.session
  -- the counter after the packet
  have hcounter : t.endpoint.session.crypto.sequenceNumberO + 1 + 1 = counter (t.sent.length + 1) :=
    by rw [← counter_succ]; exact congrArg (· + 1 + 1) h.numbered.next
  have hlen : (Exec.endState ((Crypto.send P o plaintext).run t.endpoint.session)).hist.sent.length
      = t.sent.length + 1 := by
    rw [hend]
    simp [Crypto.sealed, sent, session]
  have hzero := counter_eq_zero_iff (Nat.succ_pos t.sent.length) hn
  simp only [step, hopen, Bool.false_eq_true, if_false]
  cases hr : (Crypto.send P o plaintext).run t.endpoint.session with
  | ok n s =>
    rw [hr] at hnum hlen
    have hne := Crypto.send_ok hr
    rw [hcounter, Ne, hzero] at hne
    refine ⟨hnum, hlen ▸ hn, fun _ => ?_, fun hover => ?_⟩
    · exact lt_of_le_of_ne (hlen ▸ hn) fun heq => hne (hlen.symm.trans heq)
    · rcases sendOverflow_snoc.mp hover with hover | ⟨_, _, hc⟩
      · have := h.overflow hover
        omega
      · cases hc
  | error x s =>
    rw [hr] at hnum hlen
    refine ⟨hnum, hlen ▸ hn, fun hc => absurd hc (by simp), fun hover => ?_⟩
    rcases sendOverflow_snoc.mp hover with hover | ⟨_, _, hc⟩
    · have := h.overflow hover
      omega
    · cases hc
      have hwrap := Crypto.send_overflow hr
      rw [hcounter, hzero] at hwrap
      exact hlen.trans hwrap

/-- The receiving side does not notice a `send`. -/
theorem RecvSide.send (h : RecvSide P o t calls) (hopen : t.closed = false) (plaintext : Bytes) :
    RecvSide P o (step P o t (.send plaintext)).1
      (calls ++ (step P o t (.send plaintext)).2) := by
  obtain ⟨c, -, hend⟩ := Crypto.send_cases P o plaintext t.endpoint.session
  simp only [step, hopen, Bool.false_eq_true, if_false]
  refine h.of_eq ?_ ?_ ?_ ?_ rfl (fun _ => hopen) ?_ ?_
  · exact congrArg (·.crypto.authKey) hend
  · exact congrArg (·.crypto.sequenceNumberI) hend
  · exact congrArg (·.hist.accepted) hend
  · exact congrArg (·.hist.verified) hend
  · rw [recvOverflow_snoc]
    simp
  · simp [returned]

/-! ### A call of `recv` -/

theorem headerInput_rocket {r : Rocket} {i : ℕ} (h : r.sequenceNumber = counter i) :
    HeaderInput o (2 * i) (r.macInput o) := by
  rw [HeaderInput, if_pos (by omega)]
  exact ⟨r.payloadSize, by rw [Rocket.macInput, h]; rfl⟩

theorem headerInput_spacecraft {s : SpaceCraft} {i : ℕ} {payload : Bytes}
    (h : s.sequenceNumber = counter i + 1) :
    HeaderInput o (2 * i + 1) (s.macInput o payload) := by
  rw [HeaderInput, if_neg (by omega)]
  exact ⟨payload, by rw [SpaceCraft.macInput, h, counter_add_one]⟩

/-- **A packet is accepted at an open end**: both headers carry the numbers next in line. -/
theorem RecvSide.accept (h : RecvSide P o t calls) (hopen : t.closed = false)
    (hb : t.endpoint.buf.remaining = 0) {p : Packet} (rest : Bytes)
    (he : Crypto.Expected P o t.session.crypto.authKey t.session.crypto.sequenceNumberI p) :
    Process.AllVerified P o (Crypto.accept P o t.endpoint p rest).session ∧
      Placed (HeaderInput o) (t.headers ++ p.macInputs o) ∧
      (t.headers ++ p.macInputs o).length = 2 * (t.accepted.length + 1) ∧
      Placed (fun i a => a.packet.numbers = [counter i, counter i + 1])
        (t.accepted ++ [.mk p (Crypto.plaintextOf P t.session.crypto p)]) ∧
      returned calls = Process.plaintexts t.session := by
  have hlen := h.headersOpen hopen
  have hrocket := he.rocketSeq.trans (h.next hopen)
  have hcraft : p.spacecraft.sequenceNumber = counter t.accepted.length + 1 := by
    rw [he.spacecraftSeq, h.next hopen]
  refine ⟨?_, ?_, ?_, h.accepted.snoc ?_, ?_⟩
  · intro a ha
    rcases List.mem_append.mp ha with ha | ha
    · exact h.verified a ha
    · rw [List.mem_singleton.mp ha]
      exact he.verified
  · have hfirst : Placed (HeaderInput o) (t.headers ++ [p.rocket.macInput o]) :=
      h.headers.snoc (by rw [hlen]; exact headerInput_rocket hrocket)
    have hboth := hfirst.snoc (x := p.spacecraft.macInput o p.payload) <| by
      rw [List.length_append, hlen]
      exact headerInput_spacecraft hcraft
    rwa [List.append_assoc] at hboth
  · rw [List.length_append, hlen]
    rfl
  · rw [Packet.numbers, hrocket, hcraft]
  · have hd := h.delivered hopen
    rwa [RecvBuffer.unread_of_empty hb, List.append_nil] at hd

/-- **A `recv` at an open end** keeps the receiving side in order: the headers it accepts carry
the next numbers, and it throws the exception about the end of the numbers exactly when it
accepts the last packet. -/
theorem RecvSide.recv (h : RecvSide P o t calls) (hopen : t.closed = false) (size : ℕ) :
    RecvSide P o (step P o t (.recv size)).1 (calls ++ (step P o t (.recv size)).2) := by
  have hends := Crypto.recv_cases P o size t.endpoint
  have hn := h.acceptedOpen hopen
  have hnot : ¬ RecvOverflow calls := fun hover => hn.ne (h.overflow.mp hover)
  have hcounter : t.endpoint.session.crypto.sequenceNumberI + 1 + 1
      = counter (t.accepted.length + 1) := by
    rw [← counter_succ]
    exact congrArg (· + 1 + 1) (h.next hopen)
  have hzero := counter_eq_zero_iff (Nat.succ_pos t.accepted.length) hn
  have hplain : ∀ {p : Packet} {rest : Bytes},
      Process.plaintexts (Crypto.accept P o t.endpoint p rest).session
        = Process.plaintexts t.session ++ Crypto.plaintextOf P t.session.crypto p := by
    intro p rest
    simp [Process.plaintexts, Crypto.accept]
  have hgood : ∀ bs, RecvOverflow (calls ++ [.recv size (.ok bs)]) ↔ RecvOverflow calls := by
    intro bs
    rw [recvOverflow_snoc]
    simp
  have hret : ∀ result, returned (calls ++ [.recv size result])
      = returned calls ++ returnedBytes result := by
    intro result
    simp [returned]
  simp only [step, hopen, Bool.false_eq_true, if_false]
  generalize (Crypto.recv P o size).run t.endpoint = r at hends ⊢
  cases hends with
  | unread hb =>
    refine ⟨h.verified, h.headersCount, h.headers, fun _ => h.headersOpen hopen, h.accepted,
      h.acceptedCount, fun _ => hn, fun _ => h.next hopen, (hgood _).trans h.overflow, fun _ => ?_,
      fun hfull => absurd hfull hn.ne⟩
    rw [Exec.outcome_ok, hret]
    simp only [returnedBytes, Exec.endState_ok, RecvBuffer.unread_advance, List.append_assoc,
      List.take_append_drop]
    exact h.delivered hopen
  | @rejected hb x s hx =>
    have hheld := Crypto.receivePacket_held.of_error hx
    simp only [Crypto.held, Prod.mk.injEq] at hheld
    obtain ⟨-, -, hkey, -, -, hacc, -, -⟩ := hheld
    obtain ⟨hkind, hhead⟩ := Crypto.receivePacket_error hx
    have hover : RecvOverflow (calls ++ [.recv size (.error x)]) ↔ RecvOverflow calls := by
      rw [recvOverflow_snoc, or_iff_left]
      rintro ⟨_, m, hc⟩
      cases hc
      exact hkind m rfl
    have hlen := h.headersOpen hopen
    have hheaders : s.hist.verified.length ≤ 2 ^ 32 ∧ Placed (HeaderInput o) s.hist.verified := by
      rcases hhead with heq | ⟨r, hseq, heq⟩
      · rw [heq]
        exact ⟨h.headersCount, h.headers⟩
      · rw [heq]
        refine ⟨?_, h.headers.snoc ?_⟩
        · change (t.headers ++ _).length ≤ _
          rw [List.length_append, hlen, List.length_singleton]
          omega
        · rw [hlen]
          exact headerInput_rocket (hseq.trans (h.next hopen))
    refine ⟨h.verified.of_eq hkey hacc, hheaders.1, hheaders.2, fun hc => absurd hc (by simp),
      ?_, ?_, fun hc => absurd hc (by simp), fun hc => absurd hc (by simp), ?_,
      fun hc => absurd hc (by simp), ?_⟩
    · change Placed _ s.hist.accepted
      rw [hacc]
      exact h.accepted
    · change s.hist.accepted.length ≤ _
      rw [hacc]
      exact h.acceptedCount
    · change RecvOverflow (calls ++ [.recv size (.error x)]) ↔ s.hist.accepted.length = _
      rw [hover, hacc]
      exact h.overflow
    · change s.hist.accepted.length = _ → _
      rw [hacc]
      exact fun hfull => absurd hfull hn.ne
  | @accepted hb p rest he hin hseq =>
    obtain ⟨hver, hhead, hlen, hacc, hdone⟩ := h.accept hopen hb rest he
    rw [hcounter, Ne, hzero] at hseq
    have hcount : (t.accepted ++ [Accepted.mk p (Crypto.plaintextOf P t.session.crypto p)]).length
        = t.accepted.length + 1 := by simp
    refine ⟨hver, hlen ▸ ?_, hhead, fun _ => hlen.trans (by rw [← hcount]; rfl), hacc,
      hcount ▸ hn, fun _ => ?_, fun _ => ?_, ?_, fun _ => ?_, ?_⟩
    · omega
    · exact lt_of_le_of_ne (hcount ▸ hn) fun heq => hseq (hcount.symm.trans heq)
    · exact hcounter.trans (congrArg counter hcount.symm)
    · rw [Exec.outcome_ok, hgood]
      exact ⟨fun hc => absurd hc hnot, fun hfull => absurd (hcount.symm.trans hfull) hseq⟩
    · rw [Exec.outcome_ok, hret, Exec.endState_ok]
      simp only [returnedBytes]
      rw [RecvBuffer.unread_advance, Crypto.accept, RecvBuffer.unread_fill, List.append_assoc,
        List.take_append_drop, hdone]
      exact hplain.symm
    · exact fun hfull => absurd (hcount.symm.trans hfull) hseq
  | @wrapped hb p rest he hin hseq =>
    obtain ⟨hver, hhead, hlen, hacc, hdone⟩ := h.accept hopen hb rest he
    rw [hcounter, hzero] at hseq
    have hcount : (t.accepted ++ [Accepted.mk p (Crypto.plaintextOf P t.session.crypto p)]).length
        = t.accepted.length + 1 := by simp
    have hfull := hcount.trans hseq
    refine ⟨hver, hlen ▸ ?_, hhead, fun hc => absurd hc (by simp), hacc, hcount ▸ hn,
      fun hc => absurd hc (by simp), fun hc => absurd hc (by simp), ?_,
      fun hc => absurd hc (by simp), fun _ => ?_⟩
    · omega
    · rw [Exec.outcome_error, recvOverflow_snoc]
      exact ⟨fun _ => hfull, fun _ => .inr ⟨_, _, rfl⟩⟩
    · rw [Exec.outcome_error, hret]
      simp only [returnedBytes, List.append_nil]
      have hprev : (t.accepted ++ [Accepted.mk p (Crypto.plaintextOf P t.session.crypto p)]).take
          (2 ^ 31 - 1) = t.accepted := by
        rw [show 2 ^ 31 - 1 = t.accepted.length by omega, List.take_left]
      exact hdone.trans (congrArg (List.flatMap Accepted.plaintext) hprev.symm)

/-- What sending depends on. -/
def sendHalf (s : Session) :=
  (s.crypto.authKey, s.crypto.sequenceNumberO, s.crypto.ctxE, s.hist.sent, s.conn.sendRets,
    s.conn.outgoing)

/-- Receiving does not touch it, however the call ends. -/
theorem recv_sendHalf (size : ℕ) :
    Exec.Leaves (fun e : Endpoint => sendHalf e.session) (Crypto.recv P o size) := by
  intro e
  have hends := Crypto.recv_cases P o size e
  generalize (Crypto.recv P o size).run e = r at hends ⊢
  cases hends with
  | unread hb => rfl
  | @rejected hb x s hx =>
    have hheld := Crypto.receivePacket_held.of_error hx
    simp only [Crypto.held, Prod.mk.injEq] at hheld
    simp only [sendHalf, Exec.endState_error, hheld]
  | accepted hb he hin hseq => rfl
  | wrapped hb he hin hseq => rfl

/-- The sending side does not notice a `recv`. -/
theorem SendSide.recv (h : SendSide P o authKey t calls) (hopen : t.closed = false) (size : ℕ) :
    SendSide P o authKey (step P o t (.recv size)).1
      (calls ++ (step P o t (.recv size)).2) := by
  have hhalf := recv_sendHalf (P := P) (o := o) size t.endpoint
  simp only [sendHalf, Prod.mk.injEq] at hhalf
  obtain ⟨hkey, hseq, -, hsent, -, -⟩ := hhalf
  simp only [step, hopen, Bool.false_eq_true, if_false]
  refine h.of_eq hkey hseq hsent (fun _ => hopen) fun hover => ?_
  rcases sendOverflow_snoc.mp hover with hover | ⟨_, _, hc⟩
  · exact hover
  · cases hc

/-! ### Runs of an end -/

/-- The call threw. -/
def Call.Threw : Call → Prop
  | .send _ result => ∃ x, result = .error x
  | .recv _ result => ∃ x, result = .error x

/-- Both sides of an end. -/
structure Disciplined (P : Primitives) (o : ByteOrder) (authKey : Tag) (t : Station)
    (calls : List Call) : Prop where
  sending : SendSide P o authKey t calls
  receiving : RecvSide P o t calls
  closed : t.closed = true → ∃ c ∈ calls, c.Threw

theorem Disciplined.new (k : SessionKeys) (conn : Connection) :
    Disciplined P o k.authKey (new k conn) [] :=
  ⟨.new k conn, .new k conn, fun h => by cases h⟩

theorem exists_threw {c : Call} (h : c.Threw) : ∃ d ∈ calls ++ [c], d.Threw :=
  ⟨c, List.mem_append_right _ (List.mem_singleton_self c), h⟩

theorem error_of_threw {α σ : Type} {r : EStateM.Result Ex σ α} (h : Exec.threw r = true) :
    ∃ x, Exec.outcome r = .error x := by
  cases r with
  | ok a s => cases h
  | error x s => exact ⟨x, rfl⟩

/-- The state of the socket plays no role. -/
theorem Disciplined.conn (h : Disciplined P o authKey t calls) (c : Connection) :
    Disciplined P o authKey
      ⟨{ t.endpoint with session := { t.session with conn := c } }, t.closed⟩ calls :=
  ⟨h.sending.of_eq rfl rfl rfl id id, h.receiving.of_eq rfl rfl rfl rfl rfl id Iff.rfl rfl,
    h.closed⟩

/-- **One event.** -/
theorem Disciplined.step (h : Disciplined P o authKey t calls) (e : Event) :
    Disciplined P o authKey (step P o t e).1 (calls ++ (step P o t e).2) := by
  cases e with
  | arrive bs =>
    refine ⟨?_, ?_, ?_⟩
    · exact h.sending.of_eq rfl rfl rfl id (by simp [Station.step])
    · exact h.receiving.of_eq rfl rfl rfl rfl rfl id (by simp [Station.step])
        (by simp [Station.step])
    · simpa only [Station.step, List.append_nil] using h.closed
  | send plaintext =>
    cases hopen : t.closed with
    | true => simpa only [Station.step, hopen, if_true, List.append_nil] using h
    | false =>
      refine ⟨h.sending.send hopen plaintext, h.receiving.send hopen plaintext, ?_⟩
      simp only [Station.step, hopen, Bool.false_eq_true, if_false]
      exact fun hc => exists_threw (error_of_threw hc)
  | recv size =>
    cases hopen : t.closed with
    | true => simpa only [Station.step, hopen, if_true, List.append_nil] using h
    | false =>
      refine ⟨h.sending.recv hopen size, h.receiving.recv hopen size, ?_⟩
      simp only [Station.step, hopen, Bool.false_eq_true, if_false]
      exact fun hc => exists_threw (error_of_threw hc)

/-- **Every run of an end is disciplined**, whatever arrives and whatever its socket takes. -/
theorem disciplined_run (k : SessionKeys) (conn : Connection) (es : List Event) :
    Disciplined P o k.authKey (Machine.run (step P o) (new k conn) es).1
      (Machine.run (step P o) (new k conn) es).2 :=
  Machine.invariant_trace (J := Disciplined P o k.authKey)
    (fun _ _ e h (_ : True) => h.step e) (Disciplined.new k conn) (Machine.meets_true es)

/-- Not thrown, or thrown because the numbers have ended. -/
def Call.Regular : Call → Prop
  | .send _ result => ∀ x, result = .error x → ∃ m, x = .exSeqNumOverflow m
  | .recv _ result => ∀ x, result = .error x → ∃ m, x = .exSeqNumOverflow m

theorem overflow_of_threw (h : ∃ c ∈ calls, c.Threw) (hregular : ∀ c ∈ calls, c.Regular) :
    RecvOverflow calls ∨ SendOverflow calls := by
  obtain ⟨c, hc, hthrew⟩ := h
  have hreg := hregular c hc
  cases c with
  | send plaintext result =>
    obtain ⟨x, rfl⟩ := hthrew
    obtain ⟨m, rfl⟩ := hreg x rfl
    exact .inr ⟨plaintext, m, hc⟩
  | recv size result =>
    obtain ⟨x, rfl⟩ := hthrew
    obtain ⟨m, rfl⟩ := hreg x rfl
    exact .inl ⟨size, m, hc⟩

end Station

end Cybrg
