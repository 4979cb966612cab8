import Cybrg.Sessions.ByteStream
import Cybrg.Sessions.Discipline

/-!
# The sequence numbers of a session

Two honest ends in processes of their own, what one hands over arriving at the other, each up to
the first exception of its object:

* `Pair.step` — a call at either end;
* `Pair.Way` — what the receiver has accepted are the first packets of the sender, and what it has
  decrypted are their plaintexts;
* `sequence_discipline` — the numbers of one end under any network, and of two honest ends.
-/

namespace Cybrg

open Octets

/-! ### Two honest ends -/

/-- The two ends of a session. -/
structure Pair where
  ends : Side → Station

namespace Pair

open Station (Call)

inductive Event where
  | send (side : Side) (plaintext : Bytes)
  | recv (side : Side) (size : ℕ)

def set (x : Pair) (side : Side) (t : Station) : Pair where
  ends i := if i = side then t else x.ends i

/-- What `side` has handed over arrives at the other end. -/
def transfer (x : Pair) (side : Side) : Pair where
  ends i :=
    if i = side then
      { x.ends i with endpoint := { (x.ends i).endpoint with
        session := { (x.ends i).session with conn := (x.ends i).session.conn.taken } } }
    else { x.ends i with
      endpoint := (x.ends i).endpoint.deliver (x.ends side).session.conn.outgoing }

/-- One event, and the calls that came back.  A `recv` for which nothing is there yet waits. -/
def step (P : Primitives) (os : Side → ByteOrder) (x : Pair) : Event → Pair × List (Side × Call)
  | .send side plaintext =>
      if (x.ends side).closed then (x, []) else
        let r := (x.ends side).step P (os side) (.send plaintext)
        ((x.set side r.1).transfer side, r.2.map (side, ·))
  | .recv side size =>
      if (x.ends side).endpoint.buf.remaining = 0 ∧ (x.ends side).session.conn.incoming = [] then
        (x, [])
      else
        let r := (x.ends side).step P (os side) (.recv size)
        (x.set side r.1, r.2.map (side, ·))

/-- Two fresh objects, built from the same keys, on a connection that takes everything. -/
def new (k : SessionKeys) : Pair where
  ends _ := Station.new k

abbrev run (P : Primitives) (os : Side → ByteOrder) (k : SessionKeys) (es : List Event) :
    Pair × List (Side × Call) :=
  Machine.run (step P os) (new k) es

/-- A payload of between one byte and `BUFFER_SIZE` bytes. -/
def Event.Valid : Event → Prop
  | .send _ plaintext => 1 ≤ plaintext.length ∧ plaintext.length ≤ bufferSize
  | .recv _ _ => True

/-- The calls at one end. -/
def callsAt (side : Side) (out : List (Side × Call)) : List Call :=
  out.filterMap fun c => if c.1 = side then some c.2 else none

theorem callsAt_append (side : Side) (out out' : List (Side × Call)) :
    callsAt side (out ++ out') = callsAt side out ++ callsAt side out' := by
  simp [callsAt]

theorem callsAt_self (side : Side) (calls : List Call) :
    callsAt side (calls.map (side, ·)) = calls := by
  simp [callsAt, List.filterMap_map]

theorem callsAt_other (side : Side) (calls : List Call) :
    callsAt side.other (calls.map (side, ·)) = [] := by
  simp [callsAt, List.filterMap_map, (Side.other_ne side).symm]

/-! ### What is on the way -/

variable {P : Primitives} {o : ByteOrder} {authKey : Tag}

/-- The way from an end `a` to an end `b`: what `b` has accepted are the first packets of `a`, and
while `b` is open the others are on the way to it. -/
structure Way (P : Primitives) (o : ByteOrder) (authKey : Tag) (a b : Station) (sent : List Bytes)
    (got : Bytes) : Prop where
  packets : b.accepted.map (·.packet) <+: a.sent
  plaintexts : b.accepted.map (·.plaintext) <+: sent
  line : b.closed = false → ∃ ts j, Duplex.Direction P o authKey a.session b.endpoint sent got ts j
    ∧ a.sent = b.accepted.map (·.packet) ++ Crypto.onTheWay P o authKey b.session.crypto.ctxD j ts
    ∧ sent = b.accepted.map (·.plaintext) ++ ts

variable {a b : Station} {sent : List Bytes} {got : Bytes}

theorem Way.new (k : SessionKeys) :
    Way P o k.authKey (Station.new k) (Station.new k) [] [] :=
  ⟨List.prefix_refl _, List.prefix_refl _, fun _ => ⟨[], 0, .new k, rfl, rfl⟩⟩

/-- What the way depends on: at one end the sending half, at the other the receiving half. -/
theorem Way.of_eq (h : Way P o authKey a b sent got) {a' b' : Station} (hsent : a'.sent = a.sent)
    (hacc : b'.accepted = b.accepted) (hopen : b'.closed = false → b.closed = false)
    (hdir : b'.closed = false → ∀ {ts j},
      Duplex.Direction P o authKey a.session b.endpoint sent got ts j →
      Duplex.Direction P o authKey a'.session b'.endpoint sent got ts j)
    (hctx : b'.closed = false → b'.session.crypto.ctxD = b.session.crypto.ctxD) :
    Way P o authKey a' b' sent got := by
  refine ⟨?_, ?_, fun hc => ?_⟩
  · rw [hsent, hacc]
    exact h.packets
  · rw [hacc]
    exact h.plaintexts
  · obtain ⟨ts, j, hd, hpackets, hplain⟩ := h.line (hopen hc)
    refine ⟨ts, j, hdir hc hd, ?_, ?_⟩
    · rw [hsent, hacc, hctx hc]
      exact hpackets
    · rw [hacc]
      exact hplain

/-- **A packet goes in** at one end and is on the way to the other. -/
theorem Way.send (h : Way P o authKey a b sent got) {plaintext : Bytes} (hne : plaintext ≠ [])
    (hle : plaintext.length ≤ bufferSize) {a' : Station}
    (ha : a'.session = Crypto.sealed P o a.session plaintext) :
    Way P o authKey a'
      ⟨b.endpoint.deliver (Crypto.packetOf P o a.session.crypto plaintext).wire, b.closed⟩
      (sent ++ [plaintext]) got := by
  have hsent : a'.sent = a.sent ++ [Crypto.packetOf P o a.session.crypto plaintext] := by
    rw [Station.sent, ha]
    rfl
  refine ⟨?_, ?_, fun hc => ?_⟩
  · rw [hsent]
    exact h.packets.trans (List.prefix_append _ _)
  · exact h.plaintexts.trans (List.prefix_append _ _)
  · obtain ⟨ts, j, hd, hpackets, hplain⟩ := h.line hc
    refine ⟨ts ++ [plaintext], j, ha ▸ hd.send hne hle, ?_, ?_⟩
    · rw [hsent, hpackets, List.append_assoc]
      refine congrArg _ ?_
      show _ = Crypto.onTheWay P o authKey b.session.crypto.ctxD j (ts ++ [plaintext])
      rw [Crypto.onTheWay_append, Crypto.packetOf, hd.keySender, hd.nextOut, hd.context]
      rfl
    · rw [hplain, List.append_assoc]
      rfl

/-- **A packet comes out**: it is the first of those on the way. -/
theorem Way.accept (h : Way P o authKey a b sent got) (hopen : b.closed = false)
    (hb : b.endpoint.buf.remaining = 0) {o' : ByteOrder} {p : Packet} {rest : Bytes}
    (he : Crypto.Expected P o' b.session.crypto.authKey b.session.crypto.sequenceNumberI p)
    (hin : b.session.conn.incoming = p.wire ++ rest) {d : Station}
    (hsession : d.session = (Crypto.accept P o' b.endpoint p rest).session) :
    d.accepted.map (·.packet) <+: a.sent ∧ d.accepted.map (·.plaintext) <+: sent ∧
      ∃ ts j, Duplex.Direction P o authKey a.session (Crypto.accept P o' b.endpoint p rest) sent
          got ts j ∧
        a.sent = d.accepted.map (·.packet)
          ++ Crypto.onTheWay P o authKey d.session.crypto.ctxD j ts ∧
        sent = d.accepted.map (·.plaintext) ++ ts := by
  obtain ⟨ts, j, hd, hpackets, hplain⟩ := h.line hopen
  obtain ⟨t, us, rfl, hp, hdec, hrest⟩ := hd.cut hin he.size
  have htext : Crypto.plaintextOf P b.session.crypto p = t := congrArg Prod.fst hdec
  have hctx : (b.session.crypto.decrypt P p.payload).2.ctxD
      = (b.session.crypto.ctxD.encryptUpdate P t).2 := congrArg (fun x => x.2.ctxD) hdec
  have hacc : d.accepted = b.accepted ++ [Accepted.mk p t] := by
    rw [Station.accepted, hsession, ← htext]
    rfl
  have hnow : d.session.crypto.ctxD = (b.session.crypto.ctxD.encryptUpdate P t).2 := by
    rw [hsession, ← hctx]
    rfl
  have hsent : a.sent = d.accepted.map (·.packet)
      ++ Crypto.onTheWay P o authKey d.session.crypto.ctxD (j + 1) us := by
    rw [hpackets, hacc, hnow, Crypto.onTheWay, ← hp, List.map_append, List.append_assoc]
    rfl
  have hrestText : sent = d.accepted.map (·.plaintext) ++ us := by
    rw [hplain, hacc, List.map_append, List.append_assoc]
    rfl
  refine ⟨⟨_, hsent.symm⟩, ⟨_, hrestText.symm⟩, us, j + 1, ?_, hsent, hrestText⟩
  exact (hd.accept hb hdec hrest).of_eq rfl rfl rfl rfl rfl rfl rfl rfl rfl rfl

/-- **A `recv` at the far end** keeps the way.  Between hosts of the same byte order it throws only
when the numbers have ended. -/
theorem Way.recv (h : Way P o authKey a b sent got) (hopen : b.closed = false) (o' : ByteOrder)
    (size : ℕ)
    (hready : ¬ (b.endpoint.buf.remaining = 0 ∧ b.session.conn.incoming = [])) :
    Way P o authKey a (b.step P o' (.recv size)).1 sent
        (got ++ Station.returned (b.step P o' (.recv size)).2) ∧
      (o' = o → ∀ c ∈ (b.step P o' (.recv size)).2, c.Regular) := by
  have hends := Crypto.recv_cases P o' size b.endpoint
  have hone : ∀ result, Station.returned [.recv size result] = returnedBytes result := fun result =>
    List.append_nil _
  simp only [Station.step, hopen, Bool.false_eq_true, if_false, List.mem_singleton, forall_eq, hone]
  generalize (Crypto.recv P o' size).run b.endpoint = r at hends ⊢
  cases hends with
  | unread hb =>
    refine ⟨⟨h.packets, h.plaintexts, fun _ => ?_⟩, fun _ x hx => by cases hx⟩
    obtain ⟨ts, j, hd, hpackets, hplain⟩ := h.line hopen
    exact ⟨ts, j, hd.take size, hpackets, hplain⟩
  | @rejected hb x s hx =>
    have hheld := Crypto.receivePacket_held.of_error hx
    simp only [Crypto.held, Prod.mk.injEq] at hheld
    have hacc : s.hist.accepted = b.accepted := hheld.2.2.2.2.2.1
    refine ⟨⟨?_, ?_, fun hc => absurd hc (by simp)⟩, ?_⟩
    · change s.hist.accepted.map (·.packet) <+: _
      rw [hacc]
      exact h.packets
    · change s.hist.accepted.map (·.plaintext) <+: _
      rw [hacc]
      exact h.plaintexts
    · -- the packet that is there meets the expectations of the same host
      rintro rfl
      obtain ⟨ts, j, hd, -, -⟩ := h.line hopen
      cases ts with
      | nil => exact absurd ⟨hb, hd.stream⟩ hready
      | cons t ts =>
        obtain ⟨p, rest, -, hin, hexp, -, -⟩ := hd.first
        rw [Crypto.receivePacket_of_expected hexp hin] at hx
        cases hx
  | @accepted hb p rest he hin hseq =>
    obtain ⟨hpackets, hplain, ts, j, hd, hline⟩ := h.accept hopen hb he hin
      (d := ⟨{ Crypto.accept P o' b.endpoint p rest with
        buf := (Crypto.accept P o' b.endpoint p rest).buf.advance size }, false⟩) rfl
    refine ⟨⟨hpackets, hplain, fun _ => ⟨ts, j, ?_, hline⟩⟩, fun _ x hx => by cases hx⟩
    have hout := hd.take size
    rwa [Crypto.accept, RecvBuffer.unread_fill] at hout
  | @wrapped hb p rest he hin hseq =>
    obtain ⟨hpackets, hplain, -⟩ := h.accept hopen hb he hin
      (d := ⟨Crypto.accept P o' b.endpoint p rest, true⟩) rfl
    exact ⟨⟨hpackets, hplain, fun hc => absurd hc (by simp)⟩,
      fun _ x hx => ⟨_, (Except.error.inj hx).symm⟩⟩

/-! ### Runs of two honest ends -/

variable {os : Side → ByteOrder}

/-- What holds of two honest ends after every run. -/
structure Inv (P : Primitives) (os : Side → ByteOrder) (authKey : Tag) (x : Pair)
    (out : List (Side × Call)) : Prop where
  disciplined : ∀ side,
    Station.Disciplined P (os side) authKey (x.ends side) (callsAt side out)
  way : ∀ side, Way P (os side) authKey (x.ends side) (x.ends side.other)
    (Station.plaintexts (callsAt side out)) (Station.returned (callsAt side.other out))
  lossless : ∀ side, (x.ends side).session.conn.sendRets = []
  handedOver : ∀ side, (x.ends side).session.conn.outgoing = []
  overflow : ∀ side, (x.ends side).sent.length = 2 ^ 31 →
    Station.SendOverflow (callsAt side out)
  regular : os .client = os .server → ∀ c ∈ out, c.2.Regular

theorem Inv.new (k : SessionKeys) : Inv P os k.authKey (new k) [] :=
  ⟨fun _ => .new k {}, fun _ => .new k, fun _ => rfl, fun _ => rfl,
    fun _ h => absurd h (Nat.two_pow_pos 31).ne, fun _ _ hc => absurd hc List.not_mem_nil⟩

/-! ### Events -/

/-- A call at `side`, which leaves the ends `t` and `u`. -/
structure Called (y : Pair × List (Side × Call)) (side : Side) (t u : Station) (call : Call) : Prop where
  self : y.1.ends side = t
  other : y.1.ends side.other = u
  calls : y.2 = [(side, call)]

theorem Called.callsAt_self {y : Pair × List (Side × Call)} {side : Side} {t u : Station} {call : Call}
    (h : Called y side t u call) (out : List (Side × Call)) :
    callsAt side (out ++ y.2) = callsAt side out ++ [call] := by
  rw [callsAt_append, h.calls]
  exact congrArg _ (Pair.callsAt_self side [call])

theorem Called.callsAt_other {y : Pair × List (Side × Call)} {side : Side} {t u : Station} {call : Call}
    (h : Called y side t u call) (out : List (Side × Call)) :
    callsAt side.other (out ++ y.2) = callsAt side.other out := by
  rw [callsAt_append, h.calls]
  exact (congrArg _ (Pair.callsAt_other side [call])).trans (List.append_nil _)

/-- What an end has handed over is taken from it, and it is delivered to the other one. -/
theorem step_send {x : Pair} {side : Side} (hopen : (x.ends side).closed = false) {plaintext : Bytes}
    {t : Station} {call : Call}
    (hstep : (x.ends side).step P (os side) (.send plaintext) = (t, [call])) :
    Called (step P os x (.send side plaintext)) side
      { t with endpoint := { t.endpoint with
        session := { t.session with conn := t.session.conn.taken } } }
      { x.ends side.other with
        endpoint := (x.ends side.other).endpoint.deliver t.session.conn.outgoing } call := by
  refine ⟨?_, ?_, ?_⟩ <;>
    simp only [step, hopen, Bool.false_eq_true, if_false, hstep, transfer, set, if_true,
      Side.other_ne, List.map_cons, List.map_nil]

theorem step_recv {x : Pair} {side : Side} {size : ℕ}
    (hready : ¬ ((x.ends side).endpoint.buf.remaining = 0 ∧
      (x.ends side).session.conn.incoming = []))
    {t : Station} {call : Call} (hstep : (x.ends side).step P (os side) (.recv size) = (t, [call])) :
    Called (step P os x (.recv side size)) side t (x.ends side.other) call := by
  refine ⟨?_, ?_, ?_⟩ <;>
    simp only [step, if_neg hready, hstep, set, if_true, Side.other_ne, if_false, List.map_cons,
      List.map_nil]

theorem closed_cases (t : Station) : t.closed = true ∨ t.closed = false := by
  cases t.closed <;> simp

/-- A `send` at an open end with a socket that takes everything. -/
theorem send_lossless {t : Station} (hopen : t.closed = false)
    (hr : t.session.conn.sendRets = []) {plaintext : Bytes} (hne : plaintext ≠ []) :
    ∃ result closed, t.step P o (.send plaintext) = (⟨{ t.endpoint with session :=
        { Crypto.sealed P o t.session plaintext with
          conn := t.session.conn.put (Crypto.packetOf P o t.session.crypto plaintext).wire } },
        closed⟩, [.send plaintext result]) ∧
      (Call.send plaintext result).Regular ∧
      (t.session.crypto.sequenceNumberO + 1 + 1 = 0 →
        ∃ m, result = .error (.exSeqNumOverflow m)) := by
  obtain ⟨n, hrun⟩ := Crypto.send_lossless_run (P := P) (o := o) hr hne
  simp only [Station.step, hopen, Bool.false_eq_true, if_false, hrun]
  split
  · rename_i hseq
    refine ⟨.ok n, false, rfl, ?_, fun h0 => absurd h0 hseq⟩
    intro x hx
    cases hx
  · refine ⟨.error _, true, rfl, ?_, fun _ => ⟨_, rfl⟩⟩
    intro x hx
    cases hx
    exact ⟨_, rfl⟩

/-- **A `send`** keeps the invariant. -/
theorem Inv.send {x : Pair} {out : List (Side × Call)} (h : Inv P os authKey x out) {side : Side}
    {plaintext : Bytes} (hv : (Event.send side plaintext).Valid) :
    Inv P os authKey (step P os x (.send side plaintext)).1
      (out ++ (step P os x (.send side plaintext)).2) := by
  rcases closed_cases (x.ends side) with hclosed | hopen
  · simpa only [step, hclosed, if_true, List.append_nil] using h
  obtain ⟨hpos, hle⟩ := hv
  have hne : plaintext ≠ [] := List.ne_nil_of_length_pos hpos
  obtain ⟨result, closed, hstep, hregular, hwrap⟩ :=
    send_lossless (P := P) (o := os side) hopen (h.lossless side) hne
  have hmine := (h.disciplined side).step (.send plaintext)
  rw [hstep] at hmine
  have hyours := (h.disciplined side.other).step
    (.arrive (Crypto.packetOf P (os side) (x.ends side).session.crypto plaintext).wire)
  have hcalled := step_send hopen hstep
  generalize step P os x (.send side plaintext) = y at hcalled ⊢
  have hself : y.1.ends side = ⟨{ (x.ends side).endpoint with
      session := Crypto.sealed P (os side) (x.ends side).session plaintext }, closed⟩ := by
    rw [hcalled.self]
    dsimp only
    rw [Connection.taken_put (h.handedOver side)]
    rfl
  have hother : y.1.ends side.other = ⟨(x.ends side.other).endpoint.deliver
      (Crypto.packetOf P (os side) (x.ends side).session.crypto plaintext).wire,
      (x.ends side.other).closed⟩ := by
    rw [hcalled.other]
    dsimp only
    rw [Connection.put_outgoing (h.handedOver side)]
  have hat := hcalled.callsAt_self out
  have hatOther := hcalled.callsAt_other out
  have hsent : (y.1.ends side).sent.length = (x.ends side).sent.length + 1 := by
    rw [hself]
    simp [Station.sent, Crypto.sealed]
  have hkept : ∀ i, (y.1.ends i).session.conn.sendRets = [] ∧
      (y.1.ends i).session.conn.outgoing = [] := by
    intro i
    rcases Side.eq_or_other i side with rfl | rfl
    · rw [hself]
      exact ⟨h.lossless i, h.handedOver i⟩
    · rw [hother]
      exact ⟨h.lossless side.other, h.handedOver side.other⟩
  refine ⟨fun i => ?_, fun i => ?_, fun i => (hkept i).1, fun i => (hkept i).2, fun i => ?_, ?_⟩
  · rcases Side.eq_or_other i side with rfl | rfl
    · rw [hat, hself]
      exact hmine.conn (x.ends i).session.conn
    · rw [hatOther, hother]
      exact (List.append_nil (callsAt side.other out)) ▸ hyours
  · rcases Side.eq_or_other i side with rfl | rfl
    · rw [hat, hatOther, Station.plaintexts_append, hself, hother]
      exact (h.way i).send hne hle rfl
    · -- the other direction does not notice
      rw [hatOther, Side.other_other, hat, Station.returned_append,
        show Station.returned [.send plaintext result] = [] from rfl, List.append_nil, hself, hother]
      have hback := h.way side.other
      rw [Side.other_other] at hback
      refine hback.of_eq rfl rfl (fun _ => hopen) (fun _ _ _ hd => ?_) fun _ => rfl
      exact hd.of_eq rfl rfl rfl rfl rfl rfl rfl rfl rfl rfl
  · rcases Side.eq_or_other i side with rfl | rfl
    · intro hfull
      have hnext := (h.disciplined i).sending.numbered.next
      have hzero := counter_eq_zero_iff (Nat.succ_pos (x.ends i).sent.length)
        ((h.disciplined i).sending.countOpen hopen)
      rw [hsent, ← Nat.succ_eq_add_one, ← hzero, Nat.succ_eq_add_one, ← counter_succ] at hfull
      rw [hat, Station.sendOverflow_snoc]
      obtain ⟨m, rfl⟩ := hwrap (by rw [hnext]; exact hfull)
      exact .inr ⟨_, m, rfl⟩
    · rw [hatOther, hother]
      exact h.overflow side.other
  · intro hos c hc
    rcases List.mem_append.mp hc with hc | hc
    · exact h.regular hos c hc
    · rw [hcalled.calls, List.mem_singleton] at hc
      rw [hc]
      exact hregular

/-- **A `recv`** keeps the invariant. -/
theorem Inv.recv {x : Pair} {out : List (Side × Call)} (h : Inv P os authKey x out) (side : Side)
    (size : ℕ) :
    Inv P os authKey (step P os x (.recv side size)).1
      (out ++ (step P os x (.recv side size)).2) := by
  by_cases hready : (x.ends side).endpoint.buf.remaining = 0 ∧
      (x.ends side).session.conn.incoming = []
  · simpa only [step, if_pos hready, List.append_nil] using h
  rcases closed_cases (x.ends side) with hclosed | hopen
  · -- a closed end stays as it is
    have hsame : x.set side (x.ends side) = x := by
      cases x
      simp only [set, Pair.mk.injEq]
      funext i
      split
      · rename_i hi
        rw [hi]
      · rfl
    simpa only [step, if_neg hready, Station.step, hclosed, if_true, List.map_nil,
      List.append_nil, hsame] using h
  have hmine := (h.disciplined side).step (.recv size)
  have hway := h.way side.other
  rw [Side.other_other] at hway
  obtain ⟨hway, hregular⟩ := hway.recv hopen (os side) size hready
  have hhalf := Station.recv_sendHalf (P := P) (o := os side) size (x.ends side).endpoint
  have hstep : (x.ends side).step P (os side) (.recv size)
      = (⟨Exec.endState ((Crypto.recv P (os side) size).run (x.ends side).endpoint),
          Exec.threw ((Crypto.recv P (os side) size).run (x.ends side).endpoint)⟩,
        [.recv size (Exec.outcome ((Crypto.recv P (os side) size).run (x.ends side).endpoint))]) := by
    simp only [Station.step, hopen, Bool.false_eq_true, if_false]
  generalize (Crypto.recv P (os side) size).run (x.ends side).endpoint = r at hhalf hstep
  simp only [Station.sendHalf, Prod.mk.injEq] at hhalf
  obtain ⟨hkey, hseq, hctx, hsent, hrets, hout⟩ := hhalf
  have hcalled := step_recv hready hstep
  generalize step P os x (.recv side size) = y at hcalled ⊢
  have hself := hcalled.self
  have hother := hcalled.other
  have hat := hcalled.callsAt_self out
  have hatOther := hcalled.callsAt_other out
  rw [hstep] at hmine hway hregular
  refine ⟨fun i => ?_, fun i => ?_, fun i => ?_, fun i => ?_, fun i => ?_, ?_⟩
  · rcases Side.eq_or_other i side with rfl | rfl
    · rw [hat, hself]
      exact hmine
    · rw [hatOther, hother]
      exact h.disciplined side.other
  · rcases Side.eq_or_other i side with rfl | rfl
    · -- what this end has sent is not touched
      rw [hat, hatOther, Station.plaintexts_append,
        show Station.plaintexts [.recv size (Exec.outcome r)] = [] from rfl, List.append_nil, hself,
        hother]
      refine (h.way i).of_eq hsent rfl id (fun _ _ _ hd => ?_) fun _ => rfl
      exact hd.of_eq hkey hseq hctx hrets hout rfl rfl rfl rfl rfl
    · rw [hatOther, Side.other_other, hat, Station.returned_append, hself, hother]
      exact hway
  · rcases Side.eq_or_other i side with rfl | rfl
    · rw [hself]
      exact hrets.trans (h.lossless i)
    · rw [hother]
      exact h.lossless side.other
  · rcases Side.eq_or_other i side with rfl | rfl
    · rw [hself]
      exact hout.trans (h.handedOver i)
    · rw [hother]
      exact h.handedOver side.other
  · rcases Side.eq_or_other i side with rfl | rfl
    · rw [hat, hself, Station.sendOverflow_snoc]
      intro hfull
      exact .inl (h.overflow i ((congrArg List.length hsent).symm.trans hfull))
    · rw [hatOther, hother]
      exact h.overflow side.other
  · intro hos c hc
    rcases List.mem_append.mp hc with hc | hc
    · exact h.regular hos c hc
    · rw [hcalled.calls, List.mem_singleton] at hc
      rw [hc]
      have hsame : os side = os side.other := by
        cases side
        · exact hos
        · exact hos.symm
      exact hregular hsame _ (List.mem_singleton_self _)

/-- **Every run of two honest ends keeps the invariant.** -/
theorem inv_run (k : SessionKeys) {es : List Event} (hvalid : ∀ e ∈ es, e.Valid) :
    Inv P os k.authKey (run P os k es).1 (run P os k es).2 := by
  refine Machine.invariant_trace (J := Inv P os k.authKey) ?_ (Inv.new k)
    (Machine.meets_of_forall hvalid)
  intro x out e h hv
  cases e with
  | send side plaintext => exact h.send hv
  | recv side size => exact h.recv side size

/-- A packet on its way is read by an open end. -/
theorem Way.drained {a b : Station} {sent : List Bytes} {got : Bytes}
    (h : Way P o authKey a b sent got) (hopen : b.closed = false)
    (hdrained : b.session.conn.incoming = []) : a.sent.length = b.accepted.length := by
  obtain ⟨ts, j, hd, hpackets, -⟩ := h.line hopen
  have hnil := Crypto.flight_eq_nil (hd.stream.symm.trans hdrained)
  rw [hpackets, hnil]
  simp [Crypto.onTheWay]

end Pair

/-! ### The discipline -/

/-- **The sequence numbers of a session.**  Up to its first exception an end, whatever its network
does, builds packets and accepts headers with the numbers `0, 1, 2, ...` in order, and throws
`ExSeqNumOverflow` only at its packet with index `2 ^ 31 - 1`; by then `recv` has returned the
plaintext of all packets before it.  Two honest ends throw it at the same packet. -/
theorem sequence_discipline (P : Primitives) (k : SessionKeys) :
    (∀ (o : ByteOrder) (conn : Connection) (es : List Station.Event),
      let t := (Machine.run (Station.step P o) (Station.new k conn) es).1
      let calls := (Machine.run (Station.step P o) (Station.new k conn) es).2
      (∀ i p, t.sent[i]? = some p →
        p.rocket.sequenceNumber.toNat = 2 * i ∧ p.spacecraft.sequenceNumber.toNat = 2 * i + 1) ∧
      (t.sent.flatMap Packet.numbers).Nodup ∧
      (∀ n bs, t.headers[n]? = some bs → n < 2 ^ 32 ∧ HeaderInput o n bs) ∧
      (∀ i a, t.accepted[i]? = some a → a.packet.rocket.sequenceNumber.toNat = 2 * i ∧
        a.packet.spacecraft.sequenceNumber.toNat = 2 * i + 1) ∧
      (Station.SendOverflow calls → t.sent.length = 2 ^ 31) ∧
      (t.sent.length = 2 ^ 31 → t.closed = true) ∧
      (Station.RecvOverflow calls ↔ t.accepted.length = 2 ^ 31) ∧
      (Station.RecvOverflow calls → Station.returned calls
        = (t.accepted.take (2 ^ 31 - 1)).flatMap (·.plaintext))) ∧
    ∀ (os : Side → ByteOrder) (es : List Pair.Event), (∀ e ∈ es, e.Valid) → ∀ side : Side,
      let a := (Pair.run P os k es).1.ends side
      let b := (Pair.run P os k es).1.ends side.other
      let callsA := Pair.callsAt side (Pair.run P os k es).2
      let callsB := Pair.callsAt side.other (Pair.run P os k es).2
      b.accepted.map (·.packet) <+: a.sent ∧
      (Station.SendOverflow callsA ↔ a.sent.length = 2 ^ 31) ∧
      (Station.RecvOverflow callsB → Station.SendOverflow callsA ∧
        Station.returned callsB = ((Station.plaintexts callsA).take (2 ^ 31 - 1)).flatten) ∧
      (os .client = os .server →
        (∀ c ∈ callsB, c.Regular) ∧
        (Station.SendOverflow callsA → b.session.conn.incoming = [] →
          Station.RecvOverflow callsB ∨ Station.SendOverflow callsB)) := by
  refine ⟨fun o conn es => ?_, fun os es hvalid side => ?_⟩
  · obtain ⟨hs, hr, -⟩ := Station.disciplined_run (P := P) (o := o) k conn es
    generalize Machine.run (Station.step P o) (Station.new k conn) es = r at hs hr
    have hplaced : Station.Placed (fun i p => Packet.numbers p = [counter i, counter i + 1])
        r.1.sent := by
      intro i p hp
      rw [hs.numbered.packet i p hp]
      rfl
    refine ⟨fun i p hp => ?_, Station.numbers_nodup hplaced hs.count, fun n bs hbs => ?_,
      fun i a ha => ?_, hs.overflow, fun hfull => ?_, hr.overflow, fun hover => ?_⟩
    · have hi := (List.getElem?_eq_some_iff.mp hp).1
      exact Station.toNat_numbers (lt_of_lt_of_le hi hs.count) (hplaced i p hp)
    · have hn := (List.getElem?_eq_some_iff.mp hbs).1
      exact ⟨lt_of_lt_of_le hn hr.headersCount, hr.headers n bs hbs⟩
    · have hi := (List.getElem?_eq_some_iff.mp ha).1
      exact Station.toNat_numbers (lt_of_lt_of_le hi hr.acceptedCount) (hr.accepted i a ha)
    · by_contra hopen
      exact (hs.countOpen (by simpa using hopen)).ne hfull
    · exact hr.deliveredEarlier (hr.overflow.mp hover)
  · have h : Pair.Inv P os k.authKey _ _ := Pair.inv_run k hvalid
    generalize Pair.run P os k es = r at h
    have hsend := (h.disciplined side).sending
    have hrecv := (h.disciplined side.other).receiving
    have hway := h.way side
    have hregular : os .client = os .server →
        ∀ c ∈ Pair.callsAt side.other r.2, c.Regular := by
      intro hos c hc
      obtain ⟨d, hd, hdc⟩ := List.mem_filterMap.mp hc
      split at hdc
      · cases hdc
        exact h.regular hos d hd
      · cases hdc
    refine ⟨hway.packets, ⟨hsend.overflow, h.overflow side⟩, fun hover => ⟨?_, ?_⟩,
      fun hos => ⟨hregular hos, fun hover hdrained => ?_⟩⟩
    · have hle := hway.packets.length_le
      rw [List.length_map, hrecv.overflow.mp hover] at hle
      exact h.overflow side (le_antisymm hsend.count hle)
    · have hfull := hrecv.overflow.mp hover
      rw [hrecv.deliveredEarlier hfull, List.flatMap_def]
      obtain ⟨us, hus⟩ := hway.plaintexts
      rw [← hus, List.take_append_of_le_length (by simp [hfull]), List.map_take]
    · rcases Pair.closed_cases (r.1.ends side.other) with hclosed | hopen
      · exact Station.overflow_of_threw ((h.disciplined side.other).closed hclosed) (hregular hos)
      · have hlen := hway.drained hopen hdrained
        have hlt := hrecv.acceptedOpen hopen
        have hfull := hsend.overflow hover
        omega

/-- A byte each way, and a read at each end. -/
def Pair.greeting : List Pair.Event :=
  [.send .client [1], .send .server [2, 3], .recv .server 1, .recv .client 2]

theorem sequence_discipline_greeting :
    (Pair.run .sample (fun _ => .little) (.sample 1) Pair.greeting).2.length = 4 ∧
      ∀ c ∈ Pair.callsAt .server (Pair.run .sample (fun _ => .little) (.sample 1) Pair.greeting).2,
        c.Regular := by
  have hvalid : ∀ e ∈ Pair.greeting, e.Valid := by
    simp [Pair.greeting, Pair.Event.Valid, bufferSize]
  exact ⟨by decide +kernel,
    (((sequence_discipline .sample (.sample 1)).2 _ _ hvalid .client).2.2.2 rfl).1⟩

end Cybrg
