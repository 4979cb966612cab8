import Cybrg.Library.Machine
import Cybrg.Sessions.Numbering

/-!
# The secure layer as a byte stream

Two honest ends, each in a process of its own, and a connection that delivers in order whatever
is handed to it.  What one end sends comes out at the other as one stream of bytes, in pieces
that have nothing to do with the pieces in which it was sent:

* `Duplex.step` — a call of `send` or of `recv` at either end; a `recv` that finds nothing waits;
* `flight` — the packets on the way, as a function of the plaintexts that are in them, the
  receiver's cipher context and its counter;
* `Duplex.Inv` — in either direction, what was returned, what is unread and what is on the way
  make up what was sent;
* `byte_stream_iff` — on hosts of the same byte order, and only on these, no call of an allowed
  run fails, every `recv` returns between one byte and as many as it was asked for, and the bytes
  it returns are a prefix of those sent, all of them once everything is read.
-/

namespace Cybrg

open Octets

/-! ### Two ends and a connection -/

/-- The two ends of a session, each in its own process. -/
structure Duplex where
  ends : Side → Endpoint

namespace Duplex

inductive Event where
  | send (side : Side) (plaintext : Bytes)
  | recv (side : Side) (size : ℕ)

/-- A call that came back, with what it gave its caller. -/
inductive Call where
  | send (side : Side) (result : Except Ex ℤ)
  | recv (side : Side) (size : ℕ) (result : Except Ex Bytes)
  deriving DecidableEq

def sess (x : Duplex) (side : Side) : Session := (x.ends side).session

/-- Replace one end. -/
def set (x : Duplex) (side : Side) (e : Endpoint) : Duplex where
  ends i := if i = side then e else x.ends i

/-- The connection: what `side` has handed over arrives at the other end. -/
def transfer (x : Duplex) (side : Side) : Duplex where
  ends i :=
    if i = side then
      { x.ends i with session := { x.sess i with conn := (x.sess i).conn.taken } }
    else (x.ends i).deliver (x.sess side).conn.outgoing

/-- One call.  A `recv` for which nothing is there yet waits, and has not come back. -/
def step (P : Primitives) (o : Side → ByteOrder) (x : Duplex) : Event → Duplex × List Call
  | .send side plaintext =>
      let r := (Crypto.send P (o side) plaintext).run (x.sess side)
      ((x.set side { x.ends side with session := Exec.endState r }).transfer side,
        [.send side (Exec.outcome r)])
  | .recv side size =>
      if (x.ends side).buf.remaining = 0 ∧ (x.sess side).conn.incoming = [] then (x, []) else
        let r := (Crypto.recv P (o side) size).run (x.ends side)
        (x.set side (Exec.endState r), [.recv side size (Exec.outcome r)])

/-- A fresh session over a connection that takes everything it is given. -/
def new (k : SessionKeys) : Duplex where
  ends _ := Endpoint.new k

abbrev run (P : Primitives) (o : Side → ByteOrder) (x : Duplex) (es : List Event) :
    Duplex × List Call :=
  Machine.run (step P o) x es

/-- A payload of between one byte and `BUFFER_SIZE` bytes, a read of at least one byte. -/
def Event.Valid : Event → Prop
  | .send _ plaintext => 1 ≤ plaintext.length ∧ plaintext.length ≤ bufferSize
  | .recv _ size => 1 ≤ size

/-- The plaintexts that an end sends. -/
def plaintexts (side : Side) (es : List Event) : List Bytes :=
  es.filterMap fun
    | .send s plaintext => if s = side then some plaintext else none
    | .recv _ _ => none

/-- The bytes that the calls of `recv` at an end returned. -/
def received (side : Side) (calls : List Call) : Bytes :=
  calls.flatMap fun
    | .recv s _ result => if s = side then returnedBytes result else []
    | .send _ _ => []

/-- A call that did what it should: a `send` came back normally, a `recv` with at least one byte
and at most as many as it was asked for. -/
def Call.Good : Call → Prop
  | .send _ result => ∃ n, result = .ok n
  | .recv _ size result => ∃ bs, result = .ok bs ∧ 1 ≤ bs.length ∧ bs.length ≤ size

/-- Nothing is left to read at an end. -/
def Drained (x : Duplex) (side : Side) : Prop :=
  (x.sess side).conn.incoming = [] ∧ (x.ends side).buf.remaining = 0

end Duplex

/-! ### Packets on the way -/

namespace Crypto

/-- The cipher context after the plaintexts `ts`. -/
def contextAfter (P : Primitives) (c : CipherCtx) : List Bytes → CipherCtx
  | [] => c
  | t :: ts => contextAfter P (c.encryptUpdate P t).2 ts

/-- The wire form of the packets from index `j` on that carry the plaintexts `ts`, encrypted from
the context `c`. -/
def flight (P : Primitives) (o : ByteOrder) (authKey : Tag) (c : CipherCtx) (j : ℕ) :
    List Bytes → Bytes
  | [] => []
  | t :: ts =>
      (packetAt P o authKey j (c.encryptUpdate P t).1).wire
        ++ flight P o authKey (c.encryptUpdate P t).2 (j + 1) ts

/-- The packets of such a flight. -/
def onTheWay (P : Primitives) (o : ByteOrder) (authKey : Tag) (c : CipherCtx) (j : ℕ) :
    List Bytes → List Packet
  | [] => []
  | t :: ts =>
      packetAt P o authKey j (c.encryptUpdate P t).1
        :: onTheWay P o authKey (c.encryptUpdate P t).2 (j + 1) ts

variable {P : Primitives} {o : ByteOrder} {authKey : Tag}

theorem contextAfter_append (c : CipherCtx) (ts : List Bytes) (t : Bytes) :
    contextAfter P c (ts ++ [t]) = ((contextAfter P c ts).encryptUpdate P t).2 := by
  induction ts generalizing c with
  | nil => rfl
  | cons s ts ih => exact ih _

theorem flight_eq (c : CipherCtx) (j : ℕ) (ts : List Bytes) :
    flight P o authKey c j ts = (onTheWay P o authKey c j ts).flatMap Packet.wire := by
  induction ts generalizing c j with
  | nil => rfl
  | cons t ts ih => rw [flight, onTheWay, List.flatMap_cons, ih]

/-- **One more packet** at the end of a flight. -/
theorem onTheWay_append (c : CipherCtx) (j : ℕ) (ts : List Bytes) (t : Bytes) :
    onTheWay P o authKey c j (ts ++ [t])
      = onTheWay P o authKey c j ts
        ++ [packetAt P o authKey (j + ts.length)
            ((contextAfter P c ts).encryptUpdate P t).1] := by
  induction ts generalizing c j with
  | nil => simp [onTheWay, contextAfter]
  | cons s ts ih =>
    simp only [List.cons_append, onTheWay, ih, contextAfter, List.length_cons]
    rw [show j + 1 + ts.length = j + (ts.length + 1) by omega]

theorem flight_append (c : CipherCtx) (j : ℕ) (ts : List Bytes) (t : Bytes) :
    flight P o authKey c j (ts ++ [t])
      = flight P o authKey c j ts
        ++ (packetAt P o authKey (j + ts.length)
            ((contextAfter P c ts).encryptUpdate P t).1).wire := by
  rw [flight_eq, flight_eq, onTheWay_append, List.flatMap_append, List.flatMap_singleton]

theorem flight_eq_nil {c : CipherCtx} {j : ℕ} {ts : List Bytes}
    (h : flight P o authKey c j ts = []) : ts = [] := by
  cases ts with
  | nil => rfl
  | cons t ts =>
    have hlen := congrArg List.length h
    simp [flight, Packet.wire, sizeofRocket] at hlen

end Crypto

/-! ### The invariant -/

namespace Duplex

variable {P : Primitives} {o : ByteOrder} {authKey : Tag}

/-- The direction from a session `a` to an endpoint `b`, after the plaintexts `sent` have gone in
and the bytes `got` have come out; the plaintexts `ts` are on the way, and `j` packets have
arrived. -/
structure Direction (P : Primitives) (o : ByteOrder) (authKey : Tag) (a : Session) (b : Endpoint)
    (sent : List Bytes) (got : Bytes) (ts : List Bytes) (j : ℕ) : Prop where
  keySender : a.crypto.authKey = authKey
  keyReceiver : b.session.crypto.authKey = authKey
  nextOut : a.crypto.sequenceNumberO = counter (j + ts.length)
  nextIn : b.session.crypto.sequenceNumberI = counter j
  context : a.crypto.ctxE = Crypto.contextAfter P b.session.crypto.ctxD ts
  stream : b.session.conn.incoming = Crypto.flight P o authKey b.session.crypto.ctxD j ts
  lossless : a.conn.sendRets = []
  handedOver : a.conn.outgoing = []
  count : sent.length = j + ts.length
  fits : ∀ t ∈ ts, t ≠ [] ∧ t.length ≤ bufferSize
  bytes : got ++ b.buf.unread ++ ts.flatten = sent.flatten
  buffer : b.buf.WF

/-- Both directions. -/
def Inv (P : Primitives) (o : ByteOrder) (authKey : Tag) (x : Duplex)
    (sent : Side → List Bytes) (got : Side → Bytes) : Prop :=
  ∀ side, ∃ ts j,
    Direction P o authKey (x.sess side) (x.ends side.other) (sent side) (got side.other) ts j

theorem Direction.new (k : SessionKeys) :
    Direction P o k.authKey (Session.new k) (Endpoint.new k) [] [] [] 0 := by
  refine ⟨rfl, rfl, rfl, rfl, rfl, rfl, rfl, rfl, rfl, ?_, ?_, .initial⟩
  · intro t ht
    cases ht
  · rw [RecvBuffer.unread_of_empty rfl]
    rfl

theorem Inv.new (k : SessionKeys) :
    Inv P o k.authKey (new k) (fun _ => []) (fun _ => []) :=
  fun _ => ⟨[], 0, .new k⟩

section Direction

variable {a : Session} {b : Endpoint} {sent ts : List Bytes} {got : Bytes} {j : ℕ}

/-- What a direction depends on: at one end the sending half of a session, at the other the
receiving half and the buffer. -/
theorem Direction.of_eq (h : Direction P o authKey a b sent got ts j) {a' : Session}
    {b' : Endpoint} (hkey : a'.crypto.authKey = a.crypto.authKey)
    (hseq : a'.crypto.sequenceNumberO = a.crypto.sequenceNumberO)
    (hctx : a'.crypto.ctxE = a.crypto.ctxE) (hrets : a'.conn.sendRets = a.conn.sendRets)
    (hout : a'.conn.outgoing = a.conn.outgoing)
    (hkey' : b'.session.crypto.authKey = b.session.crypto.authKey)
    (hseq' : b'.session.crypto.sequenceNumberI = b.session.crypto.sequenceNumberI)
    (hctx' : b'.session.crypto.ctxD = b.session.crypto.ctxD)
    (hin : b'.session.conn.incoming = b.session.conn.incoming) (hbuf : b'.buf = b.buf) :
    Direction P o authKey a' b' sent got ts j := by
  refine ⟨hkey.trans h.keySender, hkey'.trans h.keyReceiver, hseq.trans h.nextOut,
    hseq'.trans h.nextIn, ?_, ?_, hrets.trans h.lossless, hout.trans h.handedOver, h.count, h.fits,
    ?_, hbuf ▸ h.buffer⟩
  · rw [hctx, hctx', h.context]
  · rw [hin, hctx', h.stream]
  · rw [hbuf, h.bytes]

/-- A packet goes in. -/
theorem Direction.send (h : Direction P o authKey a b sent got ts j) {plaintext : Bytes}
    (hne : plaintext ≠ []) (hle : plaintext.length ≤ bufferSize) :
    Direction P o authKey (Crypto.sealed P o a plaintext)
      (b.deliver (Crypto.packetOf P o a.crypto plaintext).wire) (sent ++ [plaintext]) got
      (ts ++ [plaintext]) j := by
  refine ⟨h.keySender, h.keyReceiver, ?_, h.nextIn, ?_, ?_, h.lossless, h.handedOver, ?_, ?_, ?_,
    h.buffer⟩
  · show a.crypto.sequenceNumberO + 1 + 1 = _
    rw [h.nextOut, counter_succ, List.length_append, List.length_singleton, Nat.add_assoc]
  · show (a.crypto.ctxE.encryptUpdate P plaintext).2 = _
    rw [h.context, ← Crypto.contextAfter_append]
    rfl
  · show b.session.conn.incoming ++ _ = Crypto.flight P o authKey b.session.crypto.ctxD j _
    rw [Crypto.flight_append, h.stream, Crypto.packetOf, h.keySender, h.nextOut, h.context]
    rfl
  · rw [List.length_append, List.length_append, h.count, Nat.add_assoc]
  · intro t ht
    rcases List.mem_append.mp ht with ht | ht
    · exact h.fits t ht
    · rw [List.mem_singleton.mp ht]
      exact ⟨hne, hle⟩
  · rw [List.flatten_append, List.flatten_append, ← h.bytes, List.append_assoc (got ++ _)]
    rfl

/-- Unread bytes come out. -/
theorem Direction.take (h : Direction P o authKey a b sent got ts j) (size : ℕ) :
    Direction P o authKey a { b with buf := b.buf.advance size } sent
      (got ++ b.buf.unread.take size) ts j := by
  refine ⟨h.keySender, h.keyReceiver, h.nextOut, h.nextIn, h.context, h.stream, h.lossless,
    h.handedOver, h.count, h.fits, ?_, h.buffer.advance size⟩
  rw [RecvBuffer.unread_advance, List.append_assoc got, List.take_append_drop]
  exact h.bytes

/-- **The first packet on the way** is the one that the receiver expects, and carries the first
plaintext on the way. -/
theorem Direction.first {t : Bytes} (h : Direction P o authKey a b sent got (t :: ts) j) :
    ∃ p rest, p = Crypto.packetAt P o authKey j (b.session.crypto.ctxD.encryptUpdate P t).1 ∧
      b.session.conn.incoming = p.wire ++ rest ∧
      Crypto.Expected P o b.session.crypto.authKey b.session.crypto.sequenceNumberI p ∧
      b.session.crypto.decrypt P p.payload
        = (t, { b.session.crypto with ctxD := (b.session.crypto.ctxD.encryptUpdate P t).2 }) ∧
      rest = Crypto.flight P o authKey (b.session.crypto.ctxD.encryptUpdate P t).2 (j + 1) ts := by
  obtain ⟨hne, hle⟩ := h.fits t List.mem_cons_self
  have hlen := CipherCtx.encryptUpdate_length P b.session.crypto.ctxD t
  refine ⟨_, _, rfl, h.stream, ?_, ?_, rfl⟩
  · rw [h.keyReceiver, h.nextIn]
    refine Crypto.expected_packetAt (List.ne_nil_of_length_pos ?_) (hlen ▸ hle)
    rw [hlen]
    exact List.length_pos_iff.mpr hne
  · rw [Crypto.decrypt, Crypto.packetAt_payload, CipherCtx.decrypt_encrypt]

/-- **Whatever packet is cut from the stream** is the first packet on the way. -/
theorem Direction.cut (h : Direction P o authKey a b sent got ts j) {p : Packet} {rest : Bytes}
    (hin : b.session.conn.incoming = p.wire ++ rest)
    (hsize : p.rocket.payloadSize.toNat = p.payload.length) :
    ∃ t us, ts = t :: us ∧
      p = Crypto.packetAt P o authKey j (b.session.crypto.ctxD.encryptUpdate P t).1 ∧
      b.session.crypto.decrypt P p.payload
        = (t, { b.session.crypto with ctxD := (b.session.crypto.ctxD.encryptUpdate P t).2 }) ∧
      rest = Crypto.flight P o authKey (b.session.crypto.ctxD.encryptUpdate P t).2 (j + 1) us := by
  cases ts with
  | nil =>
    have hlen := congrArg List.length (h.stream.symm.trans hin)
    simp [Crypto.flight, Packet.wire, sizeofRocket] at hlen
    omega
  | cons t us =>
    obtain ⟨q, rest', hq, hstream, hexp, hdec, hrest⟩ := h.first
    obtain ⟨rfl, rfl⟩ := Packet.wire_append_inj hexp.size hsize (hstream.symm.trans hin)
    exact ⟨t, us, rfl, hq, hdec, hrest⟩

/-- With fewer than `2 ^ 31` packets sent the receiver's counter does not wrap. -/
theorem Direction.next_ne_zero {t : Bytes} (h : Direction P o authKey a b sent got (t :: ts) j)
    (hcount : sent.length < 2 ^ 31) : b.session.crypto.sequenceNumberI + 1 + 1 ≠ 0 := by
  have hc := h.count
  rw [List.length_cons] at hc
  rw [h.nextIn, counter_succ]
  exact counter_ne_zero (Nat.succ_pos j) (by omega)

/-- The first packet on the way is read and decrypted into an empty buffer. -/
theorem Direction.accept {t : Bytes} (h : Direction P o authKey a b sent got (t :: ts) j)
    (hb : b.buf.remaining = 0) {p : Packet} {rest : Bytes}
    (hdec : b.session.crypto.decrypt P p.payload
      = (t, { b.session.crypto with ctxD := (b.session.crypto.ctxD.encryptUpdate P t).2 }))
    (hrest : rest
      = Crypto.flight P o authKey (b.session.crypto.ctxD.encryptUpdate P t).2 (j + 1) ts) :
    Direction P o authKey a (Crypto.accept P o b p rest) sent got ts (j + 1) := by
  have hc := h.count
  have hbytes := h.bytes
  rw [RecvBuffer.unread_of_empty hb, List.append_nil, List.flatten_cons] at hbytes
  rw [List.length_cons] at hc
  have htext : Crypto.plaintextOf P b.session.crypto p = t := congrArg Prod.fst hdec
  have hctx : ((b.session.crypto.decrypt P p.payload).2).ctxD
      = (b.session.crypto.ctxD.encryptUpdate P t).2 := congrArg (fun x => x.2.ctxD) hdec
  refine ⟨h.keySender, h.keyReceiver, ?_, ?_, ?_, ?_, h.lossless, h.handedOver, by omega,
    fun u hu => h.fits u (List.mem_cons_of_mem t hu), ?_, ?_⟩
  · rw [h.nextOut, List.length_cons, show j + (ts.length + 1) = j + 1 + ts.length by omega]
  · show b.session.crypto.sequenceNumberI + 1 + 1 = _
    rw [h.nextIn, counter_succ]
  · show a.crypto.ctxE = Crypto.contextAfter P (b.session.crypto.decrypt P p.payload).2.ctxD ts
    rw [hctx]
    exact h.context
  · show rest = Crypto.flight P o authKey (b.session.crypto.decrypt P p.payload).2.ctxD (j + 1) ts
    rw [hctx, hrest]
  · rw [Crypto.accept, RecvBuffer.unread_fill, htext, List.append_assoc]
    exact hbytes
  · exact h.buffer.fill (by rw [htext]; exact (h.fits t List.mem_cons_self).2)

/-- **A call of `recv` at the far end**: bytes come out, and the call is good.  If none are
unread, the first packet on the way is read and decrypted. -/
theorem Direction.recv (h : Direction P o authKey a b sent got ts j) {size : ℕ} (hsize : 1 ≤ size)
    (hready : ¬ (b.buf.remaining = 0 ∧ b.session.conn.incoming = []))
    (hcount : sent.length < 2 ^ 31) :
    ∃ bs b' ts' j', (Crypto.recv P o size).run b = .ok bs b' ∧ 1 ≤ bs.length ∧
      bs.length ≤ size ∧ Direction P o authKey a b' sent (got ++ bs) ts' j' ∧
      (b'.session.crypto.authKey = b.session.crypto.authKey ∧
        b'.session.crypto.sequenceNumberO = b.session.crypto.sequenceNumberO ∧
        b'.session.crypto.ctxE = b.session.crypto.ctxE ∧
        b'.session.conn.sendRets = b.session.conn.sendRets ∧
        b'.session.conn.outgoing = b.session.conn.outgoing) := by
  have htake : ∀ {bs : Bytes}, bs ≠ [] → 1 ≤ (bs.take size).length ∧
      (bs.take size).length ≤ size := by
    intro bs hbs
    have hlen := List.length_pos_iff.mpr hbs
    simp only [List.length_take]
    omega
  by_cases hb : b.buf.remaining = 0
  · -- the buffer is empty: the first packet on the way is accepted
    have hin : b.session.conn.incoming ≠ [] := fun hnil => hready ⟨hb, hnil⟩
    cases ts with
    | nil => exact absurd h.stream hin
    | cons t ts =>
      obtain ⟨p, rest, -, hstream, hexp, hdec, hrest⟩ := h.first
      have hseq := h.next_ne_zero hcount
      have hrecv := Crypto.recv_of_expected size hb hexp hstream hseq
      have htext : Crypto.plaintextOf P b.session.crypto p = t := congrArg Prod.fst hdec
      have hunread : (Crypto.accept P o b p rest).buf.unread = t := by
        rw [Crypto.accept, RecvBuffer.unread_fill, htext]
      have hdir := (h.accept hb hdec hrest).take size
      have hne := htake (h.fits t List.mem_cons_self).1
      rw [htext] at hrecv
      rw [hunread] at hdir
      exact ⟨_, _, ts, j + 1, hrecv, hne.1, hne.2, hdir, rfl, rfl, rfl, rfl, rfl⟩
  · have hun := htake (RecvBuffer.unread_ne_nil h.buffer hb)
    exact ⟨_, _, ts, j, Crypto.recv_unread size hb, hun.1, hun.2, h.take size, rfl, rfl, rfl, rfl,
      rfl⟩

end Direction

/-! ### A call of `send` -/

/-- The state after a `send` that returned. -/
theorem step_send (P : Primitives) (os : Side → ByteOrder) (x : Duplex) {side : Side}
    {plaintext : Bytes} (hr : (x.sess side).conn.sendRets = [])
    (ho : (x.sess side).conn.outgoing = []) (hne : plaintext ≠ [])
    (hseq : (x.sess side).crypto.sequenceNumberO + 1 + 1 ≠ 0) :
    ∃ n, (step P os x (.send side plaintext)).2 = [.send side (.ok n)] ∧
      (step P os x (.send side plaintext)).1.ends side
        = { x.ends side with session := Crypto.sealed P (os side) (x.sess side) plaintext } ∧
      (step P os x (.send side plaintext)).1.ends side.other
        = (x.ends side.other).deliver
            (Crypto.packetOf P (os side) (x.sess side).crypto plaintext).wire := by
  obtain ⟨n, hrun⟩ := Crypto.send_lossless (P := P) (o := os side) hr hne hseq
  refine ⟨n, ?_, ?_, ?_⟩
  · simp only [step, hrun, Exec.outcome_ok]
  · simp only [step, hrun, Exec.endState_ok]
    simp only [transfer, set, if_true]
    rw [sess]
    simp only [if_true]
    rw [Connection.taken_put ho]
    rfl
  · simp only [step, hrun, Exec.endState_ok]
    simp only [transfer, set, Side.other_ne, if_false]
    rw [sess]
    simp only [if_true]
    rw [Connection.put_outgoing ho]

/-! ### One event -/

theorem received_append (side : Side) (calls calls' : List Call) :
    received side (calls ++ calls') = received side calls ++ received side calls' := by
  simp [received]

/-- The plaintexts sent, after some more events. -/
def sentAfter (sent : Side → List Bytes) (es : List Event) : Side → List Bytes :=
  fun side => sent side ++ plaintexts side es

/-- The bytes received, after some more calls. -/
def gotAfter (got : Side → Bytes) (calls : List Call) : Side → Bytes :=
  fun side => got side ++ received side calls

theorem sentAfter_cons (sent : Side → List Bytes) (e : Event) (es : List Event) :
    sentAfter sent (e :: es) = sentAfter (sentAfter sent [e]) es := by
  funext side
  rw [sentAfter, sentAfter, sentAfter, List.append_assoc, plaintexts, plaintexts, plaintexts,
    ← List.filterMap_append]
  rfl

theorem gotAfter_append (got : Side → Bytes) (calls calls' : List Call) :
    gotAfter got (calls ++ calls') = gotAfter (gotAfter got calls) calls' := by
  funext side
  rw [gotAfter, gotAfter, gotAfter, received_append, List.append_assoc]

/-- **A `send`** within the limits is good and keeps the invariant. -/
theorem Inv.send {os : Side → ByteOrder} (hos : ∀ side, os side = o) {x : Duplex}
    {sent : Side → List Bytes} {got : Side → Bytes} (h : Inv P o authKey x sent got)
    {side : Side} {plaintext : Bytes} (hv : (Event.send side plaintext).Valid)
    (hcount : (sentAfter sent [.send side plaintext] side).length < 2 ^ 31) :
    (∀ c ∈ (step P os x (.send side plaintext)).2, c.Good) ∧
      Inv P o authKey (step P os x (.send side plaintext)).1
        (sentAfter sent [.send side plaintext])
        (gotAfter got (step P os x (.send side plaintext)).2) := by
  obtain ⟨ts, j, hd⟩ := h side
  obtain ⟨us, i, hback⟩ := h side.other
  obtain ⟨hpos, hle⟩ := hv
  have hne : plaintext ≠ [] := List.ne_nil_of_length_pos hpos
  have hmine : sentAfter sent [.send side plaintext] side = sent side ++ [plaintext] := by
    simp [sentAfter, plaintexts]
  have hyours : sentAfter sent [.send side plaintext] side.other = sent side.other := by
    simp [sentAfter, plaintexts, (Side.other_ne side).symm]
  have hgot : gotAfter got (step P os x (.send side plaintext)).2 = got :=
    funext fun i => List.append_nil (got i)
  have hseq : (x.sess side).crypto.sequenceNumberO + 1 + 1 ≠ 0 := by
    rw [hmine, List.length_append, List.length_singleton, hd.count] at hcount
    rw [hd.nextOut, counter_succ]
    exact counter_ne_zero (by omega) (by omega)
  obtain ⟨n, hcall, hself, hother⟩ := step_send P os x hd.lossless hd.handedOver hne hseq
  rw [hos side] at hself hother
  refine ⟨?_, fun k => ?_⟩
  · intro c hc
    rw [hcall, List.mem_singleton] at hc
    exact hc ▸ ⟨n, rfl⟩
  rw [hgot]
  rcases Side.eq_or_other k side with rfl | rfl
  · refine ⟨ts ++ [plaintext], j, ?_⟩
    rw [sess, hself, hother, hmine]
    exact hd.send hne hle
  · -- the other direction does not notice
    refine ⟨us, i, ?_⟩
    rw [Side.other_other] at hback ⊢
    rw [sess, hself, hother, hyours]
    exact hback.of_eq rfl rfl rfl rfl rfl rfl rfl rfl rfl rfl

/-- **A `recv`** is good and keeps the invariant. -/
theorem Inv.recv {os : Side → ByteOrder} (hos : ∀ side, os side = o) {x : Duplex}
    {sent : Side → List Bytes} {got : Side → Bytes} (h : Inv P o authKey x sent got)
    {side : Side} {size : ℕ} (hsize : 1 ≤ size) (hcount : (sent side.other).length < 2 ^ 31) :
    (∀ c ∈ (step P os x (.recv side size)).2, c.Good) ∧
      Inv P o authKey (step P os x (.recv side size)).1 sent
        (gotAfter got (step P os x (.recv side size)).2) := by
  obtain ⟨ts, j, hd⟩ := h side.other
  obtain ⟨us, i, hback⟩ := h side
  rw [Side.other_other] at hd
  by_cases hready : (x.ends side).buf.remaining = 0 ∧ (x.sess side).conn.incoming = []
  · -- the call waits
    have hstep : step P os x (.recv side size) = (x, []) := by simp only [step, if_pos hready]
    have hgot : gotAfter got [] = got := funext fun i => List.append_nil (got i)
    rw [hstep]
    refine ⟨fun c hc => absurd hc List.not_mem_nil, ?_⟩
    show Inv P o authKey x sent (gotAfter got [])
    rw [hgot]
    exact h
  · obtain ⟨bs, b, ts', j', hrun, hpos, hle, hd', hkey, hseq, hctx, hrets, hout⟩ :=
      hd.recv hsize hready hcount
    have hstep : step P os x (.recv side size) = (x.set side b, [.recv side size (.ok bs)]) := by
      simp only [step, if_neg hready, hos side, hrun, Exec.endState_ok, Exec.outcome_ok]
    have hmine : gotAfter got [.recv side size (.ok bs)] side = got side ++ bs := by
      simp [gotAfter, received, returnedBytes]
    have hyours : gotAfter got [.recv side size (.ok bs)] side.other = got side.other := by
      simp [gotAfter, received, (Side.other_ne side).symm]
    have hself : (x.set side b).ends side = b := if_pos rfl
    have hother : (x.set side b).ends side.other = x.ends side.other :=
      if_neg (Side.other_ne side)
    rw [hstep]
    refine ⟨?_, fun k => ?_⟩
    · intro c hc
      rw [List.mem_singleton] at hc
      exact hc ▸ ⟨bs, rfl, hpos, hle⟩
    rcases Side.eq_or_other k side with rfl | rfl
    · -- what this end has sent is not touched
      refine ⟨us, i, ?_⟩
      rw [sess, hself, hother, hyours]
      exact hback.of_eq hkey hseq hctx hrets hout rfl rfl rfl rfl rfl
    · refine ⟨ts', j', ?_⟩
      rw [sess, Side.other_other, hself, hother, hmine]
      exact hd'

/-! ### Runs -/

/-- **Every call of an allowed run is good, and the invariant holds at its end.** -/
theorem Inv.after {os : Side → ByteOrder} (hos : ∀ side, os side = o) {x : Duplex}
    {sent : Side → List Bytes} {got : Side → Bytes} {es : List Event}
    (h : Inv P o authKey x sent got) (hvalid : ∀ e ∈ es, e.Valid)
    (hcount : ∀ side, (sentAfter sent es side).length < 2 ^ 31) :
    (∀ c ∈ (run P os x es).2, c.Good) ∧
      Inv P o authKey (run P os x es).1 (sentAfter sent es)
        (gotAfter got (run P os x es).2) := by
  induction es generalizing x sent got with
  | nil =>
    refine ⟨fun c hc => absurd hc List.not_mem_nil, ?_⟩
    have hsent : sentAfter sent [] = sent := funext fun side => List.append_nil _
    have hgot : gotAfter got [] = got := funext fun side => List.append_nil _
    show Inv P o authKey x (sentAfter sent []) (gotAfter got [])
    rw [hsent, hgot]
    exact h
  | cons e es ih =>
    have hle : ∀ side, (sentAfter sent [e] side).length < 2 ^ 31 := by
      intro side
      have hc := hcount side
      rw [sentAfter_cons, sentAfter, List.length_append] at hc
      omega
    have hv := hvalid e List.mem_cons_self
    have hone : (∀ c ∈ (step P os x e).2, c.Good) ∧
        Inv P o authKey (step P os x e).1 (sentAfter sent [e])
          (gotAfter got (step P os x e).2) := by
      cases e with
      | send side plaintext => exact h.send hos hv (hle side)
      | recv side size =>
        have hnone : sentAfter sent [.recv side size] = sent :=
          funext fun side => List.append_nil _
        rw [hnone] at hle ⊢
        exact h.recv hos hv (hle side.other)
    obtain ⟨hgoods, hend⟩ := ih hone.2 (fun e he => hvalid e (List.mem_cons_of_mem _ he))
      (fun side => by rw [← sentAfter_cons]; exact hcount side)
    rw [run, Machine.run_cons, sentAfter_cons, gotAfter_append]
    refine ⟨fun c hc => ?_, hend⟩
    rcases List.mem_append.mp hc with hc | hc
    · exact hone.1 c hc
    · exact hgoods c hc

/-! ### The byte stream -/

/-- **Between hosts of the same byte order the secure layer is a byte stream**: every call is
good, and what has been received is a prefix of what was sent, all of it once an end is
drained. -/
theorem byte_stream {os : Side → ByteOrder} (hos : os .client = os .server) (k : SessionKeys)
    {es : List Event} (hvalid : ∀ e ∈ es, e.Valid)
    (hcount : ∀ side, (plaintexts side es).length < 2 ^ 31) :
    (∀ c ∈ (run P os (new k) es).2, c.Good) ∧
      ∀ side, received side (run P os (new k) es).2 <+: (plaintexts side.other es).flatten ∧
        ((run P os (new k) es).1.Drained side →
          received side (run P os (new k) es).2 = (plaintexts side.other es).flatten) := by
  have hall : ∀ side, os side = os .server := fun side => by
    cases side
    · exact hos
    · rfl
  have hsent : ∀ side, sentAfter (fun _ => []) es side = plaintexts side es := fun side =>
    List.nil_append _
  obtain ⟨hgood, hinv⟩ := (Inv.new (P := P) (o := os .server) k).after hall hvalid
    (fun side => by rw [hsent]; exact hcount side)
  refine ⟨hgood, fun side => ?_⟩
  obtain ⟨ts, j, hd⟩ := hinv side.other
  rw [Side.other_other, hsent] at hd
  have hbytes := hd.bytes
  rw [gotAfter, List.nil_append, List.append_assoc] at hbytes
  refine ⟨⟨_, hbytes⟩, fun hdrained => ?_⟩
  have hflight := hd.stream.symm.trans hdrained.1
  rw [Crypto.flight_eq_nil hflight, RecvBuffer.unread_of_empty hdrained.2] at hbytes
  rw [← hbytes]
  exact (List.append_nil _).symm

/-- The client sends a byte, and the server asks for one. -/
def firstByte : List Event := [.send .client [1], .recv .server 1]

/-- Two hosts, the client's byte order first. -/
def hosts (a b : ByteOrder) : Side → ByteOrder
  | .client => a
  | .server => b

/-- **The secure layer is a byte stream exactly between hosts of the same byte order.** -/
theorem byte_stream_iff (os : Side → ByteOrder) :
    (∀ (P : Primitives) (k : SessionKeys) (es : List Event), (∀ e ∈ es, e.Valid) →
        (∀ side, (plaintexts side es).length < 2 ^ 31) →
        (∀ c ∈ (run P os (new k) es).2, c.Good) ∧
          ∀ side, received side (run P os (new k) es).2 <+: (plaintexts side.other es).flatten ∧
            ((run P os (new k) es).1.Drained side →
              received side (run P os (new k) es).2 = (plaintexts side.other es).flatten)) ↔
      os .client = os .server := by
  constructor
  · intro h
    by_contra hne
    have hos : os = hosts (os .client) (os .server) := by
      funext side
      cases side <;> rfl
    have hbad : Call.recv .server 1 (.error (.exBadHMAC "Rocket::verify(): bad hmac"))
        ∈ (run .sample os (new (.sample 1)) firstByte).2 := by
      rw [hos]
      cases hc : os .client <;> cases hs : os .server
      · exact absurd (hc.trans hs.symm) hne
      · decide +kernel
      · decide +kernel
      · exact absurd (hc.trans hs.symm) hne
    have hvalid : ∀ e ∈ firstByte, e.Valid := by
      intro e he
      rcases List.mem_pair.mp he with rfl | rfl
      · exact ⟨by decide, by decide⟩
      · exact le_refl 1
    have hcount : ∀ side, (plaintexts side firstByte).length < 2 ^ 31 := by
      intro side
      cases side <;> decide
    obtain ⟨bs, hbs, -⟩ := (h .sample (.sample 1) firstByte hvalid hcount).1 _ hbad
    cases hbs
  · intro hos P k es hvalid hcount
    exact byte_stream hos k hvalid hcount

/-- A packet from a little-endian host is refused by a big-endian one. -/
theorem mixed_hosts_fail :
    (run .sample (hosts .little .big) (new (.sample 1)) firstByte).2
      = [.send .client (.ok 77),
          .recv .server 1 (.error (.exBadHMAC "Rocket::verify(): bad hmac"))] := by
  decide +kernel

end Duplex

end Cybrg
