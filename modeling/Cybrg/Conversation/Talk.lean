import Cybrg.Conversation.Replies

/-!
# A client and its server

The client's program runs against the server's.  The connection loses nothing and keeps the order, the
server's program is deterministic, and it waits where nothing has arrived: so what it has handed over
at some moment is a function of what has reached it by then.  A `Talk` is the client's end of such a
session, and `Transport.talk` is what the client's program sees of it.

* `Talk.served`, `Talk.answer` — the server, run on everything that has reached it;
* `Transport.talk` — `Crypto` at the client's end, with the server behind it;
* `Conversing` — the state after the client has sent some packets and has read a part of the
  replies;
* `talk_carries`, `Conversing.send` — what reading and sending do.
-/

namespace Cybrg

open Octets ServerClient

/-- The client's end of a session, and the server as it was when the session began. -/
structure Talk where
  client : Endpoint
  server : ServerClient.Client Endpoint
  /-- What has reached the server. -/
  wire : Bytes := []
  /-- How much of the answer has reached the client. -/
  arrived : ℕ := 0

namespace Talk

variable (P : Primitives) (o : ByteOrder)

/-- The server, as far as it comes with what has reached it.  A round reads at least one byte. -/
def served (x : Talk) : ServerClient.Client Endpoint :=
  Exec.endState ((serve (.crypto P o) (x.wire.length + 1)).run
    { x.server with link := x.server.link.deliver x.wire })

/-- What the server has handed over. -/
def answer (x : Talk) : Bytes := (x.served P o).link.session.conn.outgoing

/-- The rest of the answer reaches the client. -/
def arrive (x : Talk) : Talk :=
  { x with
    client := x.client.deliver ((x.answer P o).drop x.arrived)
    arrived := (x.answer P o).length }

/-- What the client has handed over reaches the server. -/
def handOver (x : Talk) (e : Endpoint) : Talk :=
  { x with
    client := { e with session := { e.session with conn := e.session.conn.taken } }
    wire := x.wire ++ e.session.conn.outgoing }

/-- A session after its handshake. -/
def new (k : SessionKeys) (c : ServerClient.Client Unit) : Talk where
  client := Endpoint.new k
  server := c.withLink (Endpoint.new k)

end Talk

/-- `Crypto` at the client's end. -/
def Transport.talk (P : Primitives) (o : ByteOrder) : Transport Talk where
  recv size := do
    modify fun x => x.arrive P o
    Exec.zoom (·.client) (fun e x => { x with client := e }) (Crypto.recv P o size)
  send plaintext :=
    Exec.zoom (·.client) (fun e x => x.handOver e) ((Transport.crypto P o).send plaintext)

variable {P : Primitives} {o : ByteOrder}

/-- The client of a session that has sent the packets `us`: its sending half. -/
structure Sender (P : Primitives) (k : SessionKeys) (us : List Bytes) (s : Session) : Prop where
  key : s.crypto.authKey = k.authKey
  next : s.crypto.sequenceNumberO = counter us.length
  context : s.crypto.ctxE = Crypto.contextAfter P (Crypto.firstCtx k) us
  lossless : s.conn.sendRets = []
  handedOver : s.conn.outgoing = []

/-- The client's session after the next packet, when the network has taken it. -/
theorem Sender.send {k : SessionKeys} {us : List Bytes} {s : Session} (h : Sender P k us s)
    {p : Bytes} (hne : p ≠ []) (hcount : us.length < 2 ^ 31) :
    ∃ n t, Crypto.wire P o k us ++ t.conn.outgoing = Crypto.wire P o k (us ++ [p]) ∧
      Sender P k (us ++ [p]) { t with conn := t.conn.taken } ∧
      (t.crypto.authKey = s.crypto.authKey ∧
        t.crypto.sequenceNumberI = s.crypto.sequenceNumberI ∧ t.crypto.ctxD = s.crypto.ctxD ∧
        t.conn.incoming = s.conn.incoming) ∧
      if us.length + 1 < 2 ^ 31 then (Crypto.send P o p).run s = .ok n t
      else ∃ e, (Crypto.send P o p).run s = .error e t := by
  obtain ⟨n, hrun⟩ := Crypto.send_lossless_run (P := P) (o := o) h.lossless hne
  have hpacket : Crypto.packetOf P o s.crypto p = Crypto.packetAt P o k.authKey us.length
      ((Crypto.contextAfter P (Crypto.firstCtx k) us).encryptUpdate P p).1 := by
    rw [Crypto.packetOf, Crypto.packetAt, h.key, h.next, h.context]
  refine ⟨n, { Crypto.sealed P o s p with
    conn := s.conn.put (Crypto.packetOf P o s.crypto p).wire }, ?_, ?_, ⟨rfl, rfl, rfl, rfl⟩, ?_⟩
  · rw [Crypto.wire_append, Connection.put_outgoing h.handedOver, hpacket, Crypto.flight,
      Crypto.flight, List.append_nil]
  · refine ⟨h.key, ?_, ?_, h.lossless, rfl⟩
    · show s.crypto.sequenceNumberO + 1 + 1 = _
      rw [h.next, counter_succ, List.length_append, List.length_singleton]
    · show (s.crypto.ctxE.encryptUpdate P p).2 = _
      rw [h.context, Crypto.contextAfter_append]
  · have hzero := counter_eq_zero_iff (Nat.succ_pos us.length) hcount
    rw [h.next, counter_succ] at hrun
    split
    · rename_i hlt
      rw [hrun, if_pos fun h0 => by have := hzero.mp h0; omega]
    · rename_i hge
      refine ⟨.exSeqNumOverflow "Crypto::send(): sequence number overflow", ?_⟩
      rw [hrun, if_neg (not_not.mpr (hzero.mpr (by omega)))]

/-- The client has sent the packets `us`, and the bytes `s` are still to be read of the server's
replies. -/
structure Conversing (P : Primitives) (o : ByteOrder) (k : SessionKeys)
    (c : ServerClient.Client Unit) (us : List Bytes) (s : Bytes) (x : Talk) : Prop where
  fresh : c.packets = []
  server : x.server = c.withLink (Endpoint.new k)
  wire : x.wire = Crypto.wire P o k us
  fits : ∀ p ∈ us, Fits p
  count : us.length < 2 ^ 31
  sender : Sender P k us x.client.session
  arrived : x.arrived ≤ (x.answer P o).length
  repliesFit : ∀ p ∈ replies P o k c us, Fits p
  receiver : Duplex.Holding P o k.authKey
    (Crypto.sealedAll P o (Session.new k) (replies P o k c us)) (replies P o k c us) s
    (x.arrive P o).client

section Conversing

variable {k : SessionKeys} {c : ServerClient.Client Unit} {us : List Bytes} {s : Bytes} {x : Talk}

/-- What the server of such a session has handed over. -/
theorem Talk.answer_eq (hfresh : c.packets = []) (hserver : x.server = c.withLink (Endpoint.new k))
    (hwire : x.wire = Crypto.wire P o k us) (hfits : ∀ p ∈ us, Fits p)
    (hcount : us.length < 2 ^ 31) :
    x.answer P o = Crypto.wire P o k (replies P o k c us) := by
  have hserved : x.served P o
      = Exec.endState ((serve (.crypto P o) ((Crypto.wire P o k us).length + 1)).run
        (c.reached P o k us)) := by
    rw [Talk.served, hserver, hwire]
    rfl
  have hideal := (served_ideal (P := P) (o := o) k hfits hcount hfresh
    ((Crypto.wire P o k us).length + 1)).half
  rw [← hserved] at hideal
  simp only [Endpoint.sendHalf, Station.sendHalf, Crypto.sentHalf, Prod.mk.injEq] at hideal
  rw [Talk.answer, hideal.2.2.2.2.2, hserved, replies]

theorem Endpoint.deliver_nil (b : Endpoint) : b.deliver [] = b := by
  rw [Endpoint.deliver, List.append_nil]

/-- Nothing more arrives until the client sends again. -/
theorem Talk.arrive_settled {x : Talk} (h : x.arrived = (x.answer P o).length) :
    x.arrive P o = x := by
  rw [Talk.arrive, ← h, List.drop_of_length_le h.ge, Endpoint.deliver_nil]

/-- The state when the answer has arrived and the client has taken some of it. -/
theorem Conversing.read (h : Conversing P o k c us s x) {s' : Bytes} {e : Endpoint}
    (hheld : Duplex.Holding P o k.authKey
      (Crypto.sealedAll P o (Session.new k) (replies P o k c us)) (replies P o k c us) s' e)
    (hhalf : e.sendHalf = (x.arrive P o).client.sendHalf) :
    Conversing P o k c us s' { x.arrive P o with client := e } := by
  simp only [Endpoint.sendHalf, Station.sendHalf, Prod.mk.injEq] at hhalf
  obtain ⟨hkey, hseq, hctx, -, hrets, hout⟩ := hhalf
  refine ⟨h.fresh, h.server, h.wire, h.fits, h.count, ?_, le_refl _, h.repliesFit, ?_⟩
  · exact ⟨hkey.trans h.sender.key, hseq.trans h.sender.next, hctx.trans h.sender.context,
      hrets.trans h.sender.lossless, hout.trans h.sender.handedOver⟩
  · rw [Talk.arrive_settled rfl]
    exact hheld

/-- **The client reads the replies of its server as a stream.** -/
theorem talk_carries (P : Primitives) (o : ByteOrder) (k : SessionKeys)
    (c : ServerClient.Client Unit) (us : List Bytes) :
    (Transport.talk P o).Carries (Conversing P o k c us) fun _ => () := by
  have hrecv : ∀ (x : Talk) (n : ℕ), ((Transport.talk P o).recv n).run x
      = match (Crypto.recv P o n).run (x.arrive P o).client with
        | .ok bs e => .ok bs { x.arrive P o with client := e }
        | .error y e => .error y { x.arrive P o with client := e } := by
    intro x n
    show (modify (fun x => x.arrive P o) >>= fun _ => Exec.zoom _ _ _).run x = _
    rw [Exec.bind_of_ok (EStateM.run_modify _ x), Exec.run_zoom]
    cases (Crypto.recv P o n).run (x.arrive P o).client <;> rfl
  have hcarries := crypto_carries P o k.authKey
    (Crypto.sealedAll P o (Session.new k) (replies P o k c us)) (replies P o k c us)
  constructor
  · intro s x n h hne hn
    obtain ⟨m, e, hpos, hle, hlen, hrun, hheld, hhalf⟩ := hcarries.recv h.receiver hne hn
    have hrun' : (Crypto.recv P o n).run (x.arrive P o).client = .ok (s.take m) e := hrun
    refine ⟨m, _, hpos, hle, hlen, ?_, h.read hheld hhalf, rfl⟩
    rw [hrecv, hrun']
  · intro x n h hn
    obtain ⟨y, e, hrun, -⟩ := hcarries.ended h.receiver hn
    have hrun' : (Crypto.recv P o n).run (x.arrive P o).client = .error y e := hrun
    exact ⟨y, _, by rw [hrecv, hrun'], rfl⟩

/-- What can be read of the replies. -/
def readableReplies (P : Primitives) (o : ByteOrder) (k : SessionKeys)
    (c : ServerClient.Client Unit) (us : List Bytes) : Bytes :=
  (Duplex.readable 0 (replies P o k c us)).flatten

/-- The client sends a packet, and what it has read before stays read. -/
structure Sends (P : Primitives) (o : ByteOrder) (k : SessionKeys) (c : ServerClient.Client Unit)
    (us : List Bytes) (p : Bytes) (s : Bytes) (x' : Talk) (s' : Bytes) : Prop where
  conversing : Conversing P o k c (us ++ [p]) s' x'
  total : ∃ got, got ++ s = readableReplies P o k c us ∧
    got ++ s' = readableReplies P o k c (us ++ [p])

/-- What a call of `send` has written is handed over to the server. -/
theorem talk_send_ok {p : Bytes} {n : ℤ} {t : Session}
    (h : (Crypto.send P o p).run x.client.session = .ok n t) :
    ((Transport.talk P o).send p).run x = .ok n (x.handOver { x.client with session := t }) := by
  refine Exec.zoom_of_ok ?_
  rw [crypto_send_run, h]

theorem talk_send_error {p : Bytes} {e : Ex} {t : Session}
    (h : (Crypto.send P o p).run x.client.session = .error e t) :
    ((Transport.talk P o).send p).run x = .error e (x.handOver { x.client with session := t }) := by
  refine Exec.zoom_of_error ?_
  rw [crypto_send_run, h]

/-- **A call of `send`** returns unless it uses the last number. -/
theorem Conversing.send (h : Conversing P o k c us s x) {p : Bytes} (hp : Fits p)
    (hreplies : us.length + 1 < 2 ^ 31 → ∀ q ∈ replies P o k c (us ++ [p]), Fits q) :
    if us.length + 1 < 2 ^ 31 then
      ∃ n x' s', ((Transport.talk P o).send p).run x = .ok n x' ∧ Sends P o k c us p s x' s'
    else ∃ e x', ((Transport.talk P o).send p).run x = .error e x' := by
  obtain ⟨hpos, hle⟩ := hp
  obtain ⟨n, t, hwire, hsender, ⟨hkey, hseq, hctx, hin⟩, hrun⟩ :=
    h.sender.send (o := o) (List.ne_nil_of_length_pos hpos) h.count
  split at hrun
  · rename_i hlt
    rw [if_pos hlt, talk_send_ok hrun]
    -- the server goes on with what has reached it
    have hcount : (us ++ [p]).length < 2 ^ 31 := by
      rw [List.length_append, List.length_singleton]
      exact hlt
    have hfits : ∀ q ∈ us ++ [p], Fits q := by
      intro q hq
      rcases List.mem_append.mp hq with hq | hq
      · exact h.fits q hq
      · rw [List.mem_singleton.mp hq]
        exact ⟨hpos, hle⟩
    obtain ⟨qs, hqs⟩ := replies_mono (P := P) (o := o) k hfits hcount h.fresh
    have hanswer := Talk.answer_eq (P := P) (o := o) h.fresh h.server h.wire h.fits h.count
    have hanswer' : (x.handOver { x.client with session := t }).answer P o
        = Crypto.wire P o k (replies P o k c (us ++ [p])) := by
      refine Talk.answer_eq h.fresh h.server ?_ hfits hcount
      rw [← hwire, ← h.wire]
      rfl
    have hgrown : (x.handOver { x.client with session := t }).answer P o
        = x.answer P o ++ Crypto.flight P o k.authKey
            (Crypto.contextAfter P (Crypto.firstCtx k) (replies P o k c us))
            (replies P o k c us).length qs := by
      rw [hanswer', hanswer, ← hqs, Crypto.wire_append]
    have hnew : ∀ q ∈ qs, Fits q := fun q hq => hreplies hlt q (hqs ▸ List.mem_append_right _ hq)
    obtain ⟨s', got, hheld, hbefore, hafter⟩ := h.receiver.extend hnew
    rw [hqs] at hheld hafter
    refine ⟨n, _, s', rfl, ⟨h.fresh, h.server, ?_, hfits, hcount, hsender, ?_, hreplies hlt, ?_⟩,
      got, hbefore, hafter⟩
    · rw [← hwire, ← h.wire]
      rfl
    · rw [hgrown, List.length_append]
      exact h.arrived.trans (Nat.le_add_right _ _)
    · have hctx' : (Crypto.sealedAll P o (Session.new k) (replies P o k c us)).crypto.ctxE
          = Crypto.contextAfter P (Crypto.firstCtx k) (replies P o k c us) :=
        Crypto.sealedAll_ctxE _ _
      rw [← Crypto.sealedAll_append, hqs, hctx'] at hheld
      refine hheld.of_eq hkey hseq hctx ?_ rfl
      show t.conn.incoming ++ ((x.handOver _).answer P o).drop x.arrived
        = x.client.session.conn.incoming ++ (x.answer P o).drop x.arrived ++ _
      rw [hin, hgrown, List.drop_append_of_le_length h.arrived, List.append_assoc]
  · rename_i hge
    obtain ⟨e, hrun⟩ := hrun
    rw [if_neg hge, talk_send_error hrun]
    exact ⟨e, _, rfl⟩

end Conversing

end Cybrg
