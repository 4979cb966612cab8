import Cybrg.Sessions.Discipline

/-!
# What a failed receive leaves behind

`Crypto::recv` can throw at seven places.  Six of them come before the packet is decrypted; the
test of the counter comes after the plaintext was put into the buffer.

* `Endpoint.step` — any calls of `send` and `recv` and any bytes in between, also after an
  exception;
* `Untouched` — decryption context and buffer are as they were, and no packet was accepted;
* `LastPacket` — the buffer is empty, and the packet with the last two numbers comes next;
* `failed_receives` — a call that throws leaves everything untouched iff this is not so, and what
  was returned comes from accepted packets;
* `last_packet_returned` — the other case, after `2 ^ 31 - 1` packets.
-/

namespace Cybrg

open Octets

variable {P : Primitives} {o : ByteOrder}

/-! ### One call -/

/-- Decryption context and receive buffer are as they were, and no packet was accepted. -/
structure Untouched (e e' : Endpoint) : Prop where
  ctxD : e'.session.crypto.ctxD = e.session.crypto.ctxD
  buf : e'.buf = e.buf
  accepted : e'.session.hist.accepted = e.session.hist.accepted

/-- A call for `size` bytes, if it throws, leaves everything untouched. -/
def LeavesNoTrace (P : Primitives) (o : ByteOrder) (size : ℕ) (e : Endpoint) : Prop :=
  ∀ x e', (Crypto.recv P o size).run e = .error x e' → Untouched e e'

/-- The buffer is empty, the counter is at `2 ^ 32 - 2`, and the packet with the last two numbers
is the next on the connection. -/
structure LastPacket (P : Primitives) (o : ByteOrder) (e : Endpoint) : Prop where
  empty : e.buf.remaining = 0
  counter : e.session.crypto.sequenceNumberI = 4294967294
  there : ∃ p rest, Crypto.Expected P o e.session.crypto.authKey 4294967294 p ∧
    e.session.conn.incoming = p.wire ++ rest

theorem counter_at_end (n : UInt32) : n + 1 + 1 = 0 ↔ n = 4294967294 := by
  constructor
  · intro h
    rw [← UInt32.toNat_inj] at h ⊢
    have hn := n.toNat_lt
    simp only [UInt32.toNat_add, UInt32.toNat_ofNat] at h ⊢
    omega
  · rintro rfl
    decide

/-- The last packet is accepted and decrypted, and then the call throws. -/
theorem recv_lastPacket (size : ℕ) {e : Endpoint} {p : Packet} {rest : Bytes}
    (hb : e.buf.remaining = 0)
    (he : Crypto.Expected P o e.session.crypto.authKey e.session.crypto.sequenceNumberI p)
    (hin : e.session.conn.incoming = p.wire ++ rest)
    (hseq : e.session.crypto.sequenceNumberI + 1 + 1 = 0) :
    (Crypto.recv P o size).run e =
      .error (.exSeqNumOverflow "Crypto::recv(): sequence number overflow")
        (Crypto.accept P o e p rest) := by
  have hf := Crypto.feed_of_ok (Crypto.receivePacket_of_expected he hin)
  rw [if_neg (by simpa using hseq)] at hf
  rw [Crypto.recv_empty size hb, Exec.bind_of_error hf]

/-- **A call that throws leaves no trace iff the last packet is not there.** -/
theorem leavesNoTrace_iff (size : ℕ) (e : Endpoint) :
    LeavesNoTrace P o size e ↔ ¬ LastPacket P o e := by
  constructor
  · rintro h ⟨hb, hseq, p, rest, he, hin⟩
    have hrun := recv_lastPacket size hb (hseq ▸ he) hin ((counter_at_end _).mpr hseq)
    have hbuf := (h _ _ hrun).buf
    exact Crypto.accept_remaining rest he.nonempty (hbuf ▸ hb)
  · intro h x e' hrun
    have hends := Crypto.recv_cases P o size e
    rw [hrun] at hends
    cases hends with
    | @rejected hb x s hs =>
      have hheld := Crypto.receivePacket_held.of_error hs
      simp only [Crypto.held, Prod.mk.injEq] at hheld
      obtain ⟨-, hctx, -, -, -, hacc, -, -⟩ := hheld
      exact ⟨hctx, rfl, hacc⟩
    | @wrapped hb p rest he hin hseq =>
      have hlast := (counter_at_end _).mp hseq
      exact absurd ⟨hb, hlast, p, rest, hlast ▸ he, hin⟩ h

/-! ### Runs -/

namespace Endpoint

/-- One event at an end, which goes on after an exception. -/
def step (P : Primitives) (o : ByteOrder) (e : Endpoint) :
    Station.Event → Endpoint × List Station.Call
  | .send plaintext =>
      let r := (Crypto.send P o plaintext).run e.session
      ({ e with session := Exec.endState r }, [.send plaintext (Exec.outcome r)])
  | .recv size =>
      let r := (Crypto.recv P o size).run e
      (Exec.endState r, [.recv size (Exec.outcome r)])
  | .arrive bs => (e.deliver bs, [])

/-- What was returned, followed by what is unread, is the plaintext of the accepted packets. -/
def Conserved (P : Primitives) (o : ByteOrder) (e : Endpoint) (calls : List Station.Call) : Prop :=
  Station.returned calls ++ e.buf.unread = Process.plaintexts e.session ∧
    Process.AllVerified P o e.session

theorem Conserved.new (k : SessionKeys) (conn : Connection) :
    Conserved P o (Endpoint.new k conn) [] := by
  refine ⟨RecvBuffer.unread_of_empty rfl, fun a ha => ?_⟩
  cases ha

/-- **Every event keeps it**, also a call that throws. -/
theorem Conserved.step {e : Endpoint} {calls : List Station.Call} (h : Conserved P o e calls)
    (ev : Station.Event) :
    Conserved P o (Endpoint.step P o e ev).1 (calls ++ (Endpoint.step P o e ev).2) := by
  obtain ⟨hbytes, hver⟩ := h
  cases ev with
  | arrive bs =>
    refine ⟨?_, hver⟩
    rw [Endpoint.step, List.append_nil]
    exact hbytes
  | send plaintext =>
    obtain ⟨c, -, hend⟩ := Crypto.send_cases P o plaintext e.session
    have hnone : Station.returned [.send plaintext
        (Exec.outcome ((Crypto.send P o plaintext).run e.session))] = [] := rfl
    simp only [Endpoint.step, hend, Conserved, Station.returned_append, hnone, List.append_nil]
    exact ⟨hbytes, hver⟩
  | recv size =>
    have hret : Station.returned [.recv size (Exec.outcome ((Crypto.recv P o size).run e))]
        = returnedBytes (Exec.outcome ((Crypto.recv P o size).run e)) := List.append_nil _
    simp only [Endpoint.step, Conserved, Station.returned_append, hret]
    exact Process.recv_conserves size hbytes hver

/-- The calls of `recv` in a run meet a condition on the state they find. -/
def AtReceives (C : ℕ → Endpoint → Prop) (e : Endpoint) (ev : Station.Event) : Prop :=
  ∀ size, ev = .recv size → C size e

end Endpoint

/-- **Failed receives leave no trace iff the last packet is not there.**  In every run in which no
call of `recv` finds it, every call that throws leaves decryption context and buffer as they were
and accepts nothing, and what all calls returned and what is unread is the plaintext of the
packets that were accepted. -/
theorem failed_receives (P : Primitives) (o : ByteOrder) :
    (∀ size e, LeavesNoTrace P o size e ↔ ¬ LastPacket P o e) ∧
      ∀ (k : SessionKeys) (conn : Connection) (es : List Station.Event),
        Machine.Meets (Endpoint.step P o) (Endpoint.AtReceives fun _ e => ¬ LastPacket P o e)
          (Endpoint.new k conn) es →
        Machine.Meets (Endpoint.step P o) (Endpoint.AtReceives (LeavesNoTrace P o))
          (Endpoint.new k conn) es ∧
        Station.returned (Machine.run (Endpoint.step P o) (Endpoint.new k conn) es).2
            ++ (Machine.run (Endpoint.step P o) (Endpoint.new k conn) es).1.buf.unread
          = Process.plaintexts
              (Machine.run (Endpoint.step P o) (Endpoint.new k conn) es).1.session := by
  refine ⟨leavesNoTrace_iff, fun k conn es h => ⟨?_, ?_⟩⟩
  · refine Machine.meets_of_invariant (I := fun _ => True) (fun e ev _ hev => ⟨trivial, ?_⟩)
      trivial h
    intro size hsize
    exact (leavesNoTrace_iff size e).mpr (hev size hsize)
  · have hinv : Endpoint.Conserved P o _ _ := Machine.invariant_trace (J := Endpoint.Conserved P o)
      (C := fun _ _ => True) (fun e calls ev hc _ => hc.step ev) (Endpoint.Conserved.new k conn)
      (Machine.meets_true es)
    exact hinv.1

/-! ### The last packet -/

/-- Packets of one byte arrive and are read, one after the other. -/
def byteByByte (P : Primitives) (o : ByteOrder) (authKey : Tag) : ℕ → List Station.Event
  | 0 => []
  | n + 1 => byteByByte P o authKey n
      ++ [.arrive (Crypto.packetAt P o authKey n [0]).wire, .recv 1]

/-- Everything that has arrived was read and handed out, and the packet with index `n` is next. -/
structure CaughtUp (authKey : Tag) (n : ℕ) (e : Endpoint) : Prop where
  empty : e.buf.remaining = 0
  incoming : e.session.conn.incoming = []
  key : e.session.crypto.authKey = authKey
  next : e.session.crypto.sequenceNumberI = counter n

/-- The next packet, when it arrives. -/
theorem CaughtUp.expected {authKey : Tag} {n : ℕ} {e : Endpoint} (h : CaughtUp authKey n e) :
    Crypto.Expected P o (e.deliver (Crypto.packetAt P o authKey n [0]).wire).session.crypto.authKey
        (e.deliver (Crypto.packetAt P o authKey n [0]).wire).session.crypto.sequenceNumberI
        (Crypto.packetAt P o authKey n [0]) ∧
      (e.deliver (Crypto.packetAt P o authKey n [0]).wire).session.conn.incoming
        = (Crypto.packetAt P o authKey n [0]).wire ++ [] := by
  constructor
  · show Crypto.Expected P o e.session.crypto.authKey e.session.crypto.sequenceNumberI _
    rw [h.key, h.next]
    exact Crypto.expected_packetAt (List.cons_ne_nil _ _) (by decide)
  · show e.session.conn.incoming ++ _ = _
    rw [h.incoming, List.nil_append, List.append_nil]

theorem CaughtUp.step {authKey : Tag} {n : ℕ} {e : Endpoint} (h : CaughtUp authKey n e)
    (hn : n + 1 < 2 ^ 31) :
    CaughtUp authKey (n + 1) (Machine.run (Endpoint.step P o) e
      [.arrive (Crypto.packetAt P o authKey n [0]).wire, .recv 1]).1 := by
  obtain ⟨he, hin⟩ := h.expected (P := P) (o := o)
  have hseq : e.session.crypto.sequenceNumberI + 1 + 1 = counter (n + 1) := by
    rw [h.next, counter_succ]
  have hne : e.session.crypto.sequenceNumberI + 1 + 1 ≠ 0 := by
    rw [hseq]
    exact counter_ne_zero (Nat.succ_pos n) hn
  have hrun := Crypto.recv_of_expected
    (e := e.deliver (Crypto.packetAt P o authKey n [0]).wire) 1 h.empty he hin hne
  have hstep : (Machine.run (Endpoint.step P o) e
      [.arrive (Crypto.packetAt P o authKey n [0]).wire, .recv 1]).1
      = Exec.endState ((Crypto.recv P o 1).run
          (e.deliver (Crypto.packetAt P o authKey n [0]).wire)) := rfl
  rw [hstep, hrun]
  exact ⟨rfl, rfl, h.key, hseq⟩

theorem caughtUp_run (k : SessionKeys) {n : ℕ} (hn : n < 2 ^ 31) :
    CaughtUp k.authKey n
      (Machine.run (Endpoint.step P o) (Endpoint.new k) (byteByByte P o k.authKey n)).1 := by
  induction n with
  | zero => exact ⟨rfl, rfl, rfl, rfl⟩
  | succ n ih =>
    rw [byteByByte, Machine.run_append]
    exact (ih (by omega)).step hn

/-- The last packet throws, and the call after it returns its byte. -/
theorem CaughtUp.last {authKey : Tag} {n : ℕ} {e : Endpoint} (h : CaughtUp authKey n e)
    (hn : n + 1 = 2 ^ 31) :
    ∃ m e' e'' bs,
      (Crypto.recv P o 1).run (e.deliver (Crypto.packetAt P o authKey n [0]).wire)
        = .error (.exSeqNumOverflow m) e' ∧
      ¬ Untouched (e.deliver (Crypto.packetAt P o authKey n [0]).wire) e' ∧
      (Crypto.recv P o 1).run e' = .ok bs e'' ∧ bs.length = 1 := by
  obtain ⟨he, hin⟩ := h.expected (P := P) (o := o)
  have hseq : e.session.crypto.sequenceNumberI + 1 + 1 = 0 := by
    rw [h.next, counter_succ, hn]
    decide
  have hrun := recv_lastPacket (e := e.deliver (Crypto.packetAt P o authKey n [0]).wire) 1 h.empty
    he hin hseq
  have hfull := Crypto.accept_remaining (P := P) (o := o)
    (e := e.deliver (Crypto.packetAt P o authKey n [0]).wire) [] he.nonempty
  refine ⟨_, _, _, _, hrun, fun hu => ?_, Crypto.recv_unread 1 hfull, ?_⟩
  · exact hfull ((congrArg RecvBuffer.remaining hu.buf).trans h.empty)
  · rw [Crypto.accept, RecvBuffer.unread_fill, List.length_take, Crypto.plaintextOf_length]
    rfl

/-- The events that bring a session to its last packet. -/
def lastPacketRun (n : ℕ) : List Station.Event :=
  byteByByte .sample .little (SessionKeys.sample 1).authKey n
    ++ [.arrive (Crypto.packetAt .sample .little (SessionKeys.sample 1).authKey n [0]).wire]

/-- **A byte of the packet that threw is returned.**  After `2 ^ 31 - 1` packets of one byte another
one arrives: `recv` throws with its plaintext in the buffer, and the next call hands it out. -/
theorem last_packet_returned :
    ∃ m e' e'' bs,
      (Crypto.recv .sample .little 1).run (Machine.run (Endpoint.step .sample .little)
        (Endpoint.new (.sample 1)) (lastPacketRun (2 ^ 31 - 1))).1
        = .error (.exSeqNumOverflow m) e' ∧
      ¬ Untouched (Machine.run (Endpoint.step .sample .little) (Endpoint.new (.sample 1))
        (lastPacketRun (2 ^ 31 - 1))).1 e' ∧
      (Crypto.recv .sample .little 1).run e' = .ok bs e'' ∧ bs.length = 1 := by
  generalize hn : 2 ^ 31 - 1 = n
  rw [lastPacketRun, Machine.run_append]
  exact (caughtUp_run (.sample 1) (by omega)).last (by omega)

end Cybrg
