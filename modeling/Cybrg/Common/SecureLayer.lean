import Cybrg.Common.Crypto

/-!
# What one call of the secure layer can do

Every later result about sessions goes through the lemmas of this file, and none of them unfolds
`send` or `recv` again:

* `receivePacket_ok`, `receivePacket_of_expected` — a packet is received exactly when it meets
  `Expected`: both tags right, the two sequence numbers next in line, a payload of the announced
  size between one byte and `BUFFER_SIZE`;
* `recv_cases` — the four ways a call of `recv` can end;
* `send_cases`, `send_lossless` — what a call of `send` leaves behind;
* `RecvBuffer.unread` with `copyOut_eq`, `unread_advance`, `unread_fill` — the receive buffer as
  the queue of bytes it stands for.
-/

namespace Cybrg

open Octets

/-! ### The receive buffer as a queue -/

namespace RecvBuffer

theorem unread_of_empty {b : RecvBuffer} (h : b.remaining = 0) : b.unread = [] := by
  rw [unread, h, List.take_zero]

theorem copyOut_eq (b : RecvBuffer) (size : ℕ) : b.copyOut size = b.unread.take size := by
  rw [copyOut, unread, List.take_take, count]
  congr 1
  split <;> omega

theorem unread_advance (b : RecvBuffer) (size : ℕ) :
    (b.advance size).unread = b.unread.drop size := by
  simp only [advance, unread, count, List.drop_take, List.drop_drop]
  split
  · rw [show b.remaining - b.remaining = 0 by omega, show b.remaining - size = 0 by omega,
      List.take_zero, List.take_zero]
  · rfl

@[simp] theorem unread_fill (b : RecvBuffer) (plaintext : Bytes) :
    (b.fill plaintext).unread = plaintext := by
  simp [fill, unread]

/-- Bytes are left in the array whenever some are counted. -/
theorem unread_ne_nil {b : RecvBuffer} (hb : b.WF) (h : b.remaining ≠ 0) : b.unread ≠ [] := by
  intro hnil
  have hlen := congrArg List.length hnil
  have hw := hb.1
  simp only [unread, List.length_take, List.length_drop, hb.2, List.length_nil] at hlen
  omega

theorem WF.initial : ({} : RecvBuffer).WF := by
  constructor <;> simp

theorem WF.fill {b : RecvBuffer} (hb : b.WF) {plaintext : Bytes}
    (h : plaintext.length ≤ bufferSize) : (b.fill plaintext).WF := by
  refine ⟨by simpa [RecvBuffer.fill] using h, ?_⟩
  simp only [RecvBuffer.fill, List.length_append, List.length_drop, hb.2]
  omega

theorem WF.advance {b : RecvBuffer} (hb : b.WF) (size : ℕ) : (b.advance size).WF := by
  have hw := hb.1
  refine ⟨?_, hb.2⟩
  simp only [RecvBuffer.advance, count]
  split <;> omega

end RecvBuffer

namespace Crypto

variable {P : Primitives} {o : ByteOrder}

/-! ### Reading a packet -/

theorem recvAll_ok {n : ℤ} {e : Ex} {s s' : Session} {bs : Bytes}
    (h : (recvAll n e).run s = .ok bs s') :
    (bs.length : ℤ) = n ∧ bs ≠ [] ∧ ∃ rest, s.conn.incoming = bs ++ rest ∧
      s' = { s with conn := { s.conn with incoming := rest } } := by
  obtain ⟨_, _, h₁, h⟩ := Exec.bind_ok h
  obtain ⟨_, hc, rfl⟩ := Exec.zoom_ok h₁
  obtain ⟨rfl, hne, rfl⟩ := Connection.recv_ok hc
  obtain ⟨_, _, h₂, h⟩ := Exec.bind_ok h
  obtain ⟨hlen, rfl⟩ := Exec.require_ok h₂
  cases h
  exact ⟨hlen, hne, _, (List.take_append_drop _ _).symm, rfl⟩

theorem recvAll_append {bs rest : Bytes} {e : Ex} {s : Session}
    (h : s.conn.incoming = bs ++ rest) (hne : bs ≠ []) :
    (recvAll bs.length e).run s
      = .ok bs { s with conn := { s.conn with incoming := rest } } := by
  have hr := Connection.recv_append h hne
  simp only [recvAll, onConn, EStateM.run_bind, Exec.run_zoom, Int.toNat_natCast, hr,
    Exec.run_require, if_true, EStateM.run_pure]

theorem checkHeader_ok {bs : Bytes} {verify : Tag → UInt32 → Except Ex Unit} {s s' : Session}
    {u : Unit} (h : (checkHeader bs verify).run s = .ok u s') :
    verify s.crypto.authKey s.crypto.sequenceNumberI = .ok () ∧
      s' = { s with
        crypto := { s.crypto with sequenceNumberI := s.crypto.sequenceNumberI + 1 }
        hist := { s.hist with verified := s.hist.verified ++ [bs] } } := by
  obtain ⟨_, _, h₀, h⟩ := Exec.bind_ok h
  cases h₀
  obtain ⟨_, _, h₁, h⟩ := Exec.bind_ok h
  cases h₁
  obtain ⟨_, _, h₂, h⟩ := Exec.bind_ok h
  obtain ⟨hv, rfl⟩ := Exec.ofExcept_ok h₂
  cases h
  exact ⟨hv, rfl⟩

theorem checkHeader_of_ok {bs : Bytes} {verify : Tag → UInt32 → Except Ex Unit} {s : Session}
    (h : verify s.crypto.authKey s.crypto.sequenceNumberI = .ok ()) :
    (checkHeader bs verify).run s = .ok () { s with
      crypto := { s.crypto with sequenceNumberI := s.crypto.sequenceNumberI + 1 }
      hist := { s.hist with verified := s.hist.verified ++ [bs] } } := by
  simp only [checkHeader, EStateM.run_bind, EStateM.run_get, EStateM.run_modify,
    Exec.run_ofExcept, h]

/-- What an object with authentication key `authKey` and receiving counter `n` demands of the
next packet. -/
structure Expected (P : Primitives) (o : ByteOrder) (authKey : Tag) (n : UInt32) (p : Packet) :
    Prop where
  verified : p.Verified P o authKey
  size : p.rocket.payloadSize.toNat = p.payload.length
  nonempty : p.payload ≠ []
  bounded : p.payload.length ≤ bufferSize
  rocketSeq : p.rocket.sequenceNumber = n
  spacecraftSeq : p.spacecraft.sequenceNumber = n + 1

/-- The session after `receivePacket` has returned `p`, `rest` being what is left to read. -/
def received (o : ByteOrder) (s : Session) (p : Packet) (rest : Bytes) : Session where
  crypto := { s.crypto with sequenceNumberI := s.crypto.sequenceNumberI + 1 + 1 }
  conn := { s.conn with incoming := rest }
  hist := { s.hist with verified := s.hist.verified ++ p.macInputs o }

theorem receivePacket_ok {s s' : Session} {p : Packet}
    (h : (receivePacket P o).run s = .ok p s') :
    Expected P o s.crypto.authKey s.crypto.sequenceNumberI p ∧
      ∃ rest, s.conn.incoming = p.wire ++ rest ∧ s' = received o s p rest := by
  obtain ⟨ri, _, h₁, h⟩ := Exec.bind_ok h
  obtain ⟨hri, -, rest₁, hin₁, rfl⟩ := recvAll_ok h₁
  obtain ⟨_, _, h₂, h⟩ := Exec.bind_ok h
  obtain ⟨hv₁, rfl⟩ := checkHeader_ok h₂
  obtain ⟨si, _, h₃, h⟩ := Exec.bind_ok h
  obtain ⟨hsi, -, rest₂, hin₂, rfl⟩ := recvAll_ok h₃
  obtain ⟨enc, _, h₄, h⟩ := Exec.bind_ok h
  obtain ⟨henc, hne, rest₃, hin₃, rfl⟩ := recvAll_ok h₄
  obtain ⟨_, _, h₅, h⟩ := Exec.bind_ok h
  obtain ⟨hv₂, rfl⟩ := checkHeader_ok h₅
  cases h
  obtain ⟨ht₁, hsize, hq₁⟩ := Rocket.verify_ok_iff.mp hv₁
  obtain ⟨ht₂, hq₂⟩ := SpaceCraft.verify_ok_iff.mp hv₂
  rw [Rocket.getPayloadSize_of_le hsize] at henc
  refine ⟨⟨⟨ht₁, ht₂⟩, by simp only; omega, hne, by simp only; omega, hq₁, hq₂⟩, rest₃, ?_, ?_⟩
  · rw [Packet.wire, Rocket.wire_ofImage o ri (by simpa using hri),
      SpaceCraft.wire_ofImage o si (by simpa using hsi)]
    simp only at hin₂ hin₃
    rw [hin₁, hin₂, hin₃, List.append_assoc, List.append_assoc]
  · simp [received, Packet.macInputs]

/-- **A packet that meets the expectations is received.** -/
theorem receivePacket_of_expected {s : Session} {p : Packet} {rest : Bytes}
    (he : Expected P o s.crypto.authKey s.crypto.sequenceNumberI p)
    (h : s.conn.incoming = p.wire ++ rest) :
    (receivePacket P o).run s = .ok p (received o s p rest) := by
  have hr : s.conn.incoming = p.rocket.wire ++ (p.spacecraft.wire ++ (p.payload ++ rest)) := by
    rw [h, Packet.wire]; simp only [List.append_assoc]
  have hpos : ∀ {bs : Bytes} {n : ℕ}, bs.length = n → 0 < n → bs ≠ [] := by
    intro bs n hn h0 hnil
    subst hnil
    simp at hn
    omega
  have hv₁ : p.rocket.verify P o s.crypto.authKey s.crypto.sequenceNumberI = .ok () :=
    Rocket.verify_ok_iff.mpr ⟨he.verified.1, by rw [he.size]; exact he.bounded, he.rocketSeq⟩
  have hv₂ : p.spacecraft.verify P o s.crypto.authKey (s.crypto.sequenceNumberI + 1) p.payload
      = .ok () := SpaceCraft.verify_ok_iff.mpr ⟨he.verified.2, he.spacecraftSeq⟩
  have hsz : p.rocket.getPayloadSize = p.payload.length := by
    rw [Rocket.getPayloadSize_of_le (by rw [he.size]; exact he.bounded), he.size]
  have h₁ := recvAll_append (e := .exRecv "can not Crypto::recv() rocket") hr
    (hpos p.rocket.wire_length (by decide))
  rw [Rocket.wire_length] at h₁
  unfold receivePacket
  rw [Exec.bind_of_ok h₁]
  simp only [Rocket.ofImage_wire]
  rw [Exec.bind_of_ok (checkHeader_of_ok hv₁)]
  have h₃ := recvAll_append (e := .exRecv "can not Crypto::recv() spacecraft")
    (s := { s with
      crypto := { s.crypto with sequenceNumberI := s.crypto.sequenceNumberI + 1 }
      conn := { s.conn with incoming := p.spacecraft.wire ++ (p.payload ++ rest) }
      hist := { s.hist with verified := s.hist.verified ++ [p.rocket.macInput o] } }) rfl
    (hpos p.spacecraft.wire_length (by decide))
  rw [SpaceCraft.wire_length] at h₃
  rw [Exec.bind_of_ok h₃, hsz]
  rw [Exec.bind_of_ok (recvAll_append rfl he.nonempty)]
  simp only [SpaceCraft.ofImage_wire]
  rw [Exec.bind_of_ok (checkHeader_of_ok hv₂)]
  simp [received, Packet.macInputs]

/-- How a read can fail. -/
theorem recvAll_error {n : ℤ} {e x : Ex} {s s' : Session}
    (h : (recvAll n e).run s = .error x s') :
    (x = .exRecv "can not recv()" ∨ x = e) ∧ s'.hist = s.hist := by
  rcases Exec.bind_error h with h₁ | ⟨_, _, h₁, h⟩
  · obtain ⟨_, hc, rfl⟩ := Exec.zoom_error h₁
    exact ⟨.inl (Connection.recv_error hc), rfl⟩
  · obtain ⟨_, _, rfl⟩ := Exec.zoom_ok h₁
    rcases Exec.bind_error h with h₂ | ⟨_, _, -, h⟩
    · obtain ⟨-, rfl, rfl⟩ := Exec.require_error h₂
      exact ⟨.inr rfl, rfl⟩
    · cases h

theorem checkHeader_error {bs : Bytes} {verify : Tag → UInt32 → Except Ex Unit} {s s' : Session}
    {x : Ex} (h : (checkHeader bs verify).run s = .error x s') :
    verify s.crypto.authKey s.crypto.sequenceNumberI = .error x ∧ s'.hist = s.hist := by
  obtain h₀ | ⟨_, _, h₀, h⟩ := Exec.bind_error h
  · cases h₀
  cases h₀
  obtain h₁ | ⟨_, _, h₁, h⟩ := Exec.bind_error h
  · cases h₁
  cases h₁
  obtain h₂ | ⟨_, _, -, h⟩ := Exec.bind_error h
  · obtain ⟨hv, rfl⟩ := Exec.ofExcept_error h₂
    exact ⟨hv, rfl⟩
  · cases h

/-- **A packet that is refused**: at most its `Rocket` was found right, with the number next in
line, and the exception is not the one about the end of the numbers. -/
theorem receivePacket_error {s s' : Session} {x : Ex}
    (h : (receivePacket P o).run s = .error x s') :
    (∀ m, x ≠ .exSeqNumOverflow m) ∧
      (s'.hist.verified = s.hist.verified ∨
        ∃ r : Rocket, r.sequenceNumber = s.crypto.sequenceNumberI ∧
          s'.hist.verified = s.hist.verified ++ [r.macInput o]) := by
  have hread : ∀ {x : Ex} {m₁ : String}, x = .exRecv "can not recv()" ∨ x = .exRecv m₁ →
      ∀ m, x ≠ .exSeqNumOverflow m := by
    intro x m₁ hx m hm
    rcases hx with rfl | rfl <;> cases hm
  obtain h₁ | ⟨_, _, h₁, h⟩ := Exec.bind_error h
  · obtain ⟨hx, hh⟩ := recvAll_error h₁
    exact ⟨hread hx, .inl (by rw [hh])⟩
  obtain ⟨-, -, _, -, rfl⟩ := recvAll_ok h₁
  obtain h₂ | ⟨_, _, h₂, h⟩ := Exec.bind_error h
  · obtain ⟨hv, hh⟩ := checkHeader_error h₂
    exact ⟨fun m hm => Rocket.verify_not_overflow m (hm ▸ hv), .inl (by rw [hh])⟩
  obtain ⟨hv₁, rfl⟩ := checkHeader_ok h₂
  -- the rocket is accepted: from here on it is the last header found right
  have hrocket := (Rocket.verify_ok_iff.mp hv₁).2.2
  obtain h₃ | ⟨_, _, h₃, h⟩ := Exec.bind_error h
  · obtain ⟨hx, hh⟩ := recvAll_error h₃
    exact ⟨hread hx, .inr ⟨_, hrocket, by rw [hh]⟩⟩
  obtain ⟨-, -, _, -, rfl⟩ := recvAll_ok h₃
  obtain h₄ | ⟨_, _, h₄, h⟩ := Exec.bind_error h
  · obtain ⟨hx, hh⟩ := recvAll_error h₄
    exact ⟨hread hx, .inr ⟨_, hrocket, by rw [hh]⟩⟩
  obtain ⟨-, -, _, -, rfl⟩ := recvAll_ok h₄
  obtain h₅ | ⟨_, _, -, h⟩ := Exec.bind_error h
  · obtain ⟨hv, hh⟩ := checkHeader_error h₅
    exact ⟨fun m hm => SpaceCraft.verify_not_overflow m (hm ▸ hv), .inr ⟨_, hrocket, by rw [hh]⟩⟩
  · cases h

/-- The parts of a session that reading and checking a packet cannot change. -/
def held (s : Session) :=
  (s.crypto.ctxE, s.crypto.ctxD, s.crypto.authKey, s.crypto.sequenceNumberO, s.hist.sent,
    s.hist.accepted, s.conn.outgoing, s.conn.sendRets)

theorem recvAll_held (n : ℤ) (e : Ex) :
    Exec.Leaves held (recvAll n e) := by
  refine .bind (.zoom_part (g := fun c => (c.outgoing, c.sendRets)) ?_ ?_) fun bs => ?_
  · intro s c hc
    simp only [Prod.mk.injEq] at hc
    simp only [held, hc]
  · intro c
    rw [Connection.recv_run]
    split <;> rfl
  · exact .bind (.require _ _) fun _ => .pure _

theorem checkHeader_held (bs : Bytes) (verify : Tag → UInt32 → Except Ex Unit) :
    Exec.Leaves held (checkHeader bs verify) := by
  refine .bind .get fun s => ?_
  refine .bind (.modify fun _ => rfl) fun _ => ?_
  exact .bind (.ofExcept _) fun _ => .modify fun _ => rfl

/-- **Reading and checking a packet touches neither the cipher contexts nor what was accepted
before**, however it ends. -/
theorem receivePacket_held : Exec.Leaves held (receivePacket P o) := by
  refine .bind (recvAll_held _ _) fun _ => ?_
  refine .bind (checkHeader_held _ _) fun _ => ?_
  refine .bind (recvAll_held _ _) fun _ => ?_
  refine .bind (recvAll_held _ _) fun _ => ?_
  exact .bind (checkHeader_held _ _) fun _ => .pure _

/-! ### The four ends of `recv` -/

/-- What `decrypt` makes of the payload of a packet. -/
def plaintextOf (P : Primitives) (c : Crypto) (p : Packet) : Bytes := (c.decrypt P p.payload).1

@[simp] theorem plaintextOf_length (c : Crypto) (p : Packet) :
    (plaintextOf P c p).length = p.payload.length := by
  simp [plaintextOf, decrypt]

/-- The endpoint after the refill branch has accepted `p`. -/
def accept (P : Primitives) (o : ByteOrder) (e : Endpoint) (p : Packet) (rest : Bytes) :
    Endpoint where
  session := {
    crypto := { (e.session.crypto.decrypt P p.payload).2 with
      sequenceNumberI := e.session.crypto.sequenceNumberI + 1 + 1 }
    conn := { e.session.conn with incoming := rest }
    hist := { e.session.hist with
      verified := e.session.hist.verified ++ p.macInputs o
      accepted := e.session.hist.accepted ++ [⟨p, plaintextOf P e.session.crypto p⟩] } }
  buf := e.buf.fill (plaintextOf P e.session.crypto p)

/-- An accepted packet is in the buffer. -/
theorem accept_remaining {e : Endpoint} {p : Packet} (rest : Bytes) (hne : p.payload ≠ []) :
    (accept P o e p rest).buf.remaining ≠ 0 := by
  have hlen : (accept P o e p rest).buf.remaining = p.payload.length :=
    plaintextOf_length e.session.crypto p
  rw [hlen]
  exact fun h => hne (List.length_eq_zero_iff.mp h)

theorem feed_of_ok {e : Endpoint} {p : Packet} {rest : Bytes}
    (h : (receivePacket P o).run e.session = .ok p (received o e.session p rest)) :
    (feed P o).run e =
      if e.session.crypto.sequenceNumberI + 1 + 1 ≠ 0 then .ok () (accept P o e p rest)
      else .error (.exSeqNumOverflow "Crypto::recv(): sequence number overflow")
        (accept P o e p rest) := by
  simp only [feed, onSession, decryptPacket, EStateM.run_bind, Exec.run_zoom, h, EStateM.run_get,
    EStateM.run_modify, EStateM.run_pure, Exec.run_require]
  rfl

theorem feed_of_error {e : Endpoint} {x : Ex} {s : Session}
    (h : (receivePacket P o).run e.session = .error x s) :
    (feed P o).run e = .error x { e with session := s } := by
  simp only [feed, onSession, EStateM.run_bind, Exec.run_zoom, h]

theorem takeOut_run (size : ℕ) (e : Endpoint) :
    (takeOut size).run e = .ok (e.buf.unread.take size) { e with buf := e.buf.advance size } := by
  rw [← RecvBuffer.copyOut_eq]
  rfl

/-- A call that finds unread bytes hands some of them out and reads nothing. -/
theorem recv_unread {e : Endpoint} (size : ℕ) (h : e.buf.remaining ≠ 0) :
    (recv P o size).run e
      = .ok (e.buf.unread.take size) { e with buf := e.buf.advance size } := by
  simp only [recv, EStateM.run_bind, EStateM.run_get, if_neg h, takeOut_run]

theorem recv_empty {e : Endpoint} (size : ℕ) (h : e.buf.remaining = 0) :
    (recv P o size).run e = (feed P o >>= fun _ => takeOut size).run e := by
  simp only [recv, EStateM.run_bind, EStateM.run_get, if_pos h]

/-- A call that finds the buffer empty and the expected packet on the connection. -/
theorem recv_of_expected {e : Endpoint} (size : ℕ) {p : Packet} {rest : Bytes}
    (h : e.buf.remaining = 0)
    (he : Expected P o e.session.crypto.authKey e.session.crypto.sequenceNumberI p)
    (hin : e.session.conn.incoming = p.wire ++ rest)
    (hseq : e.session.crypto.sequenceNumberI + 1 + 1 ≠ 0) :
    (recv P o size).run e
      = .ok ((plaintextOf P e.session.crypto p).take size)
          { accept P o e p rest with buf := (accept P o e p rest).buf.advance size } := by
  have hf := feed_of_ok (receivePacket_of_expected he hin)
  rw [if_pos hseq] at hf
  rw [recv_empty size h, Exec.bind_of_ok hf, takeOut_run, accept, RecvBuffer.unread_fill]

/-- The ways in which a call of `recv` can end. -/
inductive RecvEnds (P : Primitives) (o : ByteOrder) (size : ℕ) (e : Endpoint) :
    EStateM.Result Ex Endpoint Bytes → Prop
  /-- Some bytes were left over from an earlier packet. -/
  | unread (h : e.buf.remaining ≠ 0) :
      RecvEnds P o size e (.ok (e.buf.unread.take size) { e with buf := e.buf.advance size })
  /-- Reading or checking the next packet threw. -/
  | rejected (h : e.buf.remaining = 0) {x : Ex} {s : Session}
      (hs : (receivePacket P o).run e.session = .error x s) :
      RecvEnds P o size e (.error x { e with session := s })
  /-- The next packet was accepted. -/
  | accepted (h : e.buf.remaining = 0) {p : Packet} {rest : Bytes}
      (he : Expected P o e.session.crypto.authKey e.session.crypto.sequenceNumberI p)
      (hin : e.session.conn.incoming = p.wire ++ rest)
      (hseq : e.session.crypto.sequenceNumberI + 1 + 1 ≠ 0) :
      RecvEnds P o size e (.ok ((plaintextOf P e.session.crypto p).take size)
        { accept P o e p rest with buf := (accept P o e p rest).buf.advance size })
  /-- The next packet was accepted and decrypted, and then the counter was found wrapped. -/
  | wrapped (h : e.buf.remaining = 0) {p : Packet} {rest : Bytes}
      (he : Expected P o e.session.crypto.authKey e.session.crypto.sequenceNumberI p)
      (hin : e.session.conn.incoming = p.wire ++ rest)
      (hseq : e.session.crypto.sequenceNumberI + 1 + 1 = 0) :
      RecvEnds P o size e (.error
        (.exSeqNumOverflow "Crypto::recv(): sequence number overflow") (accept P o e p rest))

/-- **Every call of `recv` ends in one of these ways.** -/
theorem recv_cases (P : Primitives) (o : ByteOrder) (size : ℕ) (e : Endpoint) :
    RecvEnds P o size e ((recv P o size).run e) := by
  by_cases h : e.buf.remaining = 0
  · cases hs : (receivePacket P o).run e.session with
    | error x s =>
      rw [recv_empty size h, Exec.bind_of_error (feed_of_error hs)]
      exact .rejected h hs
    | ok p s =>
      obtain ⟨he, rest, hin, rfl⟩ := receivePacket_ok hs
      by_cases hseq : e.session.crypto.sequenceNumberI + 1 + 1 = 0
      · have hf := feed_of_ok hs
        rw [if_neg (by simpa using hseq)] at hf
        rw [recv_empty size h, Exec.bind_of_error hf]
        exact .wrapped h he hin hseq
      · rw [recv_of_expected size h he hin hseq]
        exact .accepted h he hin hseq
  · rw [recv_unread size h]
    exact .unread h

/-! ### Building and sending a packet -/

/-- The packet with sequence numbers `n` and `n + 1` around an encrypted payload. -/
def packetWith (P : Primitives) (o : ByteOrder) (authKey : Tag) (n : UInt32)
    (encryptedPayload : Bytes) : Packet where
  rocket := (Rocket.new (UInt32.ofNat encryptedPayload.length) n).computehmac P o authKey
  spacecraft := (SpaceCraft.new (n + 1)).computehmac P o authKey encryptedPayload
  payload := encryptedPayload

theorem prepare_eq (c : Crypto) (plaintext : Bytes) :
    c.prepare P o plaintext =
      (packetWith P o c.authKey c.sequenceNumberO (c.ctxE.encryptUpdate P plaintext).1,
        { c with
          ctxE := (c.ctxE.encryptUpdate P plaintext).2
          sequenceNumberO := c.sequenceNumberO + 1 + 1 }) := by
  simp [prepare, encrypt, packetWith]

/-- The packet that `send` builds from a plaintext. -/
def packetOf (P : Primitives) (o : ByteOrder) (c : Crypto) (plaintext : Bytes) : Packet :=
  packetWith P o c.authKey c.sequenceNumberO (c.ctxE.encryptUpdate P plaintext).1

@[simp] theorem packetOf_payload (c : Crypto) (plaintext : Bytes) :
    (packetOf P o c plaintext).payload = (c.ctxE.encryptUpdate P plaintext).1 := rfl

/-- The packet that is built around `n` is what a counter at `n` expects, on a host of the same
byte order and under the same key. -/
theorem expected_packetWith {authKey : Tag} {n : UInt32} {enc : Bytes} (hne : enc ≠ [])
    (hle : enc.length ≤ bufferSize) : Expected P o authKey n (packetWith P o authKey n enc) := by
  have hb : bufferSize = 4096 := rfl
  refine ⟨⟨rfl, rfl⟩, ?_, hne, hle, rfl, rfl⟩
  show (UInt32.ofNat enc.length).toNat = enc.length
  rw [UInt32.toNat_ofNat', Nat.mod_eq_of_lt (by omega)]

/-- The session after `send` has built its packet. -/
def sealed (P : Primitives) (o : ByteOrder) (s : Session) (plaintext : Bytes) : Session where
  crypto := { s.crypto with
    ctxE := (s.crypto.ctxE.encryptUpdate P plaintext).2
    sequenceNumberO := s.crypto.sequenceNumberO + 1 + 1 }
  conn := s.conn
  hist := { s.hist with sent := s.hist.sent ++ [packetOf P o s.crypto plaintext] }

/-- **However a call of `send` ends**, the packet has been built and only the sending side of the
connection has changed since. -/
theorem send_cases (P : Primitives) (o : ByteOrder) (plaintext : Bytes) (s : Session) :
    ∃ c, c.incoming = s.conn.incoming ∧
      Exec.endState ((send P o plaintext).run s) = { sealed P o s plaintext with conn := c } := by
  have hsend : ∀ bs, Exec.Within (fun s s' : Session => ∃ c, c.incoming = s.conn.incoming ∧
      s' = { s with conn := c }) (onConn (Connection.send bs)) := by
    intro bs
    exact .zoom (S := fun c c' => c'.incoming = c.incoming) (fun s c h => ⟨c, h, rfl⟩)
      fun c => Connection.send_incoming bs c
  have hR : Exec.Path (fun s s' : Session => ∃ c, c.incoming = s.conn.incoming ∧
      s' = { s with conn := c }) := by
    refine ⟨fun s => ⟨s.conn, rfl, rfl⟩, ?_⟩
    rintro s _ _ ⟨c, hc, rfl⟩ ⟨d, hd, rfl⟩
    exact ⟨d, hd.trans hc, rfl⟩
  unfold send
  rw [Exec.bind_of_ok (EStateM.run_get s), prepare_eq]
  rw [Exec.bind_of_ok (EStateM.run_modify _ s)]
  refine Exec.Within.bind hR (hsend _) (fun _ => ?_) (sealed P o s plaintext)
  refine .bind hR (hsend _) fun _ => ?_
  refine .bind hR (hsend _) fun _ => ?_
  exact .bind hR (.require hR _ _) fun _ => .bind hR (.require hR _ _) fun _ => .pure hR _

/-- A call of `send` that returns has not used up its counter. -/
theorem send_ok {plaintext : Bytes} {s s' : Session} {n : ℤ}
    (h : (send P o plaintext).run s = .ok n s') : s.crypto.sequenceNumberO + 1 + 1 ≠ 0 := by
  unfold send at h
  rw [Exec.bind_of_ok (EStateM.run_get s), prepare_eq] at h
  rw [Exec.bind_of_ok (EStateM.run_modify _ s)] at h
  obtain ⟨_, _, -, h⟩ := Exec.bind_ok h
  obtain ⟨_, _, -, h⟩ := Exec.bind_ok h
  obtain ⟨_, _, -, h⟩ := Exec.bind_ok h
  obtain ⟨_, _, hseq, -⟩ := Exec.bind_ok h
  exact (Exec.require_ok hseq).1

/-- **The exception about the end of the numbers** comes only with the counter used up. -/
theorem send_overflow {plaintext : Bytes} {s s' : Session} {m : String}
    (h : (send P o plaintext).run s = .error (.exSeqNumOverflow m) s') :
    s.crypto.sequenceNumberO + 1 + 1 = 0 := by
  have hconn : ∀ {bs : Bytes} {t t' : Session},
      (onConn (Connection.send bs)).run t ≠ .error (.exSeqNumOverflow m) t' := by
    intro bs t t' hx
    obtain ⟨_, hc, -⟩ := Exec.zoom_error hx
    cases Connection.send_error hc
  unfold send at h
  rw [Exec.bind_of_ok (EStateM.run_get s), prepare_eq] at h
  rw [Exec.bind_of_ok (EStateM.run_modify _ s)] at h
  obtain h₁ | ⟨_, _, -, h⟩ := Exec.bind_error h
  · exact absurd h₁ hconn
  obtain h₂ | ⟨_, _, -, h⟩ := Exec.bind_error h
  · exact absurd h₂ hconn
  obtain h₃ | ⟨_, _, -, h⟩ := Exec.bind_error h
  · exact absurd h₃ hconn
  obtain h₄ | ⟨_, _, -, h⟩ := Exec.bind_error h
  · exact not_not.mp (Exec.require_error h₄).1
  obtain h₅ | ⟨_, _, -, h⟩ := Exec.bind_error h
  · cases (Exec.require_error h₅).2.1
  · cases h

/-- **A lossless connection gets the packet whole**, and only then is the counter tested. -/
theorem send_lossless_run {s : Session} {plaintext : Bytes} (hr : s.conn.sendRets = [])
    (hne : plaintext ≠ []) :
    ∃ n, (send P o plaintext).run s =
      if s.crypto.sequenceNumberO + 1 + 1 ≠ 0 then .ok n { sealed P o s plaintext with
        conn := s.conn.put (packetOf P o s.crypto plaintext).wire }
      else .error (.exSeqNumOverflow "Crypto::send(): sequence number overflow")
        { sealed P o s plaintext with
          conn := s.conn.put (packetOf P o s.crypto plaintext).wire } := by
  have hw : ∀ {bs : Bytes} {n : ℕ}, bs.length = n → 0 < n → bs ≠ [] := by
    intro bs n hn h0 hnil
    subst hnil
    simp at hn
    omega
  have henc : (packetOf P o s.crypto plaintext).payload ≠ [] :=
    hw (CipherCtx.encryptUpdate_length _ _ _) (List.length_pos_iff.mpr hne)
  generalize hp : packetOf P o s.crypto plaintext = p at henc ⊢
  have h₁ := Connection.send_lossless hr (hw p.rocket.wire_length (by decide))
  have h₂ := Connection.send_lossless (c := s.conn.put p.rocket.wire) hr
    (hw p.spacecraft.wire_length (by decide))
  have h₃ := Connection.send_lossless
    (c := s.conn.put (p.rocket.wire ++ p.spacecraft.wire)) hr henc
  have hrets : ∀ a b c : ℕ, (0 : ℤ) ≤ a ∧ (0 : ℤ) ≤ b ∧ (0 : ℤ) ≤ c := fun a b c => by omega
  refine ⟨p.rocket.wire.length + p.spacecraft.wire.length + p.payload.length, ?_⟩
  unfold send
  rw [Exec.bind_of_ok (EStateM.run_get s), prepare_eq, ← packetOf, hp]
  rw [Exec.bind_of_ok (EStateM.run_modify _ s)]
  by_cases hseq : s.crypto.sequenceNumberO + 1 + 1 ≠ 0
  · simp only [Rocket.image_htonl, SpaceCraft.image_htonl, onConn, EStateM.run_bind,
      Exec.run_zoom, h₁, h₂, Connection.put_put, h₃, Exec.run_require, if_pos hseq,
      if_pos (hrets _ _ _), EStateM.run_pure, Packet.wire, sealed, hp]
  · simp only [Rocket.image_htonl, SpaceCraft.image_htonl, onConn, EStateM.run_bind,
      Exec.run_zoom, h₁, h₂, Connection.put_put, h₃, Exec.run_require, if_neg hseq,
      Packet.wire, sealed, hp]

/-- Before the numbers end such a call returns. -/
theorem send_lossless {s : Session} {plaintext : Bytes} (hr : s.conn.sendRets = [])
    (hne : plaintext ≠ []) (hseq : s.crypto.sequenceNumberO + 1 + 1 ≠ 0) :
    ∃ n, (send P o plaintext).run s = .ok n { sealed P o s plaintext with
      conn := s.conn.put (packetOf P o s.crypto plaintext).wire } := by
  obtain ⟨n, hrun⟩ := send_lossless_run (P := P) (o := o) hr hne
  rw [if_pos hseq] at hrun
  exact ⟨n, hrun⟩

end Crypto

end Cybrg
