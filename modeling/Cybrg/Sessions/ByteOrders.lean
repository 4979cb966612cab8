import Cybrg.Common.SecureLayer
import Cybrg.Common.Transport

/-!
# A packet between two hosts

`Rocket::computehmac` and `SpaceCraft::computehmac` tag the integers as they lie in the memory of
their host, before `htonl`, and the receiver verifies them as they lie in its own memory, after
`ntohl`.

* `Crypto.Crosses` — a packet that is sent on one host and accepted on another;
* `Crypto.crosses_same` — hosts of one byte order;
* `Crypto.crosses_iff` — a packet crosses if and only if the hosts have the same byte order.
-/

namespace Cybrg

open Octets

namespace Crypto

variable {P : Primitives} {o o' : ByteOrder} {s : Session} {e : Endpoint} {plaintext rest : Bytes}

/-- The receiver expects the next packet of the sender, and has what the sender has put on the
connection, and then `rest`. -/
structure Faces (P : Primitives) (o : ByteOrder) (s : Session) (plaintext rest : Bytes)
    (e : Endpoint) : Prop where
  key : e.session.crypto.authKey = s.crypto.authKey
  number : e.session.crypto.sequenceNumberI = s.crypto.sequenceNumberO
  drained : e.buf.remaining = 0
  incoming : s.conn.outgoing ++ e.session.conn.incoming
    = (Exec.endState ((send P o plaintext).run s)).conn.outgoing ++ rest

/-- `Crypto::recv` accepts a packet with the size and the sequence numbers that it was sent with,
and returns, unless this was the last number. -/
def Crosses (P : Primitives) (o' : ByteOrder) (s : Session) (plaintext : Bytes) (size : ℕ)
    (e : Endpoint) : Prop :=
  ∃ p out, (Exec.endState ((recv P o' size).run e)).session.hist.accepted
      = e.session.hist.accepted ++ [⟨p, out⟩] ∧
    p.rocket.payloadSize.toNat = plaintext.length ∧
    p.rocket.sequenceNumber = s.crypto.sequenceNumberO ∧
    p.spacecraft.sequenceNumber = s.crypto.sequenceNumberO + 1 ∧
    (Exec.threw ((recv P o' size).run e) = true ↔ s.crypto.sequenceNumberO + 1 + 1 = 0)

/-- The size that a packet announces. -/
theorem packetOf_size (c : Crypto) (hfits : Fits plaintext) :
    (packetOf P o c plaintext).rocket.payloadSize.toNat = plaintext.length := by
  have hb : bufferSize = 4096 := rfl
  have hle := hfits.2
  show (UInt32.ofNat (c.ctxE.encryptUpdate P plaintext).1.length).toNat = plaintext.length
  rw [CipherCtx.encryptUpdate_length, UInt32.toNat_ofNat', Nat.mod_eq_of_lt (by omega)]

/-- The packet of the sender is the next one at the receiver. -/
theorem Faces.packet (h : Faces P o s plaintext rest e) (hr : s.conn.sendRets = [])
    (hne : plaintext ≠ []) :
    e.session.conn.incoming = (packetOf P o s.crypto plaintext).wire ++ rest := by
  obtain ⟨n, hrun⟩ := send_lossless_run (P := P) (o := o) hr hne
  have hin := h.incoming
  rw [hrun] at hin
  have hout : s.conn.outgoing ++ e.session.conn.incoming
      = s.conn.outgoing ++ ((packetOf P o s.crypto plaintext).wire ++ rest) := by
    split at hin <;> exact hin.trans (List.append_assoc _ _ _)
  exact List.append_cancel_left hout

/-- **A packet for a host of the same byte order** is accepted. -/
theorem crosses_same (h : Faces P o s plaintext rest e) (hr : s.conn.sendRets = [])
    (hfits : Fits plaintext) (size : ℕ) : Crosses P o s plaintext size e := by
  have hne : plaintext ≠ [] := List.ne_nil_of_length_pos hfits.1
  have hin := h.packet hr hne
  have hlen : (s.crypto.ctxE.encryptUpdate P plaintext).1.length = plaintext.length :=
    CipherCtx.encryptUpdate_length P s.crypto.ctxE plaintext
  have hexp : Expected P o e.session.crypto.authKey e.session.crypto.sequenceNumberI
      (packetOf P o s.crypto plaintext) := by
    rw [h.key, h.number]
    refine expected_packetWith ?_ (hlen.le.trans hfits.2)
    exact List.ne_nil_of_length_pos (by rw [hlen]; exact hfits.1)
  have hsize := packetOf_size (P := P) (o := o) s.crypto hfits
  by_cases hseq : s.crypto.sequenceNumberO + 1 + 1 = 0
  · have hfeed := feed_of_ok (receivePacket_of_expected hexp hin)
    rw [h.number, if_neg (not_not.mpr hseq)] at hfeed
    have hrun := (recv_empty size h.drained).trans (Exec.bind_of_error hfeed)
    refine ⟨packetOf P o s.crypto plaintext,
      plaintextOf P e.session.crypto (packetOf P o s.crypto plaintext), ?_, hsize, rfl, rfl, ?_⟩
    · rw [hrun]
      rfl
    · rw [hrun]
      exact iff_of_true rfl hseq
  · have hrun := recv_of_expected size h.drained hexp hin (by rw [h.number]; exact hseq)
    refine ⟨packetOf P o s.crypto plaintext,
      plaintextOf P e.session.crypto (packetOf P o s.crypto plaintext), ?_, hsize, rfl, rfl, ?_⟩
    · rw [hrun]
      rfl
    · rw [hrun]
      exact iff_of_false nofun hseq

/-- A packet that crosses has met the expectations of the receiver. -/
theorem Crosses.expected {size : ℕ} (h : Crosses P o' s plaintext size e)
    (hb : e.buf.remaining = 0) :
    ∃ p rest, Expected P o' e.session.crypto.authKey e.session.crypto.sequenceNumberI p ∧
      e.session.conn.incoming = p.wire ++ rest := by
  obtain ⟨p, out, haccepted, -⟩ := h
  have hends := recv_cases P o' size e
  generalize (recv P o' size).run e = r at haccepted hends
  cases hends with
  | unread hun => exact absurd hb hun
  | @rejected _ _ s' hs =>
    -- nothing was accepted
    have hheld : s'.hist.accepted = e.session.hist.accepted :=
      congrArg (·.2.2.2.2.2.1) (receivePacket_held.of_error hs)
    have hself : e.session.hist.accepted = e.session.hist.accepted ++ [⟨p, out⟩] :=
      hheld.symm.trans haccepted
    exact absurd (List.self_eq_append_right.mp hself) (List.cons_ne_nil _ _)
  | accepted _ he hin _ => exact ⟨_, _, he, hin⟩
  | wrapped _ he hin _ => exact ⟨_, _, he, hin⟩

/-- **A tag that is right on both hosts**: they have the same byte order. -/
theorem order_of_expected {p : Packet} {rest' : Bytes}
    (hinj : Set.InjOn (P.hmacSha256 s.crypto.authKey) {bs | bs.length = 8})
    (hfits : Fits plaintext)
    (he : Expected P o' s.crypto.authKey s.crypto.sequenceNumberO p)
    (hwire : (packetOf P o s.crypto plaintext).wire ++ rest = p.wire ++ rest') : o = o' := by
  -- the rocket is the one that was sent
  rw [Packet.wire, Packet.wire] at hwire
  simp only [List.append_assoc] at hwire
  obtain ⟨hrocket, -⟩ := List.append_inj hwire (by simp)
  have hsame : (packetOf P o s.crypto plaintext).rocket = p.rocket := by
    rw [← Rocket.ofImage_wire .big p.rocket, ← hrocket, Rocket.ofImage_wire]
  have htag : P.hmacSha256 s.crypto.authKey ((packetOf P o s.crypto plaintext).rocket.macInput o)
      = P.hmacSha256 s.crypto.authKey ((packetOf P o s.crypto plaintext).rocket.macInput o') := by
    have hright := he.verified.1
    rw [← hsame] at hright
    exact hright.symm
  have hbytes := hinj (by simp [Rocket.macInput]) (by simp [Rocket.macInput]) htag
  obtain ⟨hstored, -⟩ := List.append_inj hbytes (by simp)
  have hnat := packetOf_size (P := P) (o := o) s.crypto hfits
  have hb : bufferSize = 4096 := rfl
  obtain ⟨hpos, hle⟩ := hfits
  by_contra hne
  have hzero := (ByteOrder.store_cross hne (by omega) hstored).2 (by omega)
  rw [hzero] at hnat
  exact absurd hnat.symm (Nat.ne_of_gt hpos)

/-- **A packet crosses exactly between hosts of the same byte order.**  Tags are assumed to show what
a rocket has in its eight bytes. -/
theorem crosses_iff (hinj : Set.InjOn (P.hmacSha256 s.crypto.authKey) {bs | bs.length = 8})
    (h : Faces P o s plaintext rest e) (hr : s.conn.sendRets = []) (hfits : Fits plaintext)
    (size : ℕ) : Crosses P o' s plaintext size e ↔ o = o' := by
  constructor
  · intro hcrosses
    obtain ⟨p, rest', he, hin⟩ := hcrosses.expected h.drained
    rw [h.key, h.number] at he
    have hpacket := h.packet hr (List.ne_nil_of_length_pos hfits.1)
    exact order_of_expected hinj hfits he (hpacket.symm.trans hin)
  · rintro rfl
    exact crosses_same h hr hfits size

/-- The tags of the sample show the eight bytes of a rocket. -/
theorem sample_injOn (authKey : Tag) :
    Set.InjOn (Primitives.sample.hmacSha256 authKey) {bs | bs.length = 8} := by
  intro a ha b hb hab
  have hbegin : ∀ bs : Bytes, bs.length = 8 →
      (Primitives.sample.hmacSha256 authKey bs).toList.take 8 = bs := by
    intro bs hbs
    show ((bs ++ authKey.toList ++ List.replicate 32 0).take 32).take 8 = bs
    rw [List.take_take, List.append_assoc]
    exact List.take_left' hbs
  rw [← hbegin a ha, ← hbegin b hb, hab]

/-- A sender on a little-endian host. -/
def littleSender : Session := Session.new (.sample 1)

/-- Its receiver, when a packet with the one byte 1 has arrived. -/
def littleReceiver : Endpoint :=
  Endpoint.new (.sample 1)
    { incoming := (Exec.endState ((send .sample .little [1]).run littleSender)).conn.outgoing }

theorem littleReceiver_faces : Faces .sample .little littleSender [1] [] littleReceiver :=
  ⟨rfl, rfl, rfl, (List.append_nil _).symm⟩

/-- The packet is accepted on a little-endian host, and not on a big-endian one. -/
theorem crosses_little :
    (Crosses .sample .little littleSender [1] 1 littleReceiver ↔ ByteOrder.little = .little) ∧
      (Crosses .sample .big littleSender [1] 1 littleReceiver ↔ ByteOrder.little = .big) :=
  ⟨crosses_iff (sample_injOn _) littleReceiver_faces rfl (by decide) 1,
    crosses_iff (sample_injOn _) littleReceiver_faces rfl (by decide) 1⟩

/-- **A packet from a little-endian host is refused by a big-endian one.** -/
theorem little_refused_by_big :
    Faces .sample .little littleSender [1] [] littleReceiver ∧
      Exec.outcome ((recv .sample .big 1).run littleReceiver)
        = .error (.exBadHMAC "Rocket::verify(): bad hmac") ∧
      ¬ Crosses .sample .big littleSender [1] 1 littleReceiver := by
  have hnone : (Exec.endState ((recv .sample .big 1).run littleReceiver)).session.hist.accepted
      = [] := by
    decide +kernel
  refine ⟨littleReceiver_faces, by decide +kernel, ?_⟩
  rintro ⟨p, out, haccepted, -⟩
  rw [hnone] at haccepted
  exact absurd haccepted.symm (List.append_ne_nil_of_right_ne_nil _ (List.cons_ne_nil _ _))

end Crypto

end Cybrg
