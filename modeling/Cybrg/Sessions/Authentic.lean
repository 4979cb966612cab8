import Cybrg.Sessions.Carried

/-!
# What is authentic of the bytes that arrive

Any bytes can arrive at an end of a session: the network belongs to the attacker.  Calls of
`Crypto::recv` accept packets from them as long as each is the packet that is expected, and throw at
the first one that is not.  So an end reads one stream, whatever arrives.

* `Session.arriving` — the packets that are accepted;
* `Endpoint.authentic` — the bytes that calls of `recv` hand out before the first of them throws;
* `authentic_carries` — `Crypto` is a transport that carries this stream, for every end;
* `arriving_congr` — which packets are accepted does not depend on what they decrypt to.
-/

namespace Cybrg

open Octets

variable {P : Primitives} {o : ByteOrder}

/-! ### The packets that are accepted -/

/-- The packets that calls of `recv` accept one after the other, at most `n`.  The packet at which
the counter is found wrapped is not handed out. -/
def Session.arriving (P : Primitives) (o : ByteOrder) : ℕ → Session → List Packet
  | 0, _ => []
  | n + 1, s => match (Crypto.receivePacket P o).run s with
    | .ok p s' => if s'.crypto.sequenceNumberI = 0 then [] else p :: arriving P o n s'
    | .error _ _ => []

/-- All packets that are accepted: each of them has at least one byte. -/
def Session.accepts (P : Primitives) (o : ByteOrder) (s : Session) : List Packet :=
  s.arriving P o s.conn.incoming.length

/-- The bytes that calls of `recv` hand out before the first of them throws. -/
def Endpoint.authentic (P : Primitives) (o : ByteOrder) (e : Endpoint) : Bytes :=
  e.buf.unread ++ (e.session.crypto.ctxD.decryptUpdate P
    ((e.session.accepts P o).flatMap Packet.payload)).1

theorem Packet.length_wire_pos (p : Packet) : 0 < p.wire.length := by
  rw [Packet.wire, List.length_append, List.length_append, p.rocket.wire_length]
  simp [sizeofRocket]

namespace Session

/-- The packet that is expected is the first one. -/
theorem arriving_of_expected {s : Session} {p : Packet} {rest : Bytes} (n : ℕ)
    (he : Crypto.Expected P o s.crypto.authKey s.crypto.sequenceNumberI p)
    (h : s.conn.incoming = p.wire ++ rest) :
    s.arriving P o (n + 1) = if s.crypto.sequenceNumberI + 1 + 1 = 0 then []
      else p :: (Crypto.received o s p rest).arriving P o n := by
  rw [arriving, Crypto.receivePacket_of_expected he h]
  rfl

/-- **Which packets are accepted** depends on the authentication key, on the number that is expected
and on the bytes that arrive. -/
theorem arriving_congr {s s' : Session} (hkey : s.crypto.authKey = s'.crypto.authKey)
    (hseq : s.crypto.sequenceNumberI = s'.crypto.sequenceNumberI)
    (hin : s.conn.incoming = s'.conn.incoming) (n : ℕ) :
    s.arriving P o n = s'.arriving P o n := by
  induction n generalizing s s' with
  | zero => rfl
  | succ n ih =>
    cases hr : (Crypto.receivePacket P o).run s with
    | ok p t =>
      obtain ⟨he, rest, hwire, -⟩ := Crypto.receivePacket_ok hr
      have he' : Crypto.Expected P o s'.crypto.authKey s'.crypto.sequenceNumberI p := by
        rw [← hkey, ← hseq]
        exact he
      rw [arriving_of_expected n he hwire, arriving_of_expected n he' (hin ▸ hwire), hseq]
      split
      · rfl
      · exact congrArg _ (ih hkey (congrArg (· + 1 + 1) hseq) rfl)
    | error x t =>
      cases hr' : (Crypto.receivePacket P o).run s' with
      | error x' t' => rw [arriving, arriving, hr, hr']
      | ok p t' =>
        obtain ⟨he, rest, hwire, -⟩ := Crypto.receivePacket_ok hr'
        rw [← hkey, ← hseq] at he
        rw [Crypto.receivePacket_of_expected he (hin.trans hwire)] at hr
        cases hr

/-- There are no more packets than bytes. -/
theorem arriving_of_le {s : Session} {n : ℕ} (hn : s.conn.incoming.length ≤ n) :
    s.arriving P o n = s.accepts P o := by
  suffices h : ∀ (m n : ℕ) (s : Session), s.conn.incoming.length ≤ m → m ≤ n →
      s.arriving P o n = s.arriving P o m from h _ n s le_rfl hn
  intro m
  induction m with
  | zero =>
    intro n s hm _
    cases n with
    | zero => rfl
    | succ n =>
      cases hr : (Crypto.receivePacket P o).run s with
      | error x t => simp only [arriving, hr]
      | ok p t =>
        obtain ⟨-, rest, hwire, -⟩ := Crypto.receivePacket_ok hr
        have hlen := p.length_wire_pos
        rw [hwire, List.length_append] at hm
        omega
  | succ m ih =>
    intro n s hm hmn
    obtain ⟨n, rfl⟩ : ∃ n', n = n' + 1 := ⟨n - 1, by omega⟩
    cases hr : (Crypto.receivePacket P o).run s with
    | error x t => simp only [arriving, hr]
    | ok p t =>
      obtain ⟨he, rest, hwire, -⟩ := Crypto.receivePacket_ok hr
      have hlen := p.length_wire_pos
      rw [hwire, List.length_append] at hm
      have hrest := ih n (Crypto.received o s p rest) (show rest.length ≤ m by omega) (by omega)
      rw [arriving_of_expected n he hwire, arriving_of_expected m he hwire, hrest]

/-- **The first packet, and the others.** -/
theorem accepts_of_expected {s : Session} {p : Packet} {rest : Bytes}
    (he : Crypto.Expected P o s.crypto.authKey s.crypto.sequenceNumberI p)
    (h : s.conn.incoming = p.wire ++ rest) :
    s.accepts P o = if s.crypto.sequenceNumberI + 1 + 1 = 0 then []
      else p :: (Crypto.received o s p rest).accepts P o := by
  have hlen := p.length_wire_pos
  have hincoming : s.conn.incoming.length = p.wire.length + rest.length := by
    rw [h, List.length_append]
  rw [← arriving_of_le (n := s.conn.incoming.length + 1) (by omega),
    arriving_of_expected _ he h,
    ← arriving_of_le (s := Crypto.received o s p rest) (n := s.conn.incoming.length)
      (show rest.length ≤ _ by omega)]

theorem accepts_congr {s s' : Session} (hkey : s.crypto.authKey = s'.crypto.authKey)
    (hseq : s.crypto.sequenceNumberI = s'.crypto.sequenceNumberI)
    (hin : s.conn.incoming = s'.conn.incoming) : s.accepts P o = s'.accepts P o := by
  rw [accepts, accepts, hin]
  exact arriving_congr hkey hseq hin _

/-- Nothing is accepted where a packet is refused. -/
theorem accepts_of_error {s t : Session} {x : Ex}
    (h : (Crypto.receivePacket P o).run s = .error x t) : s.accepts P o = [] := by
  rw [← arriving_of_le (Nat.le_succ s.conn.incoming.length), arriving, h]

end Session

/-! ### The bytes that are handed out -/

theorem CipherCtx.decryptUpdate_append (ctx : CipherCtx) (cs ds : Bytes) :
    (ctx.decryptUpdate P (cs ++ ds)).1
      = (ctx.decryptUpdate P cs).1 ++ ((ctx.decryptUpdate P cs).2.decryptUpdate P ds).1 := by
  simp only [decryptUpdate, StreamCipher.decrypt_append]

namespace Endpoint

/-- An end whose buffer is in order, at which the bytes `s` are authentic. -/
def Authentic (P : Primitives) (o : ByteOrder) (s : Bytes) (e : Endpoint) : Prop :=
  e.buf.WF ∧ e.authentic P o = s

/-- Unread bytes come first, however many of them a call takes. -/
theorem take_authentic {e : Endpoint} (hwf : e.buf.WF) (hun : e.buf.unread ≠ []) {size : ℕ}
    (hsize : 0 < size) :
    ∃ k, 0 < k ∧ k ≤ size ∧ k ≤ (e.authentic P o).length ∧
      e.buf.unread.take size = (e.authentic P o).take k ∧
      Authentic P o ((e.authentic P o).drop k) { e with buf := e.buf.advance size } := by
  have hlen := List.length_pos_iff.mpr hun
  have hk : min size e.buf.unread.length ≤ e.buf.unread.length := Nat.min_le_right _ _
  refine ⟨min size e.buf.unread.length, by omega, Nat.min_le_left _ _, ?_, ?_, hwf.advance size, ?_⟩
  · rw [authentic, List.length_append]
    omega
  · rw [authentic, List.take_append_of_le_length hk, ← List.take_take, List.take_length]
  · rw [authentic, authentic, List.drop_append_of_le_length hk, RecvBuffer.unread_advance]
    congr 1
    rcases Nat.le_total size e.buf.unread.length with hle | hle
    · rw [Nat.min_eq_left hle]
    · rw [Nat.min_eq_right hle, List.drop_length, List.drop_of_length_le hle]

/-- When the expected packet has come, its plaintext is authentic, and what then is. -/
theorem authentic_of_expected {e : Endpoint} {p : Packet} {rest : Bytes} (hb : e.buf.remaining = 0)
    (he : Crypto.Expected P o e.session.crypto.authKey e.session.crypto.sequenceNumberI p)
    (hin : e.session.conn.incoming = p.wire ++ rest)
    (hseq : e.session.crypto.sequenceNumberI + 1 + 1 ≠ 0) :
    e.authentic P o = (Crypto.accept P o e p rest).authentic P o := by
  have haccepts : (Crypto.received o e.session p rest).accepts P o
      = (Crypto.accept P o e p rest).session.accepts P o := Session.accepts_congr rfl rfl rfl
  rw [authentic, authentic, RecvBuffer.unread_of_empty hb, List.nil_append,
    Session.accepts_of_expected he hin, if_neg hseq, List.flatMap_cons,
    CipherCtx.decryptUpdate_append, haccepts, Crypto.accept, RecvBuffer.unread_fill]
  rfl

/-- What is authentic at an end depends on its receiving half. -/
theorem authentic_congr {e e' : Endpoint}
    (hkey : e.session.crypto.authKey = e'.session.crypto.authKey)
    (hseq : e.session.crypto.sequenceNumberI = e'.session.crypto.sequenceNumberI)
    (hctx : e.session.crypto.ctxD = e'.session.crypto.ctxD)
    (hin : e.session.conn.incoming = e'.session.conn.incoming) (hbuf : e.buf = e'.buf) :
    e.authentic P o = e'.authentic P o := by
  rw [authentic, authentic, Session.accepts_congr hkey hseq hin, hctx, hbuf]

end Endpoint

/-- **`Crypto` carries what is authentic**, at every end and whatever arrives there. -/
theorem authentic_carries (P : Primitives) (o : ByteOrder) :
    (Transport.crypto P o).Carries (Endpoint.Authentic P o) Endpoint.sendHalf := by
  constructor
  · intro s e size h hne hsize
    obtain ⟨hwf, rfl⟩ := h
    have hhalf := Station.recv_sendHalf (P := P) (o := o) size e
    have hends := Crypto.recv_cases P o size e
    show ∃ k e', 0 < k ∧ k ≤ size ∧ k ≤ _ ∧ (Crypto.recv P o size).run e = .ok _ e' ∧ _
    generalize (Crypto.recv P o size).run e = r at hends hhalf ⊢
    cases hends with
    | unread hb =>
      obtain ⟨k, hpos, hle, hlen, htake, hdrop⟩ := Endpoint.take_authentic (P := P) (o := o) hwf
        (RecvBuffer.unread_ne_nil hwf hb) hsize
      exact ⟨k, _, hpos, hle, hlen, congrArg (EStateM.Result.ok · _) htake, hdrop, hhalf⟩
    | @accepted hb p rest he hin hseq =>
      rw [Endpoint.authentic_of_expected hb he hin hseq] at hne ⊢
      have hwf' : (Crypto.accept P o e p rest).buf.WF := by
        refine hwf.fill ?_
        rw [Crypto.plaintextOf_length]
        exact he.bounded
      have hunread : (Crypto.accept P o e p rest).buf.unread
          = Crypto.plaintextOf P e.session.crypto p := RecvBuffer.unread_fill _ _
      obtain ⟨k, hpos, hle, hlen, htake, hdrop⟩ := Endpoint.take_authentic (P := P) (o := o) hwf'
        (RecvBuffer.unread_ne_nil hwf' (Crypto.accept_remaining rest he.nonempty)) hsize
      rw [hunread] at htake
      exact ⟨k, _, hpos, hle, hlen, congrArg (EStateM.Result.ok · _) htake, hdrop, hhalf⟩
    | rejected hb hx =>
      rw [Endpoint.authentic, RecvBuffer.unread_of_empty hb, Session.accepts_of_error hx] at hne
      exact absurd rfl hne
    | wrapped hb he hin hseq =>
      rw [Endpoint.authentic, RecvBuffer.unread_of_empty hb, Session.accepts_of_expected he hin,
        if_pos hseq] at hne
      exact absurd rfl hne
  · intro e size h hsize
    obtain ⟨hwf, hnil⟩ := h
    have hhalf := Station.recv_sendHalf (P := P) (o := o) size e
    have hends := Crypto.recv_cases P o size e
    show ∃ x e', (Crypto.recv P o size).run e = .error x e' ∧ _
    generalize (Crypto.recv P o size).run e = r at hends hhalf ⊢
    cases hends with
    | unread hb =>
      exact absurd (List.append_eq_nil_iff.mp hnil).1 (RecvBuffer.unread_ne_nil hwf hb)
    | rejected _ hx => exact ⟨_, _, rfl, hhalf⟩
    | wrapped _ he hin hseq => exact ⟨_, _, rfl, hhalf⟩
    | @accepted hb p rest he hin hseq =>
      rw [Endpoint.authentic_of_expected hb he hin hseq] at hnil
      have hunread : (Crypto.accept P o e p rest).buf.unread
          = Crypto.plaintextOf P e.session.crypto p := RecvBuffer.unread_fill _ _
      have hlen := congrArg List.length (List.append_eq_nil_iff.mp hnil).1
      rw [hunread, Crypto.plaintextOf_length] at hlen
      exact absurd (List.length_eq_zero_iff.mp hlen) he.nonempty

/-- What is authentic at an end stays when it sends. -/
theorem Endpoint.Authentic.send {s : Bytes} {e : Endpoint} (h : e.Authentic P o s)
    (plaintext : Bytes) : Endpoint.Authentic P o s
      { e with session := Exec.endState ((Crypto.send P o plaintext).run e.session) } := by
  obtain ⟨c, hin, hend⟩ := Crypto.send_cases P o plaintext e.session
  rw [hend]
  refine ⟨h.1, Eq.trans ?_ h.2⟩
  exact Endpoint.authentic_congr rfl rfl rfl hin rfl

end Cybrg
