import Cybrg.Common.SecureLayer
import Cybrg.Library.Machine
import Cybrg.Library.TwoRuns

/-!
# A receiver is no decryption oracle

Whoever sends bytes to an end of a session can watch which exceptions its calls of `Crypto::recv`
throw, how many bytes they return and how many they take from the connection.  All this depends on the
authentication key and on the bytes that were sent, and not on what any packet decrypts to: a receiver
checks both headers before it decrypts, and no check reads a plaintext.

* `Receives.step` — an end, with the bytes that arrive and its calls of `recv`;
* `Blind` — two ends that differ in their cipher contexts and in the plaintexts of their buffers;
* `recv_blind` — a call of `recv` keeps them so and looks the same from outside;
* `no_decryption_oracle` — so does every run, even under another block cipher.
-/

namespace Cybrg

open Octets

/-! ### Two ends that differ in what they decrypt -/

/-- Two sessions that read and check packets alike. -/
structure Session.Checks (s s' : Session) : Prop where
  authKey : s.crypto.authKey = s'.crypto.authKey
  next : s.crypto.sequenceNumberI = s'.crypto.sequenceNumberI
  incoming : s.conn.incoming = s'.conn.incoming

/-- Two ends that read and check packets alike, and have as many bytes at the same place of their
buffers. -/
structure Endpoint.Blind (e e' : Endpoint) : Prop where
  session : e.session.Checks e'.session
  remaining : e.buf.remaining = e'.buf.remaining
  index : e.buf.index = e'.buf.index
  payload : e.buf.payload.length = e'.buf.payload.length

/-- `P` with another block cipher. -/
def Primitives.withCipher (P : Primitives) (aes128 : Block → Block → Block) : Primitives :=
  { P with aes128 }

namespace Crypto

variable {P : Primitives} {o : ByteOrder} {aes128 : Block → Block → Block} {s s' : Session}
  {e e' : Endpoint}

theorem recvAll_checks (h : s.Checks s') (n : ℤ) (x : Ex) :
    Exec.Agree Session.Checks ((recvAll n x).run s) ((recvAll n x).run s') := by
  have hread : Exec.Agree Session.Checks ((onConn (Connection.recv n.toNat)).run s)
      ((onConn (Connection.recv n.toNat)).run s') := by
    rw [onConn, Exec.run_zoom, Exec.run_zoom, Connection.recv_run, Connection.recv_run, h.incoming]
    by_cases hpos : 0 < (s'.conn.incoming.take n.toNat).length
    · rw [if_pos hpos, if_pos hpos]
      exact .ok ⟨h.authKey, h.next, rfl⟩
    · rw [if_neg hpos, if_neg hpos]
      exact .error ⟨h.authKey, h.next, rfl⟩
  refine hread.bind fun bs t t' _ ht => ?_
  by_cases hlen : (bs.length : ℤ) = n
  · rw [Exec.bind_of_ok (Exec.run_require_of_true hlen),
      Exec.bind_of_ok (Exec.run_require_of_true hlen)]
    exact .ok ht
  · have hthrow : ∀ u : Session, (Exec.require ((bs.length : ℤ) = n) x : EStateM Ex Session Unit).run u
        = .error x u := fun u => by rw [Exec.run_require, if_neg hlen]
    rw [Exec.bind_of_error (hthrow t), Exec.bind_of_error (hthrow t')]
    exact .error ht

theorem checkHeader_checks (h : s.Checks s') (bs : Bytes) (verify : Tag → UInt32 → Except Ex Unit) :
    Exec.Agree Session.Checks ((checkHeader bs verify).run s) ((checkHeader bs verify).run s') := by
  simp only [checkHeader, EStateM.run_bind, EStateM.run_get, EStateM.run_modify, Exec.run_ofExcept,
    h.authKey, h.next]
  cases verify s'.crypto.authKey s'.crypto.sequenceNumberI with
  | ok u => exact .ok ⟨rfl, rfl, h.incoming⟩
  | error x => exact .error ⟨rfl, rfl, h.incoming⟩

/-- **A packet is read and checked alike**, whatever cipher its payload is for. -/
theorem receivePacket_checks (h : s.Checks s') :
    Exec.Agree Session.Checks ((receivePacket P o).run s)
      ((receivePacket (P.withCipher aes128) o).run s') := by
  unfold receivePacket
  refine (recvAll_checks h _ _).bind fun ri t t' _ h => ?_
  refine (checkHeader_checks h _ _).bind fun _ t t' _ h => ?_
  refine (recvAll_checks h _ _).bind fun si t t' _ h => ?_
  refine (recvAll_checks h _ _).bind fun enc t t' _ h => ?_
  refine (checkHeader_checks h _ _).bind fun _ t t' _ h => ?_
  exact .ok h

/-- A packet that is decrypted fills both buffers to the same place. -/
theorem accept_blind (h : e.Blind e') (p : Packet) (rest : Bytes) :
    (accept P o e p rest).Blind (accept (P.withCipher aes128) o e' p rest) := by
  have hlen : (plaintextOf P e.session.crypto p).length
      = (plaintextOf (P.withCipher aes128) e'.session.crypto p).length := by
    rw [plaintextOf_length, plaintextOf_length]
  refine ⟨⟨h.session.authKey, congrArg (· + 1 + 1) h.session.next, rfl⟩, hlen, rfl, ?_⟩
  show (plaintextOf P e.session.crypto p ++ e.buf.payload.drop _).length
    = (plaintextOf (P.withCipher aes128) e'.session.crypto p ++ e'.buf.payload.drop _).length
  rw [List.length_append, List.length_append, List.length_drop, List.length_drop, hlen, h.payload]

theorem advance_blind (h : e.Blind e') (size : ℕ) :
    Endpoint.Blind { e with buf := e.buf.advance size } { e' with buf := e'.buf.advance size } := by
  have hcount : e.buf.count size = e'.buf.count size := by
    rw [RecvBuffer.count, RecvBuffer.count, h.remaining]
  refine ⟨h.session, ?_, ?_, h.payload⟩
  · show e.buf.remaining - e.buf.count size = e'.buf.remaining - e'.buf.count size
    rw [h.remaining, hcount]
  · show e.buf.index + e.buf.count size = e'.buf.index + e'.buf.count size
    rw [h.index, hcount]

theorem length_unread (h : e.Blind e') (size : ℕ) :
    (e.buf.unread.take size).length = (e'.buf.unread.take size).length := by
  simp only [RecvBuffer.unread, List.length_take, List.length_drop, h.remaining, h.index, h.payload]

end Crypto

/-! ### What can be seen of an end -/

namespace Receives

/-- What happens at an end. -/
inductive Event where
  /-- Some bytes arrive. -/
  | arrive (bs : Bytes)
  | recv (size : ℕ)

/-- What can be seen of a call of `recv`: its exception or the number of bytes that it returns, and
how many bytes wait on the connection afterwards. -/
structure Seen where
  outcome : Except Ex ℕ
  waiting : ℕ
  deriving DecidableEq

def seen (r : EStateM.Result Ex Endpoint Bytes) : Seen where
  outcome := (Exec.outcome r).map List.length
  waiting := (Exec.endState r).session.conn.incoming.length

def step (P : Primitives) (o : ByteOrder) (e : Endpoint) : Event → Endpoint × List Seen
  | .arrive bs => (e.deliver bs, [])
  | .recv size =>
      let r := (Crypto.recv P o size).run e
      (Exec.endState r, [seen r])

/-- What can be seen of a run. -/
def trace (P : Primitives) (o : ByteOrder) (e : Endpoint) (es : List Event) : List Seen :=
  (Machine.run (step P o) e es).2

variable {P : Primitives} {o : ByteOrder} {aes128 : Block → Block → Block} {e e' : Endpoint}

/-- **A call of `recv`** looks the same, and the ends still differ in nothing else. -/
theorem recv_blind (h : e.Blind e') (size : ℕ) :
    let r := (Crypto.recv P o size).run e
    let r' := (Crypto.recv (P.withCipher aes128) o size).run e'
    (Exec.endState r).Blind (Exec.endState r') ∧ seen r = seen r' := by
  have hseen : ∀ {bs bs' : Bytes} {d d' : Endpoint}, d.Blind d' → bs.length = bs'.length →
      seen (.ok bs d) = seen (.ok bs' d') := by
    intro bs bs' d d' hd hlen
    simp only [seen, Exec.outcome_ok, Exec.endState_ok, Except.map, hlen, hd.session.incoming]
  have hthrew : ∀ {x : Ex} {d d' : Endpoint}, d.Blind d' →
      seen (.error x d) = seen (.error x d') := by
    intro x d d' hd
    simp only [seen, Exec.outcome_error, Exec.endState_error, Except.map, hd.session.incoming]
  have hends := Crypto.recv_cases P o size e
  generalize (Crypto.recv P o size).run e = r at hends ⊢
  cases hends with
  | unread hb =>
    rw [Crypto.recv_unread size (h.remaining ▸ hb)]
    exact ⟨Crypto.advance_blind h size,
      hseen (Crypto.advance_blind h size) (Crypto.length_unread h size)⟩
  | @rejected hb x s hx =>
    have hb' : e'.buf.remaining = 0 := h.remaining ▸ hb
    have hagree : Exec.Agree Session.Checks ((Crypto.receivePacket P o).run e.session)
        ((Crypto.receivePacket (P.withCipher aes128) o).run e'.session) :=
      Crypto.receivePacket_checks h.session
    rw [hx] at hagree
    cases hx' : (Crypto.receivePacket (P.withCipher aes128) o).run e'.session with
    | ok p s' =>
      rw [hx'] at hagree
      cases hagree
    | error x' s' =>
      rw [hx'] at hagree
      cases hagree with
      | error hs =>
        rw [Crypto.recv_empty size hb', Exec.bind_of_error (Crypto.feed_of_error hx')]
        have hend : Endpoint.Blind { e with session := s } { e' with session := s' } :=
          ⟨hs, h.remaining, h.index, h.payload⟩
        exact ⟨hend, hthrew hend⟩
  | @accepted hb p rest he hin hseq =>
    have haccept : (Crypto.accept P o e p rest).Blind
        (Crypto.accept (P.withCipher aes128) o e' p rest) := Crypto.accept_blind h p rest
    have he' : Crypto.Expected (P.withCipher aes128) o e'.session.crypto.authKey
        e'.session.crypto.sequenceNumberI p := by
      rw [← h.session.authKey, ← h.session.next]
      exact ⟨he.verified, he.size, he.nonempty, he.bounded, he.rocketSeq, he.spacecraftSeq⟩
    have hseq' : e'.session.crypto.sequenceNumberI + 1 + 1 ≠ 0 := h.session.next ▸ hseq
    rw [Crypto.recv_of_expected size (h.remaining ▸ hb) he' (h.session.incoming ▸ hin) hseq']
    refine ⟨Crypto.advance_blind haccept size, hseen (Crypto.advance_blind haccept size) ?_⟩
    simp only [List.length_take, Crypto.plaintextOf_length]
  | @wrapped hb p rest he hin hseq =>
    have haccept : (Crypto.accept P o e p rest).Blind
        (Crypto.accept (P.withCipher aes128) o e' p rest) := Crypto.accept_blind h p rest
    have he' : Crypto.Expected (P.withCipher aes128) o e'.session.crypto.authKey
        e'.session.crypto.sequenceNumberI p := by
      rw [← h.session.authKey, ← h.session.next]
      exact ⟨he.verified, he.size, he.nonempty, he.bounded, he.rocketSeq, he.spacecraftSeq⟩
    have hfeed := Crypto.feed_of_ok
      (Crypto.receivePacket_of_expected he' (h.session.incoming ▸ hin))
    rw [if_neg (by rw [← h.session.next]; simpa using hseq)] at hfeed
    rw [Crypto.recv_empty size (h.remaining ▸ hb), Exec.bind_of_error hfeed]
    exact ⟨haccept, hthrew haccept⟩

theorem step_blind (h : e.Blind e') (ev : Event) :
    (step P o e ev).1.Blind (step (P.withCipher aes128) o e' ev).1 ∧
      List.Forall₂ Eq (step P o e ev).2 (step (P.withCipher aes128) o e' ev).2 := by
  cases ev with
  | arrive bs =>
    refine ⟨⟨⟨h.session.authKey, h.session.next, ?_⟩, h.remaining, h.index, h.payload⟩, .nil⟩
    exact congrArg (· ++ bs) h.session.incoming
  | recv size =>
    have hboth : (Exec.endState ((Crypto.recv P o size).run e)).Blind
          (Exec.endState ((Crypto.recv (P.withCipher aes128) o size).run e')) ∧
        seen ((Crypto.recv P o size).run e)
          = seen ((Crypto.recv (P.withCipher aes128) o size).run e') := recv_blind h size
    exact ⟨hboth.1, .cons hboth.2 .nil⟩

/-- **No decryption oracle.**  Two sessions have the same authentication key; the session keys, the
initialisation vectors and even the block cipher may differ.  Whatever arrives, in whatever pieces
and between whatever calls of `recv`, the two receivers look the same. -/
theorem no_decryption_oracle (P : Primitives) (aes128 : Block → Block → Block) (o : ByteOrder)
    (authKey : Tag) (sessionKey iv sessionKey' iv' : Block) (conn : Connection)
    (es : List Event) :
    trace P o (Endpoint.new ⟨sessionKey, authKey, iv⟩ conn) es
      = trace (P.withCipher aes128) o (Endpoint.new ⟨sessionKey', authKey, iv'⟩ conn) es := by
  have hnew : (Endpoint.new ⟨sessionKey, authKey, iv⟩ conn).Blind
      (Endpoint.new ⟨sessionKey', authKey, iv'⟩ conn) := ⟨⟨rfl, rfl, rfl⟩, rfl, rfl, rfl⟩
  have hstep : ∀ (d d' : Endpoint) (ev : Event), d.Blind d' → True →
      (step P o d ev).1.Blind (step (P.withCipher aes128) o d' ev).1 ∧
        List.Forall₂ Eq (step P o d ev).2 (step (P.withCipher aes128) o d' ev).2 :=
    fun _ _ ev hd _ => step_blind hd ev
  have hrun := (Machine.run_simulates hstep hnew (Machine.meets_true es)).2
  exact List.forall₂_eq_eq_eq ▸ hrun

end Receives

end Cybrg
