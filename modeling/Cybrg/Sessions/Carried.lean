import Cybrg.Common.Carrier
import Cybrg.Sessions.ByteStream
import Cybrg.Sessions.Discipline

/-!
# The secure layer as a transport

Between two honest ends `Crypto::recv` hands over the bytes of one stream, and what `Crypto::send`
does depends on its half of the session only.

* `Duplex.Holding` — what is still to come at an end;
* `crypto_carries` — `Crypto` is a transport that carries it;
* `crypto_sendsAlike` — two sessions with the same sending half send alike;
* `Direction.sends` — what a client has sent is on the way.
-/

namespace Cybrg

open Octets

variable {P : Primitives} {o : ByteOrder}

/-! ### What is still to come -/

namespace Duplex

/-- What an end that has accepted `j` packets can still read of the plaintexts on the way: the last
number is never handed out. -/
def readable (j : ℕ) (ts : List Bytes) : List Bytes := ts.take (2 ^ 31 - 1 - j)

/-- Of the plaintexts `sent` the bytes `s` are still to come at an end. -/
def Holding (P : Primitives) (o : ByteOrder) (authKey : Tag) (a : Session) (sent : List Bytes)
    (s : Bytes) (b : Endpoint) : Prop :=
  ∃ got done ts, sent = done ++ ts ∧ Direction P o authKey a b sent got ts done.length ∧
    done.length < 2 ^ 31 ∧ s = b.buf.unread ++ (readable done.length ts).flatten

theorem readable_cons {j : ℕ} (hj : j + 1 < 2 ^ 31) (t : Bytes) (ts : List Bytes) :
    readable j (t :: ts) = t :: readable (j + 1) ts := by
  rw [readable, readable, show 2 ^ 31 - 1 - j = (2 ^ 31 - 1 - (j + 1)) + 1 by omega,
    List.take_succ_cons]

variable {authKey : Tag} {a : Session} {b : Endpoint} {sent done ts : List Bytes} {got : Bytes}
  {j : ℕ}

/-- If nothing can be read, nothing is on the way or the numbers have come to their end. -/
theorem Direction.nothing (h : Direction P o authKey a b sent got ts j)
    (hs : b.buf.unread ++ (readable j ts).flatten = []) :
    b.buf.remaining = 0 ∧ (ts = [] ∨ 2 ^ 31 ≤ j + 1) := by
  obtain ⟨hun, hflat⟩ := List.append_eq_nil_iff.mp hs
  have hb : b.buf.remaining = 0 := by
    by_contra hb
    exact RecvBuffer.unread_ne_nil h.buffer hb hun
  refine ⟨hb, ?_⟩
  cases ts with
  | nil => exact .inl rfl
  | cons t ts =>
    refine .inr ?_
    by_contra hj
    rw [readable_cons (by omega), List.flatten_cons] at hflat
    exact (h.fits t List.mem_cons_self).1 (List.append_eq_nil_iff.mp hflat).1

/-- Unread bytes are handed out. -/
theorem Direction.recv_buffered (h : Direction P o authKey a b sent got ts done.length)
    (hsent : sent = done ++ ts) (hj : done.length < 2 ^ 31) {size : ℕ} (hsize : 0 < size)
    (hb : b.buf.unread ≠ []) :
    ∃ k, 0 < k ∧ k ≤ size ∧ k ≤ (b.buf.unread ++ (readable done.length ts).flatten).length ∧
      b.buf.unread.take size = (b.buf.unread ++ (readable done.length ts).flatten).take k ∧
      Holding P o authKey a sent ((b.buf.unread ++ (readable done.length ts).flatten).drop k)
        { b with buf := b.buf.advance size } := by
  have hlen := List.length_pos_iff.mpr hb
  have hk : min size b.buf.unread.length ≤ b.buf.unread.length := Nat.min_le_right _ _
  refine ⟨min size b.buf.unread.length, by omega, Nat.min_le_left _ _, ?_, ?_, ?_⟩
  · rw [List.length_append]
    omega
  · rw [List.take_append_of_le_length hk, ← List.take_take, List.take_length]
  · refine ⟨_, done, ts, hsent, h.take size, hj, ?_⟩
    rw [List.drop_append_of_le_length hk, RecvBuffer.unread_advance]
    congr 1
    rcases Nat.le_total size b.buf.unread.length with hle | hle
    · rw [Nat.min_eq_left hle]
    · rw [Nat.min_eq_right hle, List.drop_length, List.drop_of_length_le hle]

/-- What was read and what can still be read is all that can be read of what was sent. -/
theorem Direction.total (h : Direction P o authKey a b sent got ts done.length)
    (hsent : sent = done ++ ts) (hj : done.length < 2 ^ 31) :
    got ++ (b.buf.unread ++ (readable done.length ts).flatten) = (readable 0 sent).flatten := by
  subst hsent
  have hbytes := h.bytes
  rw [List.flatten_append] at hbytes
  have hdone : done.length ≤ 2 ^ 31 - 1 := by omega
  have htake : readable 0 (done ++ ts) = done ++ readable done.length ts := by
    rw [readable, readable, Nat.sub_zero, List.take_append, List.take_of_length_le hdone]
  rw [htake, List.flatten_append, ← List.append_cancel_right hbytes, List.append_assoc]

/-- What is still to come depends on the receiving half of an end. -/
theorem Holding.of_eq {s : Bytes} (h : Holding P o authKey a sent s b) {b' : Endpoint}
    (hkey : b'.session.crypto.authKey = b.session.crypto.authKey)
    (hseq : b'.session.crypto.sequenceNumberI = b.session.crypto.sequenceNumberI)
    (hctx : b'.session.crypto.ctxD = b.session.crypto.ctxD)
    (hin : b'.session.conn.incoming = b.session.conn.incoming) (hbuf : b'.buf = b.buf) :
    Holding P o authKey a sent s b' := by
  obtain ⟨got, done, ts, hsent, hd, hj, rfl⟩ := h
  refine ⟨got, done, ts, hsent, hd.of_eq rfl rfl rfl rfl rfl hkey hseq hctx hin hbuf, hj, ?_⟩
  rw [hbuf]

end Duplex

/-! ### `Crypto` as a transport -/

/-- What `Station.sendHalf` reads. -/
abbrev SendHalf := Tag × UInt32 × CipherCtx × List Packet × List ℤ × Bytes

/-- The half of an end that sending depends on. -/
def Endpoint.sendHalf (e : Endpoint) : SendHalf := Station.sendHalf e.session

/-- **`Crypto` carries a stream.** -/
theorem crypto_carries (P : Primitives) (o : ByteOrder) (authKey : Tag) (a : Session)
    (sent : List Bytes) :
    (Transport.crypto P o).Carries (Duplex.Holding P o authKey a sent) Endpoint.sendHalf := by
  constructor
  · intro s b size hs hne hsize
    obtain ⟨got, done, ts, hsent, h, hj, rfl⟩ := hs
    have hhalf := Station.recv_sendHalf (P := P) (o := o) size b
    by_cases hb : b.buf.remaining = 0
    · -- the buffer is empty: the first packet on the way is accepted
      have hun : b.buf.unread = [] := RecvBuffer.unread_of_empty hb
      cases ts with
      | nil => exact absurd (by rw [hun, Duplex.readable, List.take_nil]; rfl) hne
      | cons t ts =>
        have hj' : done.length + 1 < 2 ^ 31 := by
          by_contra hge
          have hzero : 2 ^ 31 - 1 - done.length = 0 := by omega
          rw [hun, Duplex.readable, hzero] at hne
          exact hne rfl
        obtain ⟨p, rest, -, hstream, hexp, hdec, hrest⟩ := h.first
        have hseq : b.session.crypto.sequenceNumberI + 1 + 1 ≠ 0 := by
          rw [h.nextIn, counter_succ]
          exact counter_ne_zero (Nat.succ_pos _) hj'
        have hrecv := Crypto.recv_of_expected size hb hexp hstream hseq
        have htext : Crypto.plaintextOf P b.session.crypto p = t := congrArg Prod.fst hdec
        have hunread : (Crypto.accept P o b p rest).buf.unread = t := by
          rw [Crypto.accept, RecvBuffer.unread_fill, htext]
        have hne' : (Crypto.accept P o b p rest).buf.unread ≠ [] :=
          hunread ▸ (h.fits t List.mem_cons_self).1
        have hlen' : (done ++ [t]).length = done.length + 1 := List.length_append
        have haccept := h.accept hb hdec hrest
        rw [← hlen'] at haccept
        obtain ⟨k, hpos, hle, hlen, htake, hheld⟩ :=
          haccept.recv_buffered (by rw [hsent, List.append_assoc]; rfl) (by omega) hsize hne'
        rw [hunread, hlen', ← List.flatten_cons, ← Duplex.readable_cons hj'] at hlen htake hheld
        rw [hun, List.nil_append]
        refine ⟨k, _, hpos, hle, hlen, ?_, hheld, ?_⟩
        · rw [← htake, ← htext]
          exact hrecv
        · rw [hrecv] at hhalf
          exact hhalf
    · obtain ⟨k, hpos, hle, hlen, htake, hheld⟩ :=
        h.recv_buffered hsent hj hsize (RecvBuffer.unread_ne_nil h.buffer hb)
      refine ⟨k, _, hpos, hle, hlen, ?_, hheld, rfl⟩
      rw [← htake]
      exact Crypto.recv_unread size hb
  · intro b size hs hsize
    obtain ⟨got, done, ts, hsent, h, hj, hnil⟩ := hs
    obtain ⟨hb, hend⟩ := h.nothing hnil.symm
    have hhalf := Station.recv_sendHalf (P := P) (o := o) size b
    have hends := Crypto.recv_cases P o size b
    show ∃ e x', (Crypto.recv P o size).run b = .error e x' ∧ _
    generalize (Crypto.recv P o size).run b = r at hends hhalf ⊢
    cases hends with
    | unread hb' => exact absurd hb hb'
    | rejected _ hx => exact ⟨_, _, rfl, hhalf⟩
    | wrapped _ he hin hseq => exact ⟨_, _, rfl, hhalf⟩
    | accepted _ he hin hseq =>
      -- a packet has arrived, and its number is the last one
      exfalso
      rcases hend with rfl | hlast
      · have hlen := congrArg List.length (h.stream.symm.trans hin)
        simp [Crypto.flight, Packet.wire, sizeofRocket] at hlen
        omega
      · rw [h.nextIn, counter_succ, show done.length + 1 = 2 ^ 31 by omega] at hseq
        exact hseq (by decide)

/-! ### Two sessions that send alike -/

namespace Crypto

/-- The socket calls of two sessions with the same sending half. -/
theorem onConn_send_both (bs : Bytes) :
    Exec.Both (fun s s' => Station.sendHalf s = Station.sendHalf s')
      (onConn (Connection.send bs)) (onConn (Connection.send bs))
      (fun n n' s s' => n = n' ∧ Station.sendHalf s = Station.sendHalf s')
      (fun s s' => Station.sendHalf s = Station.sendHalf s') fun _ _ => False := by
  intro s s' hs
  simp only [Station.sendHalf, Prod.mk.injEq] at hs
  obtain ⟨hkey, hseq, hctx, hsent, hrets, hout⟩ := hs
  have hret : s.conn.nextSendRet bs.length = s'.conn.nextSendRet bs.length := by
    rw [Connection.nextSendRet, Connection.nextSendRet, hrets]
  have hafter : Station.sendHalf { s with conn := s.conn.afterSend bs }
      = Station.sendHalf { s' with conn := s'.conn.afterSend bs } := by
    simp only [Station.sendHalf, Connection.afterSend, hkey, hseq, hctx, hsent, hrets, hout, hret]
  simp only [onConn, Exec.run_zoom, Connection.send_run, hret]
  by_cases h : 0 < s'.conn.nextSendRet bs.length
  · simp only [if_pos h]
    exact ⟨trivial, hafter⟩
  · simp only [if_neg h]
    exact hafter

/-- The second half of `Crypto::send`, for a packet and the counter after it. -/
def transmit (o : ByteOrder) (p : Packet) (n : UInt32) : EStateM Ex Session ℤ := do
  let r1 ← onConn (Connection.send ((p.rocket.htonl o).image o))
  let r2 ← onConn (Connection.send ((p.spacecraft.htonl o).image o))
  let r3 ← onConn (Connection.send p.payload)
  Exec.require (n ≠ 0) (.exSeqNumOverflow "Crypto::send(): sequence number overflow")
  Exec.require (0 ≤ r1 ∧ 0 ≤ r2 ∧ 0 ≤ r3) (.exSend "can not Crypto::send()")
  return r1 + r2 + r3

theorem send_eq_transmit (plaintext : Bytes) (s : Session) :
    (send P o plaintext).run s =
      (transmit o (packetOf P o s.crypto plaintext) (s.crypto.sequenceNumberO + 1 + 1)).run
        (sealed P o s plaintext) := by
  unfold send
  rw [Exec.bind_of_ok (EStateM.run_get s), prepare_eq, Exec.bind_of_ok (EStateM.run_modify _ s)]
  rfl

theorem transmit_both (p : Packet) (n : UInt32) :
    Exec.Both (fun s s' => Station.sendHalf s = Station.sendHalf s') (transmit o p n)
      (transmit o p n) (fun _ _ s s' => Station.sendHalf s = Station.sendHalf s')
      (fun s s' => Station.sendHalf s = Station.sendHalf s') fun _ _ => False := by
  have hno : ∀ t t' : Session, False → Station.sendHalf t = Station.sendHalf t' :=
    fun _ _ h => h.elim
  refine Exec.Both.bind (onConn_send_both _) (Exec.Both.same fun r1 => ?_) hno fun _ _ _ h => h
  refine Exec.Both.bind (onConn_send_both _) (Exec.Both.same fun r2 => ?_) hno fun _ _ _ h => h
  refine Exec.Both.bind (onConn_send_both _) (Exec.Both.same fun r3 => ?_) hno fun _ _ _ h => h
  refine Exec.Both.bind (Exec.Both.require _ _ _) (fun _ _ => ?_) hno fun _ _ _ h => h
  refine Exec.Both.bind (Exec.Both.require _ _ _) (fun _ _ => ?_) hno fun _ _ _ h => h
  exact Exec.Both.pure fun _ _ h => h

/-- **Two sessions with the same sending half** send the same, and have the same sending half
afterwards. -/
theorem send_both (plaintext : Bytes) :
    Exec.Both (fun s s' => Station.sendHalf s = Station.sendHalf s') (send P o plaintext)
      (send P o plaintext) (fun _ _ s s' => Station.sendHalf s = Station.sendHalf s')
      (fun s s' => Station.sendHalf s = Station.sendHalf s') fun _ _ => False := by
  intro s s' hs
  have hparts := hs
  simp only [Station.sendHalf, Prod.mk.injEq] at hparts
  obtain ⟨hkey, hseq, hctx, hsent, hrets, hout⟩ := hparts
  have hpacket : packetOf P o s.crypto plaintext = packetOf P o s'.crypto plaintext := by
    rw [packetOf, packetOf, hkey, hseq, hctx]
  have hsealed : Station.sendHalf (sealed P o s plaintext)
      = Station.sendHalf (sealed P o s' plaintext) := by
    simp only [Station.sendHalf, sealed, hpacket, hkey, hseq, hctx, hsent, hrets, hout]
  rw [send_eq_transmit, send_eq_transmit, hpacket, hseq]
  exact transmit_both _ _ _ _ hsealed

end Crypto

/-- A call of `send` through the transport. -/
theorem crypto_send_run (plaintext : Bytes) (b : Endpoint) :
    ((Transport.crypto P o).send plaintext).run b =
      match (Crypto.send P o plaintext).run b.session with
      | .ok n s => .ok n { b with session := s }
      | .error e s => .error e { b with session := s } := by
  show (Crypto.onSession (Crypto.send P o plaintext)).run b = _
  rw [Crypto.onSession, Exec.run_zoom]
  cases (Crypto.send P o plaintext).run b.session <;> rfl

/-- What is still to come at an end does not change when it sends. -/
theorem Duplex.Holding.send {authKey : Tag} {a : Session} {sent : List Bytes} {s : Bytes}
    {b : Endpoint} (h : Duplex.Holding P o authKey a sent s b) (plaintext : Bytes) :
    Duplex.Holding P o authKey a sent s
      { b with session := Exec.endState ((Crypto.send P o plaintext).run b.session) } := by
  obtain ⟨c, hin, hend⟩ := Crypto.send_cases P o plaintext b.session
  rw [hend]
  exact h.of_eq rfl rfl rfl hin rfl

theorem crypto_sendsAside (P : Primitives) (o : ByteOrder) (authKey : Tag) (a : Session)
    (sent : List Bytes) :
    (Transport.crypto P o).SendsAside (Duplex.Holding P o authKey a sent) := by
  intro s bs b b' n hb hrun
  have hheld := hb.send bs
  obtain ⟨l, hl, rfl⟩ := Exec.zoom_ok hrun
  rwa [hl] at hheld

/-- **Two ends with the same sending half send alike.** -/
theorem crypto_sendsAlike (P : Primitives) (o : ByteOrder) (authKey : Tag) (a a' : Session)
    (sent sent' : List Bytes) :
    (Transport.crypto P o).SendsAlike (Duplex.Holding P o authKey a sent) Endpoint.sendHalf
      (Transport.crypto P o) (Duplex.Holding P o authKey a' sent') Endpoint.sendHalf (fun _ => Eq)
      fun _ _ => False := by
  intro ps s s' plaintext _ b b' hb
  obtain ⟨hs, hs', hhalf⟩ := hb
  have hrun := Crypto.send_both (P := P) (o := o) plaintext b.session b'.session hhalf
  have hheld := hs.send plaintext
  have hheld' := hs'.send plaintext
  rw [crypto_send_run, crypto_send_run]
  cases hr : (Crypto.send P o plaintext).run b.session with
  | ok n t =>
    cases hr' : (Crypto.send P o plaintext).run b'.session with
    | ok n' t' =>
      rw [hr, hr'] at hrun
      rw [hr] at hheld
      rw [hr'] at hheld'
      exact ⟨hheld, hheld', hrun⟩
    | error e' t' =>
      rw [hr, hr'] at hrun
      exact hrun.elim
  | error e t =>
    cases hr' : (Crypto.send P o plaintext).run b'.session with
    | ok n' t' =>
      rw [hr, hr'] at hrun
      exact hrun.elim
    | error e' t' =>
      rw [hr, hr'] at hrun
      exact .inr hrun

/-! ### A client that sends a stream -/

theorem Endpoint.deliver_append (b : Endpoint) (x y : Bytes) :
    b.deliver (x ++ y) = (b.deliver x).deliver y := by
  simp only [Endpoint.deliver, List.append_assoc]

namespace Duplex

variable {authKey : Tag} {b : Endpoint} {got : Bytes} {j : ℕ}

/-- **Plaintexts that are sent one after the other**, where every call returns, are on the way to
the peer. -/
theorem Direction.sends {a a' : Session} {sent ts ps : List Bytes}
    (h : Direction P o authKey { a with conn := a.conn.taken } (b.deliver a.conn.outgoing) sent got
      ts j) (hcount : sent.length < 2 ^ 31) (hfits : ∀ p ∈ ps, Fits p) {ns : List ℤ}
    (hrun : (ps.mapM (Crypto.send P o)).run a = .ok ns a') :
    Direction P o authKey { a' with conn := a'.conn.taken } (b.deliver a'.conn.outgoing) (sent ++ ps)
      got (ts ++ ps) j ∧ (sent ++ ps).length < 2 ^ 31 := by
  induction ps generalizing a sent ts ns with
  | nil =>
    cases hrun
    rw [List.append_nil, List.append_nil]
    exact ⟨h, hcount⟩
  | cons p ps ih =>
    rw [List.mapM_cons] at hrun
    obtain ⟨n, a₁, hsend, hrun⟩ := Exec.bind_ok hrun
    obtain ⟨ns', a₂, hrest, hrun⟩ := Exec.bind_ok hrun
    cases hrun
    obtain ⟨hpos, hle⟩ := hfits p List.mem_cons_self
    have hne : p ≠ [] := List.ne_nil_of_length_pos hpos
    have hseq := Crypto.send_ok hsend
    -- the counter has not come to its end
    have hcount' : (sent ++ [p]).length < 2 ^ 31 := by
      have hnext : a.crypto.sequenceNumberO = counter (j + ts.length) := h.nextOut
      rw [hnext, ← h.count, counter_succ] at hseq
      rw [List.length_append, List.length_singleton]
      refine lt_of_le_of_ne hcount fun heq => hseq ?_
      exact (counter_eq_zero_iff (Nat.succ_pos _) hcount).mpr heq
    obtain ⟨m, hsend'⟩ := Crypto.send_lossless (P := P) (o := o) (s := a) h.lossless hne hseq
    rw [hsend'] at hsend
    cases hsend
    have hgo := h.send hne hle
    rw [← Endpoint.deliver_append] at hgo
    have hall := ih hgo hcount' (fun q hq => hfits q (List.mem_cons_of_mem p hq)) hrest
    rwa [List.append_assoc, List.append_assoc] at hall

/-- What a client has sent, once the server's process has it. -/
theorem Holding.of_sends (k : SessionKeys) {ps : List Bytes} (hfits : ∀ p ∈ ps, Fits p)
    {ns : List ℤ} {a : Session} (hrun : (ps.mapM (Crypto.send P o)).run (Session.new k) = .ok ns a)
    (rets : List ℤ) :
    Holding P o k.authKey { a with conn := a.conn.taken } ps ps.flatten
      (Endpoint.new k { incoming := a.conn.outgoing, sendRets := rets }) := by
  have hnew : Direction P o k.authKey (Session.new k) (Endpoint.new k) [] [] [] 0 := .new k
  obtain ⟨hdir, hcount⟩ := Direction.sends (b := Endpoint.new k) (a := Session.new k) hnew
    (by decide) hfits hrun
  rw [List.nil_append] at hdir hcount
  refine ⟨[], [], ps, rfl, hdir.of_eq rfl rfl rfl rfl rfl rfl rfl rfl rfl rfl, by decide, ?_⟩
  have hread : readable 0 ps = ps := List.take_of_length_le (by omega)
  rw [List.length_nil, hread]
  exact List.nil_append _

end Duplex

end Cybrg
