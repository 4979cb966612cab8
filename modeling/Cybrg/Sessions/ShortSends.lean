import Cybrg.Common.FramedStrings
import Cybrg.Common.SecureLayer
import Cybrg.Library.Machine

/-!
# Packets that go out in part

`::send` may take only a part of what it is given and return how much that was.  `Connection::send`
hands the count on, and `Crypto::send` asks whether its three counts are negative.

* `Connection.returned`, `Connection.goneOut` — what the next calls of `::send` return, and what they
  take;
* `Crypto.send_run` — a call of `Crypto::send`, for any such values;
* `Sending.step` — a session that sends until a call throws;
* `Crypto.send_complete` — a packet is complete, or an exception ends the session, if and only if no
  call takes only a part of its bytes, or one of the three fails, or the packet is the last one.
-/

namespace Cybrg

open Octets

namespace Connection

/-! ### Calls of `::send` -/

/-- What the next calls of `::send` return for strings of these lengths. -/
def returned : List ℤ → List ℕ → List ℤ
  | _, [] => []
  | rets, len :: lens => min (rets.headD len) len :: returned rets.tail lens

/-- What they take of the strings. -/
def goneOut (rets : List ℤ) : List Bytes → Bytes
  | [] => []
  | b :: bs => b.take (min (rets.headD b.length) b.length).toNat ++ goneOut rets.tail bs

/-- The connection after a call for each of the strings. -/
def afterSends (c : Connection) (bs : List Bytes) : Connection := bs.foldl afterSend c

theorem afterSends_eq (c : Connection) (bs : List Bytes) :
    c.afterSends bs = { c with
      outgoing := c.outgoing ++ goneOut c.sendRets bs
      sendRets := c.sendRets.drop bs.length } := by
  induction bs generalizing c with
  | nil =>
    rw [goneOut, List.append_nil, List.length_nil, List.drop_zero]
    rfl
  | cons b bs ih =>
    show (c.afterSend b).afterSends bs = _
    rw [ih, goneOut, List.length_cons, ← List.drop_tail, ← List.append_assoc]
    rfl

theorem goneOut_length_le (rets : List ℤ) (bs : List Bytes) :
    (goneOut rets bs).length ≤ bs.flatten.length := by
  induction bs generalizing rets with
  | nil => exact le_rfl
  | cons b bs ih =>
    have hrest := ih rets.tail
    rw [goneOut, List.flatten_cons, List.length_append, List.length_append, List.length_take]
    omega

/-- **Everything is taken exactly if every call takes all of its string**, as long as none fails. -/
theorem goneOut_eq_iff {rets : List ℤ} {bs : List Bytes}
    (h : ∀ r ∈ returned rets (bs.map List.length), 0 < r) :
    goneOut rets bs = bs.flatten
      ↔ returned rets (bs.map List.length) = (bs.map List.length).map (Nat.cast : ℕ → ℤ) := by
  induction bs generalizing rets with
  | nil => exact iff_of_true rfl rfl
  | cons b bs ih =>
    rw [List.map_cons, returned] at h
    obtain ⟨hpos, hrest⟩ := List.forall_mem_cons.mp h
    rw [goneOut, List.flatten_cons, List.map_cons, returned, List.map_cons, List.cons.injEq,
      ← ih hrest]
    constructor
    · intro heq
      -- neither part is longer than its string
      have hlen := congrArg List.length heq
      have hle := goneOut_length_le rets.tail bs
      simp only [List.length_append, List.length_take] at hlen
      have hall : b.length ≤ (min (rets.headD b.length) (b.length : ℤ)).toNat := by omega
      rw [List.take_of_length_le hall] at heq
      exact ⟨by omega, List.append_cancel_left heq⟩
    · rintro ⟨hall, heq⟩
      rw [hall, Int.toNat_natCast, List.take_length, heq]

end Connection

namespace Crypto

variable {P : Primitives} {o : ByteOrder}

/-! ### A call of `Crypto::send` -/

/-- The lengths of the three strings that are given to `::send`. -/
def partLengths (plaintext : Bytes) : List ℕ := [sizeofRocket, sizeofSpaceCraft, plaintext.length]

/-- The three strings. -/
def parts (p : Packet) : List Bytes := [p.rocket.wire, p.spacecraft.wire, p.payload]

theorem parts_flatten (p : Packet) : (parts p).flatten = p.wire := by
  simp only [parts, Packet.wire, List.flatten_cons, List.flatten_nil, List.append_nil,
    List.append_assoc]

theorem parts_length (c : Crypto) (plaintext : Bytes) :
    (parts (packetOf P o c plaintext)).map List.length = partLengths plaintext := by
  simp only [parts, partLengths, List.map_cons, List.map_nil, Rocket.wire_length,
    SpaceCraft.wire_length, packetOf_payload, CipherCtx.encryptUpdate_length]

/-- None of the three calls fails. -/
def Goes (s : Session) (plaintext : Bytes) : Prop :=
  ∀ r ∈ Connection.returned s.conn.sendRets (partLengths plaintext), 0 < r

instance (s : Session) (plaintext : Bytes) : Decidable (Goes s plaintext) :=
  inferInstanceAs (Decidable (∀ r ∈ _, 0 < r))

/-- The session after the three calls. -/
def sentParts (P : Primitives) (o : ByteOrder) (s : Session) (plaintext : Bytes) : Session :=
  { sealed P o s plaintext with
    conn := s.conn.afterSends (parts (packetOf P o s.crypto plaintext)) }

theorem onConn_send (s : Session) (b : Bytes) :
    (onConn (Connection.send b)).run s =
      if 0 < s.conn.nextSendRet b.length
      then .ok (s.conn.nextSendRet b.length) { s with conn := s.conn.afterSend b }
      else .error (.exSend "can not send()") { s with conn := s.conn.afterSend b } := by
  rw [onConn, Exec.run_zoom, Connection.send_run]
  by_cases h : 0 < s.conn.nextSendRet b.length
  · rw [if_pos h, if_pos h]
  · rw [if_neg h, if_neg h]

theorem onConn_send_ok {s s' : Session} {b : Bytes} {r : ℤ}
    (h : (onConn (Connection.send b)).run s = .ok r s') :
    0 < s.conn.nextSendRet b.length ∧ s' = { s with conn := s.conn.afterSend b } := by
  rw [onConn_send] at h
  split at h
  · rename_i hpos
    cases h
    exact ⟨hpos, rfl⟩
  · cases h

/-- The three calls, one after another. -/
theorem goes_iff (s : Session) (plaintext : Bytes) :
    Goes s plaintext ↔
      0 < s.conn.nextSendRet (packetOf P o s.crypto plaintext).rocket.wire.length ∧
      0 < (s.conn.afterSend (packetOf P o s.crypto plaintext).rocket.wire).nextSendRet
        (packetOf P o s.crypto plaintext).spacecraft.wire.length ∧
      0 < ((s.conn.afterSend (packetOf P o s.crypto plaintext).rocket.wire).afterSend
        (packetOf P o s.crypto plaintext).spacecraft.wire).nextSendRet
          (packetOf P o s.crypto plaintext).payload.length := by
  rw [Rocket.wire_length, SpaceCraft.wire_length, packetOf_payload,
    CipherCtx.encryptUpdate_length]
  simp only [Goes, partLengths, Connection.returned, List.forall_mem_cons, List.not_mem_nil,
    false_imp_iff, implies_true, and_true]
  rfl

/-- **A call of `Crypto::send` that returns**: none of its calls of `::send` failed. -/
theorem send_returned {s s' : Session} {plaintext : Bytes} {n : ℤ}
    (h : (send P o plaintext).run s = .ok n s') :
    Goes s plaintext ∧ s.crypto.sequenceNumberO + 1 + 1 ≠ 0 ∧
      s' = sentParts P o s plaintext := by
  have hseq := send_ok h
  unfold send at h
  rw [Exec.bind_of_ok (EStateM.run_get s), prepare_eq, ← packetOf,
    Exec.bind_of_ok (EStateM.run_modify _ s), Rocket.image_htonl, SpaceCraft.image_htonl] at h
  obtain ⟨_, _, h₁, h⟩ := Exec.bind_ok h
  obtain ⟨hpos₁, rfl⟩ := onConn_send_ok h₁
  obtain ⟨_, _, h₂, h⟩ := Exec.bind_ok h
  obtain ⟨hpos₂, rfl⟩ := onConn_send_ok h₂
  obtain ⟨_, _, h₃, h⟩ := Exec.bind_ok h
  obtain ⟨hpos₃, rfl⟩ := onConn_send_ok h₃
  obtain ⟨_, _, h₄, h⟩ := Exec.bind_ok h
  obtain ⟨-, rfl⟩ := Exec.require_ok h₄
  obtain ⟨_, _, h₅, h⟩ := Exec.bind_ok h
  obtain ⟨-, rfl⟩ := Exec.require_ok h₅
  cases h
  exact ⟨(goes_iff s plaintext).mpr ⟨hpos₁, hpos₂, hpos₃⟩, hseq, rfl⟩

/-- If none of them fails, and the packet is not the last one, it returns. -/
theorem send_returns {s : Session} {plaintext : Bytes} (h : Goes s plaintext)
    (hseq : s.crypto.sequenceNumberO + 1 + 1 ≠ 0) :
    ∃ n, (send P o plaintext).run s = .ok n (sentParts P o s plaintext) := by
  obtain ⟨h₁, h₂, h₃⟩ := (goes_iff (P := P) (o := o) s plaintext).mp h
  have hnonneg := And.intro h₁.le (And.intro h₂.le h₃.le)
  unfold send
  rw [Exec.bind_of_ok (EStateM.run_get s), prepare_eq, ← packetOf,
    Exec.bind_of_ok (EStateM.run_modify _ s), Rocket.image_htonl, SpaceCraft.image_htonl]
  simp only [EStateM.run_bind, onConn_send, if_pos h₁, if_pos h₂, if_pos h₃, Exec.run_require,
    if_pos hseq, if_pos hnonneg, EStateM.run_pure]
  exact ⟨_, rfl⟩

/-! ### Complete packets -/

/-- If the call returns, all bytes of the packet are on the connection, in order. -/
def Complete (P : Primitives) (o : ByteOrder) (s : Session) (plaintext : Bytes) : Prop :=
  ∀ n s', (send P o plaintext).run s = .ok n s' →
    s'.conn.outgoing = s.conn.outgoing ++ (packetOf P o s.crypto plaintext).wire

/-- Every call of `::send` takes all of its bytes, or one of the three fails, or the packet has the
last number. -/
def Unharmed (s : Session) (plaintext : Bytes) : Prop :=
  Connection.returned s.conn.sendRets (partLengths plaintext)
      = (partLengths plaintext).map (Nat.cast : ℕ → ℤ) ∨
    (∃ r ∈ Connection.returned s.conn.sendRets (partLengths plaintext), r ≤ 0) ∨
    s.crypto.sequenceNumberO + 1 + 1 = 0

instance (s : Session) (plaintext : Bytes) : Decidable (Unharmed s plaintext) :=
  inferInstanceAs (Decidable (_ ∨ (∃ r ∈ _, r ≤ 0) ∨ _))

/-- What the three calls have put on the connection. -/
theorem sentParts_outgoing {s : Session} {plaintext : Bytes} (h : Goes s plaintext) :
    (sentParts P o s plaintext).conn.outgoing
        = s.conn.outgoing ++ (packetOf P o s.crypto plaintext).wire ↔
      Connection.returned s.conn.sendRets (partLengths plaintext)
        = (partLengths plaintext).map (Nat.cast : ℕ → ℤ) := by
  have hlens := parts_length (P := P) (o := o) s.crypto plaintext
  have hgoes : ∀ r ∈ Connection.returned s.conn.sendRets
      ((parts (packetOf P o s.crypto plaintext)).map List.length), 0 < r := by
    rw [hlens]
    exact h
  have hall := Connection.goneOut_eq_iff hgoes
  rw [hlens, parts_flatten] at hall
  rw [sentParts, Connection.afterSends_eq]
  exact (List.append_right_inj _).trans hall

theorem complete_iff (P : Primitives) (o : ByteOrder) (s : Session) (plaintext : Bytes) :
    Complete P o s plaintext ↔ Unharmed s plaintext := by
  by_cases hreturns : Goes s plaintext ∧ s.crypto.sequenceNumberO + 1 + 1 ≠ 0
  · obtain ⟨hgoes, hseq⟩ := hreturns
    obtain ⟨n, hrun⟩ := send_returns (P := P) (o := o) hgoes hseq
    have hall := sentParts_outgoing (P := P) (o := o) hgoes
    constructor
    · exact fun h => .inl (hall.mp (h n _ hrun))
    · rintro (hwhole | ⟨r, hr, hfails⟩ | hlast)
      · intro n' s' hrun'
        obtain ⟨-, -, rfl⟩ := send_returned hrun'
        exact hall.mpr hwhole
      · exact absurd (hgoes r hr) (not_lt.mpr hfails)
      · exact absurd hlast hseq
  · -- the call throws
    refine iff_of_true (fun n s' hrun => ?_) ?_
    · obtain ⟨hgoes, hseq, -⟩ := send_returned hrun
      exact absurd ⟨hgoes, hseq⟩ hreturns
    · by_cases hgoes : Goes s plaintext
      · exact .inr (.inr (by_contra fun hseq => hreturns ⟨hgoes, hseq⟩))
      · obtain ⟨r, hr⟩ := not_forall.mp hgoes
        obtain ⟨hmem, hpos⟩ := Classical.not_imp.mp hr
        exact .inr (.inl ⟨r, hmem, not_lt.mp hpos⟩)

end Crypto

/-! ### Sessions -/

/-- A session that sends packets, until a call throws. -/
structure Sending where
  running : Bool := true
  session : Session

namespace Sending

/-- The next packet, if the session is still there.  There is nothing to observe but the state. -/
def step (P : Primitives) (o : ByteOrder) (x : Sending) (plaintext : Bytes) : Sending × List Empty :=
  if x.running then
    match (Crypto.send P o plaintext).run x.session with
    | .ok _ s => (⟨true, s⟩, [])
    | .error _ s => (⟨false, s⟩, [])
  else (x, [])

/-- The session after some packets. -/
def after (P : Primitives) (o : ByteOrder) (x : Sending) (ps : List Bytes) : Sending :=
  (Machine.run (step P o) x ps).1

/-- The packets of some plaintexts, one after another on the wire. -/
def stream (P : Primitives) (o : ByteOrder) : Crypto → List Bytes → Bytes
  | _, [] => []
  | c, p :: ps => (c.prepare P o p).1.wire ++ stream P o (c.prepare P o p).2 ps

/-- While the session is there, all bytes of its packets are on the connection, in order. -/
def Whole (P : Primitives) (o : ByteOrder) (s : Session) (ps : List Bytes) : Prop :=
  (after P o ⟨true, s⟩ ps).running = true →
    (after P o ⟨true, s⟩ ps).session.conn.outgoing = s.conn.outgoing ++ stream P o s.crypto ps

/-- The next packet is not harmed. -/
def Unharmed (x : Sending) (plaintext : Bytes) : Prop :=
  x.running = true → Crypto.Unharmed x.session plaintext

theorem after_ok {P : Primitives} {o : ByteOrder} {s s' : Session} {p : Bytes} {n : ℤ}
    (hrun : (Crypto.send P o p).run s = .ok n s') (ps : List Bytes) :
    after P o ⟨true, s⟩ (p :: ps) = after P o ⟨true, s'⟩ ps := by
  rw [after, Machine.run_cons, step, if_pos rfl, hrun]
  rfl

theorem after_error {P : Primitives} {o : ByteOrder} {s s' : Session} {p : Bytes} {e : Ex}
    (hrun : (Crypto.send P o p).run s = .error e s') (ps : List Bytes) :
    after P o ⟨true, s⟩ (p :: ps) = after P o ⟨false, s'⟩ ps := by
  rw [after, Machine.run_cons, step, if_pos rfl, hrun]
  rfl

theorem stopped (P : Primitives) (o : ByteOrder) (s : Session) (ps : List Bytes) :
    after P o ⟨false, s⟩ ps = ⟨false, s⟩ ∧
      Machine.Meets (step P o) Unharmed ⟨false, s⟩ ps := by
  induction ps with
  | nil => exact ⟨rfl, trivial⟩
  | cons p ps ih => exact ⟨ih.1, nofun, ih.2⟩

theorem whole_nil (P : Primitives) (o : ByteOrder) (s : Session) : Whole P o s [] :=
  fun _ => (List.append_nil _).symm

/-- A packet that was sent, and what follows it. -/
theorem whole_cons {P : Primitives} {o : ByteOrder} {s s' : Session} {p : Bytes} {n : ℤ}
    (hrun : (Crypto.send P o p).run s = .ok n s')
    (hout : s'.conn.outgoing = s.conn.outgoing ++ (Crypto.packetOf P o s.crypto p).wire)
    (ps : List Bytes) : Whole P o s (p :: ps) ↔ Whole P o s' ps := by
  have hcrypto : s'.crypto = (s.crypto.prepare P o p).2 := by
    obtain ⟨-, -, rfl⟩ := Crypto.send_returned hrun
    rw [Crypto.prepare_eq]
    rfl
  rw [Whole, Whole, after_ok hrun, hout, stream, hcrypto, Crypto.prepare_eq, Crypto.packetOf,
    List.append_assoc]

/-- **A session keeps its stream whole exactly as long as no packet is harmed.** -/
theorem whole_iff (P : Primitives) (o : ByteOrder) (s : Session) (ps : List Bytes) :
    (∀ qs, qs <+: ps → Whole P o s qs) ↔ Machine.Meets (step P o) Unharmed ⟨true, s⟩ ps := by
  induction ps generalizing s with
  | nil =>
    refine iff_of_true (fun qs hqs => ?_) trivial
    rw [List.prefix_nil.mp hqs]
    exact whole_nil P o s
  | cons p ps ih =>
    have hharm := Crypto.complete_iff P o s p
    rw [Machine.Meets, step, if_pos rfl]
    cases hrun : (Crypto.send P o p).run s with
    | error e s' =>
      have hcomplete : Crypto.Complete P o s p := by
        intro n s'' h
        rw [hrun] at h
        cases h
      refine iff_of_true (fun qs hqs => ?_) ⟨fun _ => hharm.mp hcomplete, (stopped P o s' ps).2⟩
      rcases List.prefix_cons_iff.mp hqs with rfl | ⟨rs, rfl, -⟩
      · exact whole_nil P o s
      · rw [Whole, after_error hrun, (stopped P o s' rs).1]
        intro h
        cases h
    | ok n s' =>
      constructor
      · intro h
        have hone := h [p] (List.cons_prefix_cons.mpr ⟨rfl, List.nil_prefix⟩)
        rw [Whole, after_ok hrun, stream, stream, List.append_nil, Crypto.prepare_eq,
          ← Crypto.packetOf] at hone
        have hout := hone rfl
        refine ⟨fun _ => hharm.mp fun n' s'' h' => ?_, (ih s').mp fun qs hqs => ?_⟩
        · rw [hrun] at h'
          cases h'
          exact hout
        · exact (whole_cons hrun hout qs).mp (h (p :: qs) (List.cons_prefix_cons.mpr ⟨rfl, hqs⟩))
      · rintro ⟨hun, hmeets⟩ qs hqs
        have hout := hharm.mpr (hun rfl) n s' hrun
        rcases List.prefix_cons_iff.mp hqs with rfl | ⟨rs, rfl, hrs⟩
        · exact whole_nil P o s
        · exact (whole_cons hrun hout rs).mpr ((ih s').mpr hmeets rs hrs)

end Sending

namespace Crypto

/-- **Sending is complete or fails** exactly where no packet is harmed: in a call of `Crypto::send`,
and in a session, in which one lost byte shifts everything that follows. -/
theorem send_complete (P : Primitives) (o : ByteOrder) :
    (∀ (s : Session) (plaintext : Bytes), Complete P o s plaintext ↔ Unharmed s plaintext) ∧
      ∀ (s : Session) (ps : List Bytes), (∀ qs, qs <+: ps → Sending.Whole P o s qs) ↔
        Machine.Meets (Sending.step P o) Sending.Unharmed ⟨true, s⟩ ps :=
  ⟨complete_iff P o, Sending.whole_iff P o⟩

/-- A session whose socket takes both headers, and then two bytes of what it is given. -/
def halfTaken : Session := Session.new (.sample 1) { sendRets := [40, 36, 2] }

/-- **Half of the payload is lost**, and the call returns. -/
theorem send_cut_short :
    (∃ s', (send .sample .little [1, 2, 3, 4]).run halfTaken = .ok 78 s' ∧
      s'.conn.outgoing.length = 78 ∧
      (packetOf .sample .little halfTaken.crypto [1, 2, 3, 4]).wire.length = 80) ∧
    ¬ Complete .sample .little halfTaken [1, 2, 3, 4] := by
  have hgoes : Goes halfTaken [1, 2, 3, 4] := by decide
  obtain ⟨n, hrun⟩ := send_returns (P := .sample) (o := .little) hgoes (by decide)
  have hcount : Exec.outcome ((send .sample .little [1, 2, 3, 4]).run halfTaken) = .ok 78 := by
    decide +kernel
  rw [hrun] at hcount
  cases hcount
  refine ⟨⟨_, hrun, by decide +kernel, by decide +kernel⟩, ?_⟩
  rw [complete_iff]
  decide

end Crypto

end Cybrg
