import Cybrg.Sessions.Discipline

/-!
# What the two directions of a session share

Both ends build their cipher contexts from the same key and the same iv, so the encryption
contexts of the two directions start in the same register.  From there each follows its own
ciphertext:

* `cipherStream` — the encrypted payloads of one end, as one stream;
* `sent_eq_cipherStream` — this is what an end sends in every run, whatever it receives meanwhile;
* `Determines` — a rule that reads a byte of the server's plaintext off the two ciphertext streams
  and the client's plaintext;
* `first_byte_revealed` — there is one for the first byte;
* `reveals_iff` — and for no other.
-/

namespace Cybrg

open Octets

namespace Crypto

variable {P : Primitives} {o : ByteOrder}

/-- The encrypted payloads that `send` makes of some plaintexts, one after the other. -/
def cipherStream (P : Primitives) (o : ByteOrder) : Crypto → List Bytes → Bytes
  | _, [] => []
  | c, t :: ts =>
      let (p, c) := c.prepare P o t
      p.payload ++ cipherStream P o c ts

/-- **The cut into packets leaves no trace** in the ciphertext. -/
theorem cipherStream_eq (c : Crypto) (ts : List Bytes) :
    cipherStream P o c ts = (c.ctxE.encryptUpdate P ts.flatten).1 := by
  induction ts generalizing c with
  | nil => rfl
  | cons t ts ih =>
    rw [cipherStream, prepare_eq]
    dsimp only
    rw [ih, List.flatten_cons]
    simp only [CipherCtx.encryptUpdate, StreamCipher.encrypt_append]
    rfl

theorem cipherStream_snoc (c : Crypto) (ts : List Bytes) (t : Bytes) :
    cipherStream P o c (ts ++ [t]) = cipherStream P o c ts
      ++ ((c.ctxE.encryptUpdate P ts.flatten).2.encryptUpdate P t).1 := by
  rw [cipherStream_eq, cipherStream_eq, List.flatten_append, List.flatten_singleton]
  simp only [CipherCtx.encryptUpdate, StreamCipher.encrypt_append]

end Crypto

/-! ### The stream of an end -/

namespace Station

variable {P : Primitives} {o : ByteOrder}

/-- The encryption context of an end and what it has sent follow the plaintexts alone. -/
structure Streaming (P : Primitives) (o : ByteOrder) (k : SessionKeys) (t : Station)
    (calls : List Call) : Prop where
  context : t.session.crypto.ctxE
    = ((Crypto.new k).ctxE.encryptUpdate P (plaintexts calls).flatten).2
  stream : t.sent.flatMap (·.payload)
    = Crypto.cipherStream P o (Crypto.new k) (plaintexts calls)

theorem Streaming.step {k : SessionKeys} {t : Station} {calls : List Call}
    (h : Streaming P o k t calls) (e : Event) :
    Streaming P o k (step P o t e).1 (calls ++ (step P o t e).2) := by
  cases e with
  | arrive bs =>
    simp only [Station.step, List.append_nil]
    exact ⟨h.context, h.stream⟩
  | send plaintext =>
    cases hopen : t.closed with
    | true => simpa only [Station.step, hopen, if_true, List.append_nil] using h
    | false =>
      obtain ⟨c, -, hend⟩ := Crypto.send_cases P o plaintext t.endpoint.session
      have hplain : plaintexts (calls ++ [.send plaintext
          (Exec.outcome ((Crypto.send P o plaintext).run t.endpoint.session))])
          = plaintexts calls ++ [plaintext] := by
        simp [plaintexts]
      simp only [Station.step, hopen, Bool.false_eq_true, if_false]
      refine ⟨?_, ?_⟩
      · rw [hplain, hend]
        show (t.session.crypto.ctxE.encryptUpdate P plaintext).2 = _
        rw [h.context, List.flatten_append, List.flatten_singleton]
        simp only [CipherCtx.encryptUpdate, StreamCipher.encrypt_append]
      · rw [hplain, Crypto.cipherStream_snoc, ← h.stream, ← h.context, sent, hend]
        simp [Crypto.sealed, sent]
  | recv size =>
    cases hopen : t.closed with
    | true => simpa only [Station.step, hopen, if_true, List.append_nil] using h
    | false =>
      have hhalf := recv_sendHalf (P := P) (o := o) size t.endpoint
      simp only [sendHalf, Prod.mk.injEq] at hhalf
      obtain ⟨-, -, hctx, hsent, -, -⟩ := hhalf
      have hplain : plaintexts (calls ++ [.recv size
          (Exec.outcome ((Crypto.recv P o size).run t.endpoint))]) = plaintexts calls := by
        simp [plaintexts]
      simp only [Station.step, hopen, Bool.false_eq_true, if_false]
      refine ⟨?_, ?_⟩
      · rw [hplain]
        exact hctx.trans h.context
      · rw [hplain]
        exact (congrArg (List.flatMap Packet.payload) hsent).trans h.stream

/-- **In every run the ciphertext of an end is the encryption of its plaintext stream**, whatever
arrives, whatever is received in between and however the stream is cut. -/
theorem sent_eq_cipherStream (k : SessionKeys) (conn : Connection) (es : List Event) :
    (Machine.run (step P o) (new k conn) es).1.sent.flatMap (·.payload)
      = Crypto.cipherStream P o (Crypto.new k)
          (plaintexts (Machine.run (step P o) (new k conn) es).2) := by
  have hnew : Streaming P o k (new k conn) [] := ⟨rfl, rfl⟩
  exact (Machine.invariant_trace (J := Streaming P o k) (fun _ _ e h (_ : True) => h.step e) hnew
    (Machine.meets_true es)).stream

end Station

/-! ### The first byte -/

/-- A rule that finds byte `i` of what the server sends, from the ciphertext of both directions and
what the client sends, for every block cipher, every key and iv and all streams. -/
def Determines (f : Bytes → Bytes → Bytes → Byte) (i : ℕ) : Prop :=
  ∀ (P : Primitives) (o o' : ByteOrder) (k : SessionKeys) (ps qs : List Bytes),
    ps.flatten ≠ [] → ∀ h : i < qs.flatten.length,
      f (Crypto.cipherStream P o (Crypto.new k) ps) (Crypto.cipherStream P o' (Crypto.new k) qs)
        ps.flatten = qs.flatten[i]

/-- The keystream byte of the shared register, taken off one direction and put on the other. -/
def firstByte (c d p : Bytes) : Byte := c.headD 0 ^^^ p.headD 0 ^^^ d.headD 0

/-- **The first byte of the server is revealed.** -/
theorem first_byte_revealed : Determines firstByte 0 := by
  intro P o o' k ps qs hp hq
  rw [Crypto.cipherStream_eq, Crypto.cipherStream_eq]
  obtain ⟨p, ps, hps⟩ := List.exists_cons_of_ne_nil hp
  obtain ⟨q, qs, hqs⟩ := List.exists_cons_of_length_pos hq
  simp only [hps, hqs, CipherCtx.encryptUpdate, StreamCipher.encrypt, firstByte, List.headD_cons,
    List.getElem_cons_zero]
  -- the keystream byte of the client cancels that of the server
  generalize keystream P (Crypto.new k).ctxE.key (Crypto.new k).ctxE.register = x
  rw [UInt8.xor_comm p x, UInt8.xor_assoc x p p, UInt8.xor_self, UInt8.xor_zero,
    UInt8.xor_comm q x, ← UInt8.xor_assoc, UInt8.xor_self, UInt8.zero_xor]

/-! ### All later bytes -/

/-- A cipher whose keystream is zero at the register `r` and has the byte `b` everywhere else. -/
def maskedFrom (r : Block) (b : Byte) : Primitives :=
  { Primitives.sample with aes128 := fun _ x => if x = r then fixed 16 [] else fixed 16 [b] }

theorem keystream_maskedFrom_self (key r : Block) (b : Byte) :
    keystream (maskedFrom r b) key r = 0 := by
  simp only [keystream, maskedFrom, if_true]
  rfl

theorem keystream_maskedFrom_ne (key : Block) {r x : Block} (b : Byte) (h : x ≠ r) :
    keystream (maskedFrom r b) key x = b := by
  simp only [keystream, maskedFrom, if_neg h]
  rfl

/-- A register into which a `1` has just gone is not empty. -/
theorem shiftIn_one_ne (r : Block) : shiftIn r 1 ≠ fixed 16 [] := by
  intro h
  have hlast := congrArg (fun v : Block => v.toList.getLast?) h
  simp only [shiftIn, List.Vector.toList_mk, List.getLast?_concat] at hlast
  cases hlast

/-- Ciphertext of `i + 1` bytes with a `1` before its last byte. -/
def marked (i : ℕ) : Bytes := List.replicate (i - 1) 0 ++ [1, 0]

theorem marked_length {i : ℕ} (h : i ≠ 0) : (marked i).length = i + 1 := by
  simp only [marked, List.length_append, List.length_replicate, List.length_cons, List.length_nil]
  omega

/-- The register that masks its last byte. -/
theorem register_marked {i : ℕ} (h : i ≠ 0) (r : Block) :
    ((marked i).take i).foldl shiftIn r ≠ fixed 16 [] := by
  have htake : (marked i).take i = List.replicate (i - 1) 0 ++ [1] := by
    rw [marked, show ([1, 0] : Bytes) = [1] ++ [0] from rfl, ← List.append_assoc,
      List.take_left' (by simp; omega)]
  rw [htake, List.foldl_append]
  exact shiftIn_one_ne _

/-- What the server must have sent for its ciphertext to be `marked i`. -/
def markedPlaintext (k : SessionKeys) (b : Byte) (i : ℕ) : Bytes :=
  (StreamCipher.decrypt (keystream (maskedFrom k.iv b) k.sessionKey) shiftIn k.iv (marked i)).1

/-- Its byte `i` is the byte of the cipher. -/
theorem markedPlaintext_getElem {k : SessionKeys} (hk : k.iv = fixed 16 []) (b : Byte) {i : ℕ}
    (hi : i ≠ 0) (h : i < (markedPlaintext k b i).length) : (markedPlaintext k b i)[i] = b := by
  have hlast : (marked i)[i]? = some 0 := by
    rw [marked, List.getElem?_append_right (by simp), List.length_replicate,
      show i - (i - 1) = 1 by omega]
    rfl
  have hget : (markedPlaintext k b i)[i]? = some b := by
    rw [markedPlaintext, StreamCipher.decrypt_getElem?, hlast,
      keystream_maskedFrom_ne _ _ (by rw [hk]; exact register_marked hi _), Option.map_some,
      UInt8.zero_xor]
  exact (List.getElem?_eq_some_iff.mp hget).2

/-- **No rule finds a later byte.**  The client sends one byte and the server's ciphertext is
`marked i`; what stands at position `i` depends on the cipher at a register that the client's
direction never reaches. -/
theorem not_determines {i : ℕ} (hi : i ≠ 0) (f : Bytes → Bytes → Bytes → Byte) :
    ¬ Determines f i := by
  intro hf
  have hk : (SessionKeys.sample 0).iv = fixed 16 [] := rfl
  generalize SessionKeys.sample 0 = k at hk
  have hview : ∀ b, f [0] (marked i) [0] = b := by
    intro b
    have hlen : (markedPlaintext k b i).length = i + 1 := by
      rw [markedPlaintext, StreamCipher.decrypt_length, marked_length hi]
    have hc : Crypto.cipherStream (maskedFrom k.iv b) .big (Crypto.new k) [[0]] = [0] := by
      rw [Crypto.cipherStream_eq]
      simp only [CipherCtx.encryptUpdate, Crypto.new, List.flatten_singleton, StreamCipher.encrypt,
        keystream_maskedFrom_self]
      rfl
    have hd : Crypto.cipherStream (maskedFrom k.iv b) .big (Crypto.new k) [markedPlaintext k b i]
        = marked i := by
      rw [Crypto.cipherStream_eq]
      simp only [CipherCtx.encryptUpdate, Crypto.new, List.flatten_singleton, markedPlaintext,
        StreamCipher.encrypt_decrypt]
    have hrule := hf (maskedFrom k.iv b) .big .big k [[0]] [markedPlaintext k b i] (by simp)
      (by rw [List.flatten_singleton, hlen]; exact Nat.lt_succ_self i)
    simp only [hc, hd, List.flatten_singleton] at hrule
    rw [hrule, markedPlaintext_getElem hk b hi]
  exact absurd ((hview 0).symm.trans (hview 1)) (by decide)

/-- **What one direction tells about the other**: with the client's plaintext known, the byte of
the server at position `i` is a function of what goes over the wire exactly for the first one. -/
theorem reveals_iff (i : ℕ) :
    (¬ ∃ f : Bytes → Bytes → Bytes → Byte, Determines f i) ↔ i ≠ 0 := by
  constructor
  · rintro h rfl
    exact h ⟨firstByte, first_byte_revealed⟩
  · intro hi h
    obtain ⟨f, hf⟩ := h
    exact not_determines hi f hf

/-- The rule for the first byte, as a statement about positions and rules. -/
theorem some_byte_revealed : ∃ (i : ℕ) (f : Bytes → Bytes → Bytes → Byte), Determines f i :=
  ⟨0, firstByte, first_byte_revealed⟩

end Cybrg
