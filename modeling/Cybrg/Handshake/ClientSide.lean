import Cybrg.Common.RSACrypto

/-!
# The handshake of the client

`handshake()` of the client program, cut at the points where the network and the other parties
come in: `sendM1`, `recvM2`, `acceptM2`, `sendM3`.  The last three make up `finish`, and
`finish_ends` lists the ways in which it can end with what each leaves in the record of the run.
-/

namespace Cybrg

open Octets

variable {C K S : Type}

/-- The text that the server signs: both seals, the iv and the client's nonce, one after the
other. -/
def signedText (sessionKeySeal authKeySeal : RSASeal) (iv : Bytes) (nonceClient : Nonce) : Bytes :=
  sessionKeySeal.encode ++ authKeySeal.encode ++ iv ++ nonceClient.toList

/-- `seal.str() + seal.str() + iv.str() + nonce.str()`. -/
def whatToSign (sessionKeySeal authKeySeal : RSASeal) (iv : Bytes) (nonceClient : Nonce) :
    Except Ex Bytes := do
  let sessionKeyStr ← sessionKeySeal.str
  let authKeyStr ← authKeySeal.str
  return sessionKeyStr ++ authKeyStr ++ iv ++ nonceClient.toList

theorem whatToSign_ok {s a : RSASeal} {iv : Bytes} {n : Nonce} {bs : Bytes}
    (h : whatToSign s a iv n = .ok bs) : bs = signedText s a iv n := by
  unfold whatToSign at h
  cases hs : s.str with
  | error e => rw [hs] at h; cases h
  | ok x =>
    cases ha : a.str with
    | error e => rw [hs, ha] at h; cases h
    | ok y =>
      rw [hs, ha] at h
      cases h
      rw [signedText, RSASeal.str_ok hs, RSASeal.str_ok ha]

/-- `connection->recv(buffer)`, the call with number `i` of a run. -/
def recvBuffer {A : Type} (mem : Memory) (i : ℕ) : EStateM Ex (Party K A) Bytes :=
  Party.onConn (Connection.recvString fun k => mem (2 * i + k))

/-- `connection->send(buffer)`. -/
def sendBuffer {A : Type} (buffer : Bytes) : EStateM Ex (Party K A) ℤ :=
  Party.onConn (Connection.sendString buffer)

namespace ClientMain

/-! ### Data -/

/-- The random choices of a run.  A generator that fails throws. -/
structure Coins where
  nonceClient : Except Ex Nonce
  sign : ℕ

/-- The second message as the client has received and decoded it. -/
structure M2 (C : Type) where
  serverCertificate : C
  encryptedSessionKeySeal : RSASeal
  encryptedAuthKeySeal : RSASeal
  iv : Bytes
  signature : Bytes
  nonceServer : Nonce

/-- What a run has settled on. -/
structure View (C : Type) where
  nonceClient : Nonce
  m2 : M2 C
  keys : Keys

/-- The text that is verified. -/
def M2.text (m : M2 C) (nonceClient : Nonce) : Bytes :=
  signedText m.encryptedSessionKeySeal m.encryptedAuthKeySeal m.iv nonceClient

/-- A run of the client's handshake. -/
abbrev Run (C K : Type) := Party K (View C)

/-! ### The program -/

variable (ssl : Openssl C K S) (cm : CertManager C S)

/-- The first message: certificate and nonce. -/
def sendM1 (coins : Coins) : EStateM Ex (Run C K) Nonce := do
  let buffer ← Exec.ofExcept (Certificate.str ssl cm.cert)
  let _ ← sendBuffer buffer
  let nonceClient ← Exec.ofExcept coins.nonceClient
  let _ ← sendBuffer nonceClient.toList
  return nonceClient

/-- The second message: six strings. -/
def recvM2 (mem : Memory) : EStateM Ex (Run C K) (M2 C) := do
  let buffer ← recvBuffer mem 0
  let serverCertificate ← Exec.ofExcept (Certificate.fromString ssl buffer)
  Exec.ofExcept (cm.verifyCert serverCertificate)
  let buffer ← recvBuffer mem 1
  let encryptedSessionKeySeal := RSASeal.fromString (mem 100) buffer
  let buffer ← recvBuffer mem 2
  let encryptedAuthKeySeal := RSASeal.fromString (mem 101) buffer
  let iv ← recvBuffer mem 3
  let signature ← recvBuffer mem 4
  let buffer ← recvBuffer mem 5
  let nonceServer ← Exec.ofExcept (Nonce.ofString buffer)
  return { serverCertificate, encryptedSessionKeySeal, encryptedAuthKeySeal, iv, signature,
           nonceServer }

/-- Verify the signature and open the seals. -/
def acceptM2 (mem : Memory) (nonceClient : Nonce) (m : M2 C) : EStateM Ex (Run C K) Keys := do
  let text ← Exec.ofExcept (whatToSign m.encryptedSessionKeySeal m.encryptedAuthKeySeal m.iv
    nonceClient)
  let serverPublicKey ← Exec.ofExcept (RSAKey.fromCertificate ssl m.serverCertificate)
  RSACrypto.verify ssl text m.signature serverPublicKey
  let sessionKey ← Exec.ofExcept
    (RSACrypto.decrypt ssl (mem 200) cm.privKey m.encryptedSessionKeySeal)
  let authKey ← Exec.ofExcept
    (RSACrypto.decrypt ssl (mem 201) cm.privKey m.encryptedAuthKeySeal)
  let keys := { sessionKey, authKey, iv := m.iv }
  modify fun p => { p with view := some ⟨nonceClient, m, keys⟩ }
  return keys

/-- The third message: the server's nonce, signed. -/
def sendM3 (coins : Coins) (m : M2 C) : EStateM Ex (Run C K) Unit := do
  let signature ← RSACrypto.sign ssl coins.sign cm.privKey m.nonceServer.toList
  let _ ← sendBuffer signature
  return ()

/-- Everything after the first message. -/
def finish (mem : Memory) (coins : Coins) (nonceClient : Nonce) : EStateM Ex (Run C K) Keys := do
  let m ← recvM2 ssl cm mem
  let keys ← acceptM2 ssl cm mem nonceClient m
  sendM3 ssl cm coins m
  return keys

/-- `handshake` of the client program. -/
def handshake (mem : Memory) (coins : Coins) : EStateM Ex (Run C K) Keys := do
  let nonceClient ← sendM1 ssl cm coins
  finish ssl cm mem coins nonceClient

/-! ### How it can end -/

/-- A second message whose certificate was accepted and whose signature passed. -/
structure Checked (m : M2 C) (nonceClient : Nonce) (key : K) : Prop where
  certified : cm.verifyCert m.serverCertificate = .ok ()
  publicKey : ssl.x509GetPubkey m.serverCertificate = some key
  passes : RSACrypto.passes ssl (m.text nonceClient) m.signature key
  sessionKeyWritable : m.encryptedSessionKeySeal.Writable
  authKeyWritable : m.encryptedAuthKeySeal.Writable

/-- Both seals of a second message opened to the keys. -/
structure Opened (mem : Memory) (m : M2 C) (keys : Keys) : Prop where
  sessionKey : RSACrypto.decrypt ssl (mem 200) cm.privKey m.encryptedSessionKeySeal
    = .ok keys.sessionKey
  authKey : RSACrypto.decrypt ssl (mem 201) cm.privKey m.encryptedAuthKeySeal = .ok keys.authKey
  iv : keys.iv = m.iv

/-- `m` is the second message that the run `p` reads. -/
def Received (mem : Memory) (p : Run C K) (m : M2 C) : Prop :=
  ∃ p', (recvM2 ssl cm mem).run p = .ok m p'

/-- The ways in which `finish` can end, from a run `p`. -/
inductive FinishEnds (mem : Memory) (nonceClient : Nonce) (p : Run C K) :
    EStateM.Result Ex (Run C K) Keys → Prop
  /-- Something was wrong before a signature was found right. -/
  | early {e : Ex} {p' : Run C K} (h : p'.record = p.record) :
      FinishEnds mem nonceClient p (.error e p')
  /-- The signature was right, but a seal did not open. -/
  | unopened {e : Ex} {p' : Run C K} {m : M2 C} {key : K} (hc : Checked ssl cm m nonceClient key)
      (h : p'.record = (p.verified ++ [(key, m.text nonceClient)], p.signed, p.view)) :
      FinishEnds mem nonceClient p (.error e p')
  /-- The keys were there, but the server's nonce could not be signed. -/
  | unsigned {e : Ex} {p' : Run C K} {m : M2 C} {key : K} {keys : Keys}
      (hm : Received ssl cm mem p m) (hc : Checked ssl cm m nonceClient key)
      (ho : Opened ssl cm mem m keys)
      (h : p'.record = (p.verified ++ [(key, m.text nonceClient)], p.signed,
        some ⟨nonceClient, m, keys⟩)) :
      FinishEnds mem nonceClient p (.error e p')
  /-- The server's nonce was signed, but the signature could not be sent. -/
  | unsent {e : Ex} {p' : Run C K} {m : M2 C} {key : K} {keys : Keys}
      (hm : Received ssl cm mem p m) (hc : Checked ssl cm m nonceClient key)
      (ho : Opened ssl cm mem m keys)
      (h : p'.record = (p.verified ++ [(key, m.text nonceClient)],
        p.signed ++ [m.nonceServer.toList], some ⟨nonceClient, m, keys⟩)) :
      FinishEnds mem nonceClient p (.error e p')
  | done {p' : Run C K} {m : M2 C} {key : K} {keys : Keys}
      (hm : Received ssl cm mem p m) (hc : Checked ssl cm m nonceClient key)
      (ho : Opened ssl cm mem m keys)
      (h : p'.record = (p.verified ++ [(key, m.text nonceClient)],
        p.signed ++ [m.nonceServer.toList], some ⟨nonceClient, m, keys⟩)) :
      FinishEnds mem nonceClient p (.ok keys p')

variable {ssl cm}

theorem recvM2_record (mem : Memory) :
    Exec.Leaves Party.record (recvM2 ssl cm mem) := by
  apply Exec.Leaves.bind (Party.onConn_record _)
  intro _
  apply Exec.Leaves.bind (.ofExcept _)
  intro _
  apply Exec.Leaves.bind (.ofExcept _)
  intro _
  apply Exec.Leaves.bind (Party.onConn_record _)
  intro _
  apply Exec.Leaves.bind (Party.onConn_record _)
  intro _
  apply Exec.Leaves.bind (Party.onConn_record _)
  intro _
  apply Exec.Leaves.bind (Party.onConn_record _)
  intro _
  apply Exec.Leaves.bind (Party.onConn_record _)
  intro _
  exact .bind (.ofExcept _) fun _ => .pure _

/-- A second message that was received has an accepted certificate and decoded seals. -/
theorem recvM2_ok {mem : Memory} {p p' : Run C K} {m : M2 C}
    (h : (recvM2 ssl cm mem).run p = .ok m p') :
    cm.verifyCert m.serverCertificate = .ok () ∧ m.encryptedSessionKeySeal.Writable ∧
      m.encryptedAuthKeySeal.Writable := by
  obtain ⟨_, _, -, h₁⟩ := Exec.bind_ok h
  obtain ⟨cert, _, -, h₂⟩ := Exec.bind_ok h₁
  obtain ⟨⟨⟩, _, hcert, h₃⟩ := Exec.bind_ok h₂
  obtain ⟨b₁, _, -, h₄⟩ := Exec.bind_ok h₃
  obtain ⟨b₂, _, -, h₅⟩ := Exec.bind_ok h₄
  obtain ⟨iv, _, -, h₆⟩ := Exec.bind_ok h₅
  obtain ⟨signature, _, -, h₇⟩ := Exec.bind_ok h₆
  obtain ⟨_, _, -, h₈⟩ := Exec.bind_ok h₇
  obtain ⟨nonceServer, _, -, h₉⟩ := Exec.bind_ok h₈
  cases h₉
  exact ⟨(Exec.ofExcept_ok hcert).1, RSASeal.fromString_writable _ _,
    RSASeal.fromString_writable _ _⟩

/-- How `acceptM2` can end. -/
theorem acceptM2_ends (mem : Memory) (nonceClient : Nonce) {m : M2 C}
    (hcert : cm.verifyCert m.serverCertificate = .ok ())
    (hs : m.encryptedSessionKeySeal.Writable) (ha : m.encryptedAuthKeySeal.Writable)
    (p : Run C K) :
    (∃ e, (acceptM2 ssl cm mem nonceClient m).run p = .error e p) ∨
    (∃ e p' key, (acceptM2 ssl cm mem nonceClient m).run p = .error e p' ∧
      Checked ssl cm m nonceClient key ∧
      p'.record = (p.verified ++ [(key, m.text nonceClient)], p.signed, p.view)) ∨
    ∃ keys p' key, (acceptM2 ssl cm mem nonceClient m).run p = .ok keys p' ∧
      Checked ssl cm m nonceClient key ∧ Opened ssl cm mem m keys ∧
      p'.record = (p.verified ++ [(key, m.text nonceClient)], p.signed,
        some ⟨nonceClient, m, keys⟩) := by
  unfold acceptM2
  cases htext : whatToSign m.encryptedSessionKeySeal m.encryptedAuthKeySeal m.iv nonceClient with
  | error e => exact .inl ⟨e, rfl⟩
  | ok text =>
    obtain rfl := whatToSign_ok htext
    rw [Exec.bind_of_ok (Exec.run_ofExcept _ p)]
    cases hkey : RSAKey.fromCertificate ssl m.serverCertificate with
    | error e => exact .inl ⟨e, rfl⟩
    | ok key =>
      rw [Exec.bind_of_ok (Exec.run_ofExcept _ p)]
      cases hv : (RSACrypto.verify ssl (signedText m.encryptedSessionKeySeal
          m.encryptedAuthKeySeal m.iv nonceClient) m.signature key).run p with
      | error e p' =>
        obtain rfl := RSACrypto.verify_error hv
        exact .inl ⟨e, Exec.bind_of_error hv⟩
      | ok u p₁ =>
        obtain ⟨hpass, rfl⟩ := RSACrypto.verify_ok hv
        have hc : Checked ssl cm m nonceClient key :=
          ⟨hcert, RSAKey.fromCertificate_ok hkey, hpass, hs, ha⟩
        rw [Exec.bind_of_ok hv]
        cases hks : RSACrypto.decrypt ssl (mem 200) cm.privKey m.encryptedSessionKeySeal with
        | error e => exact .inr (.inl ⟨e, _, key, rfl, hc, rfl⟩)
        | ok sessionKey =>
          rw [Exec.bind_of_ok (Exec.run_ofExcept _ _)]
          cases hka : RSACrypto.decrypt ssl (mem 201) cm.privKey m.encryptedAuthKeySeal with
          | error e => exact .inr (.inl ⟨e, _, key, rfl, hc, rfl⟩)
          | ok authKey => exact .inr (.inr ⟨_, _, key, rfl, hc, ⟨hks, hka, rfl⟩, rfl⟩)

/-- **How `finish` can end.** -/
theorem finish_ends (mem : Memory) (coins : Coins) (nonceClient : Nonce) (p : Run C K) :
    FinishEnds ssl cm mem nonceClient p ((finish ssl cm mem coins nonceClient).run p) := by
  unfold finish
  cases hm : (recvM2 ssl cm mem).run p with
  | error e p' =>
    rw [Exec.bind_of_error hm]
    exact .early ((recvM2_record mem).of_error hm)
  | ok m p₁ =>
    have hrec := (recvM2_record mem).of_ok hm
    obtain ⟨hcert, hs, ha⟩ := recvM2_ok hm
    simp only [Party.record, Prod.mk.injEq] at hrec
    obtain ⟨hver, hsig, hview⟩ := hrec
    rw [Exec.bind_of_ok hm]
    rcases @acceptM2_ends C K S ssl cm mem nonceClient m hcert hs ha p₁ with
      ⟨e, hrun⟩ | ⟨e, p₂, key, hrun, hc, hr⟩ | ⟨keys, p₂, key, hrun, hc, ho, hr⟩
    · rw [Exec.bind_of_error hrun]
      exact .early (by rw [Party.record, Party.record, hver, hsig, hview])
    · rw [Exec.bind_of_error hrun]
      exact .unopened hc (by rw [hr, hver, hsig, hview])
    · rw [Exec.bind_of_ok hrun]
      simp only [Party.record, Prod.mk.injEq] at hr
      obtain ⟨hver₂, hsig₂, hview₂⟩ := hr
      rw [hver] at hver₂
      rw [hsig] at hsig₂
      cases hsign : (RSACrypto.sign ssl coins.sign cm.privKey m.nonceServer.toList).run p₂ with
      | error e p₃ =>
        obtain rfl := RSACrypto.sign_error hsign
        have hthrow : (sendM3 ssl cm coins m).run p₃ = .error e p₃ := Exec.bind_of_error hsign
        rw [Exec.bind_of_error hthrow]
        exact .unsigned ⟨p₁, hm⟩ hc ho (by rw [Party.record, hver₂, hsig₂, hview₂])
      | ok signature p₃ =>
        obtain ⟨-, rfl⟩ := RSACrypto.sign_ok hsign
        cases hsend : (sendBuffer signature).run
            { p₂ with signed := p₂.signed ++ [m.nonceServer.toList] } with
        | error e p₄ =>
          have hrec₄ := (Party.onConn_record _).of_error hsend
          have hthrow : (sendM3 ssl cm coins m).run p₂ = .error e p₄ := by
            unfold sendM3
            rw [Exec.bind_of_ok hsign, Exec.bind_of_error hsend]
          rw [Exec.bind_of_error hthrow]
          refine .unsent ⟨p₁, hm⟩ hc ho (hrec₄.trans ?_)
          rw [Party.record, hver₂, hsig₂, hview₂]
        | ok n p₄ =>
          have hrec₄ := (Party.onConn_record _).of_ok hsend
          have hok : (sendM3 ssl cm coins m).run p₂ = .ok () p₄ := by
            unfold sendM3
            rw [Exec.bind_of_ok hsign, Exec.bind_of_ok hsend]
            rfl
          rw [Exec.bind_of_ok hok]
          refine .done ⟨p₁, hm⟩ hc ho (hrec₄.trans ?_)
          rw [Party.record, hver₂, hsig₂, hview₂]

end ClientMain

end Cybrg
