import Cybrg.Handshake.ClientSide

/-!
# The handshake of the server

`Client::handshake()` of the server program, cut where the network and the other parties come in:
`recvM1`, `makeM2`, `sendM2` make up `offer`, and `recvM3` is the rest.  `offer_ends` and
`recvM3_ends` list the ways in which they can end.
-/

namespace Cybrg

open Octets

variable {C K S : Type}

namespace ServerClient

/-! ### Data -/

/-- The random choices of a run.  A generator that fails throws. -/
structure Coins where
  sessionKey : Except Ex Block
  authKey : Except Ex Tag
  iv : Except Ex Block
  nonceServer : Except Ex Nonce
  sealSessionKey : ℕ
  sealAuthKey : ℕ
  sign : ℕ

/-- The second message and what belongs to it, as the server has made it. -/
structure Offer (C K : Type) where
  clientCertificate : C
  clientPublicKey : K
  nonceClient : Nonce
  sessionKey : Block
  authKey : Tag
  iv : Block
  nonceServer : Nonce
  encryptedSessionKeySeal : RSASeal
  encryptedAuthKeySeal : RSASeal
  signature : Bytes

/-- The text that is signed. -/
def Offer.text (f : Offer C K) : Bytes :=
  signedText f.encryptedSessionKeySeal f.encryptedAuthKeySeal f.iv.toList f.nonceClient

/-- The keys that the handshake returns. -/
def Offer.keys (f : Offer C K) : Keys :=
  ⟨f.sessionKey.toList, f.authKey.toList, f.iv.toList⟩

/-- A run of the server's handshake. -/
abbrev Run (C K : Type) := Party K (Offer C K)

/-! ### The program -/

variable (ssl : Openssl C K S) (cm : CertManager C S)

/-- The first message: certificate and nonce. -/
def recvM1 (mem : Memory) : EStateM Ex (Run C K) (C × Nonce) := do
  let buffer ← recvBuffer mem 0
  let clientCertificate ← Exec.ofExcept (Certificate.fromString ssl buffer)
  Exec.ofExcept (cm.verifyCert clientCertificate)
  let buffer ← recvBuffer mem 1
  let nonceClient ← Exec.ofExcept (Nonce.ofString buffer)
  return (clientCertificate, nonceClient)

/-- Choose the keys, seal them, sign. -/
def makeM2 (coins : Coins) (clientCertificate : C) (nonceClient : Nonce) :
    EStateM Ex (Run C K) (Offer C K) := do
  let sessionKey ← Exec.ofExcept coins.sessionKey
  let authKey ← Exec.ofExcept coins.authKey
  let iv ← Exec.ofExcept coins.iv
  let nonceServer ← Exec.ofExcept coins.nonceServer
  let clientPublicKey ← Exec.ofExcept (RSAKey.fromCertificate ssl clientCertificate)
  let encryptedSessionKeySeal ← Exec.ofExcept
    (RSACrypto.encrypt ssl coins.sealSessionKey sessionKey.toList clientPublicKey)
  let encryptedAuthKeySeal ← Exec.ofExcept
    (RSACrypto.encrypt ssl coins.sealAuthKey authKey.toList clientPublicKey)
  let text ← Exec.ofExcept
    (whatToSign encryptedSessionKeySeal encryptedAuthKeySeal iv.toList nonceClient)
  let signature ← RSACrypto.sign ssl coins.sign cm.privKey text
  let offer := { clientCertificate, clientPublicKey, nonceClient, sessionKey, authKey, iv,
                 nonceServer, encryptedSessionKeySeal, encryptedAuthKeySeal, signature }
  modify fun p => { p with view := some offer }
  return offer

/-- Send the second message: six strings. -/
def sendM2 (f : Offer C K) : EStateM Ex (Run C K) Unit := do
  let buffer ← Exec.ofExcept (Certificate.str ssl cm.cert)
  let _ ← sendBuffer buffer
  let buffer ← Exec.ofExcept f.encryptedSessionKeySeal.str
  let _ ← sendBuffer buffer
  let buffer ← Exec.ofExcept f.encryptedAuthKeySeal.str
  let _ ← sendBuffer buffer
  let _ ← sendBuffer f.iv.toList
  let _ ← sendBuffer f.signature
  let _ ← sendBuffer f.nonceServer.toList
  return ()

/-- Everything up to the second message. -/
def offer (mem : Memory) (coins : Coins) : EStateM Ex (Run C K) (Offer C K) := do
  let m1 ← recvM1 ssl cm mem
  let f ← makeM2 ssl cm coins m1.1 m1.2
  sendM2 ssl cm f
  return f

/-- The third message: the signature of the server's nonce. -/
def recvM3 (mem : Memory) (f : Offer C K) : EStateM Ex (Run C K) Keys := do
  let signature ← recvBuffer mem 2
  RSACrypto.verify ssl f.nonceServer.toList signature f.clientPublicKey
  return f.keys

/-- `Client::handshake`. -/
def handshake (mem : Memory) (coins : Coins) : EStateM Ex (Run C K) Keys := do
  let f ← offer ssl cm mem coins
  recvM3 ssl mem f

/-! ### How it can end -/

/-- An offer that was made by this program: an accepted certificate with its key, and seals of
the two keys for that key. -/
structure Made (f : Offer C K) : Prop where
  certified : cm.verifyCert f.clientCertificate = .ok ()
  publicKey : ssl.x509GetPubkey f.clientCertificate = some f.clientPublicKey
  sessionKey : ∃ coins,
    RSACrypto.encrypt ssl coins f.sessionKey.toList f.clientPublicKey
      = .ok f.encryptedSessionKeySeal
  authKey : ∃ coins,
    RSACrypto.encrypt ssl coins f.authKey.toList f.clientPublicKey = .ok f.encryptedAuthKeySeal

/-- The ways in which `offer` can end, from a run `p`. -/
inductive OfferEnds (p : Run C K) : EStateM.Result Ex (Run C K) (Offer C K) → Prop
  /-- Something was wrong before anything was signed. -/
  | early {e : Ex} {p' : Run C K} (h : p'.record = p.record) : OfferEnds p (.error e p')
  /-- The message was signed, but not sent to its end. -/
  | unsent {e : Ex} {p' : Run C K} {f : Offer C K} (hm : Made ssl cm f)
      (h : p'.record = (p.verified, p.signed ++ [f.text], some f)) : OfferEnds p (.error e p')
  | done {p' : Run C K} {f : Offer C K} (hm : Made ssl cm f)
      (h : p'.record = (p.verified, p.signed ++ [f.text], some f)) : OfferEnds p (.ok f p')

variable {ssl cm}

theorem recvM1_record (mem : Memory) :
    Exec.Leaves Party.record (recvM1 ssl cm mem) := by
  apply Exec.Leaves.bind (Party.onConn_record _)
  intro _
  apply Exec.Leaves.bind (.ofExcept _)
  intro _
  apply Exec.Leaves.bind (.ofExcept _)
  intro _
  apply Exec.Leaves.bind (Party.onConn_record _)
  intro _
  exact .bind (.ofExcept _) fun _ => .pure _

theorem recvM1_ok {mem : Memory} {p p' : Run C K} {m1 : C × Nonce}
    (h : (recvM1 ssl cm mem).run p = .ok m1 p') : cm.verifyCert m1.1 = .ok () := by
  obtain ⟨_, _, -, h₁⟩ := Exec.bind_ok h
  obtain ⟨cert, _, -, h₂⟩ := Exec.bind_ok h₁
  obtain ⟨⟨⟩, _, hcert, h₃⟩ := Exec.bind_ok h₂
  obtain ⟨_, _, -, h₄⟩ := Exec.bind_ok h₃
  obtain ⟨_, _, -, h₅⟩ := Exec.bind_ok h₄
  cases h₅
  exact (Exec.ofExcept_ok hcert).1

/-- How `makeM2` can end: nothing is done, or an offer is made, signed and noted. -/
theorem makeM2_ends (coins : Coins) {cert : C} (nonceClient : Nonce)
    (hcert : cm.verifyCert cert = .ok ()) (p : Run C K) :
    (∃ e, (makeM2 ssl cm coins cert nonceClient).run p = .error e p) ∨
    ∃ f p', (makeM2 ssl cm coins cert nonceClient).run p = .ok f p' ∧ Made ssl cm f ∧
      p'.record = (p.verified, p.signed ++ [f.text], some f) := by
  unfold makeM2
  cases coins.sessionKey with
  | error e => exact .inl ⟨e, rfl⟩
  | ok sessionKey =>
  rw [Exec.bind_of_ok (Exec.run_ofExcept _ p)]
  cases coins.authKey with
  | error e => exact .inl ⟨e, rfl⟩
  | ok authKey =>
  rw [Exec.bind_of_ok (Exec.run_ofExcept _ p)]
  cases coins.iv with
  | error e => exact .inl ⟨e, rfl⟩
  | ok iv =>
  rw [Exec.bind_of_ok (Exec.run_ofExcept _ p)]
  cases coins.nonceServer with
  | error e => exact .inl ⟨e, rfl⟩
  | ok nonceServer =>
  rw [Exec.bind_of_ok (Exec.run_ofExcept _ p)]
  cases hkey : RSAKey.fromCertificate ssl cert with
  | error e => exact .inl ⟨e, rfl⟩
  | ok key =>
  rw [Exec.bind_of_ok (Exec.run_ofExcept _ p)]
  cases hs : RSACrypto.encrypt ssl coins.sealSessionKey sessionKey.toList key with
  | error e => exact .inl ⟨e, rfl⟩
  | ok s =>
  rw [Exec.bind_of_ok (Exec.run_ofExcept _ p)]
  cases ha : RSACrypto.encrypt ssl coins.sealAuthKey authKey.toList key with
  | error e => exact .inl ⟨e, rfl⟩
  | ok a =>
  rw [Exec.bind_of_ok (Exec.run_ofExcept _ p)]
  cases htext : whatToSign s a iv.toList nonceClient with
  | error e => exact .inl ⟨e, rfl⟩
  | ok text =>
  obtain rfl := whatToSign_ok htext
  rw [Exec.bind_of_ok (Exec.run_ofExcept _ p)]
  cases hsign : (RSACrypto.sign ssl coins.sign cm.privKey
      (signedText s a iv.toList nonceClient)).run p with
  | error e p' =>
    obtain rfl := RSACrypto.sign_error hsign
    exact .inl ⟨e, Exec.bind_of_error hsign⟩
  | ok signature p' =>
    obtain ⟨-, rfl⟩ := RSACrypto.sign_ok hsign
    rw [Exec.bind_of_ok hsign]
    exact .inr ⟨_, _, rfl, ⟨hcert, RSAKey.fromCertificate_ok hkey, ⟨_, hs⟩, ⟨_, ha⟩⟩, rfl⟩

theorem sendM2_record (f : Offer C K) :
    Exec.Leaves Party.record (sendM2 ssl cm f) := by
  apply Exec.Leaves.bind (.ofExcept _)
  intro _
  apply Exec.Leaves.bind (Party.onConn_record _)
  intro _
  apply Exec.Leaves.bind (.ofExcept _)
  intro _
  apply Exec.Leaves.bind (Party.onConn_record _)
  intro _
  apply Exec.Leaves.bind (.ofExcept _)
  intro _
  apply Exec.Leaves.bind (Party.onConn_record _)
  intro _
  apply Exec.Leaves.bind (Party.onConn_record _)
  intro _
  apply Exec.Leaves.bind (Party.onConn_record _)
  intro _
  exact .bind (Party.onConn_record _) fun _ => .pure _

/-- **How `offer` can end.** -/
theorem offer_ends (mem : Memory) (coins : Coins) (p : Run C K) :
    OfferEnds ssl cm p ((offer ssl cm mem coins).run p) := by
  unfold offer
  cases hm : (recvM1 ssl cm mem).run p with
  | error e p' =>
    rw [Exec.bind_of_error hm]
    exact .early ((recvM1_record mem).of_error hm)
  | ok m1 p₁ =>
    have hrec := (recvM1_record mem).of_ok hm
    have hcert := recvM1_ok hm
    rw [Exec.bind_of_ok hm]
    rcases @makeM2_ends C K S ssl cm coins m1.1 m1.2 hcert p₁ with
      ⟨e, hrun⟩ | ⟨f, p₂, hrun, hf, hr⟩
    · rw [Exec.bind_of_error hrun]
      exact .early hrec
    · simp only [Party.record, Prod.mk.injEq] at hrec
      rw [hrec.1, hrec.2.1] at hr
      rw [Exec.bind_of_ok hrun]
      cases hsend : (sendM2 ssl cm f).run p₂ with
      | error e p₃ =>
        rw [Exec.bind_of_error hsend]
        exact .unsent hf (((sendM2_record f).of_error hsend).trans hr)
      | ok u p₃ =>
        rw [Exec.bind_of_ok hsend]
        exact .done hf (((sendM2_record f).of_ok hsend).trans hr)

/-- **How `recvM3` can end**: it throws and nothing is noted, or the signature passed and the
keys are returned. -/
theorem recvM3_ends (mem : Memory) (f : Offer C K) (p : Run C K) :
    (∃ e p', (recvM3 ssl mem f).run p = .error e p' ∧ p'.record = p.record) ∨
    ∃ p' signature, (recvM3 ssl mem f).run p = .ok f.keys p' ∧
      RSACrypto.passes ssl f.nonceServer.toList signature f.clientPublicKey ∧
      p'.record
        = (p.verified ++ [(f.clientPublicKey, f.nonceServer.toList)], p.signed, p.view) := by
  unfold recvM3
  cases hb : (recvBuffer mem 2).run p with
  | error e p₁ => exact .inl ⟨e, p₁, Exec.bind_of_error hb, (Party.onConn_record _).of_error hb⟩
  | ok signature p₁ =>
    have hrec := (Party.onConn_record _).of_ok hb
    rw [Exec.bind_of_ok hb]
    cases hv : (RSACrypto.verify ssl f.nonceServer.toList signature f.clientPublicKey).run p₁ with
    | error e p₂ =>
      obtain rfl := RSACrypto.verify_error hv
      exact .inl ⟨e, p₂, Exec.bind_of_error hv, hrec⟩
    | ok u p₂ =>
      obtain ⟨hpass, rfl⟩ := RSACrypto.verify_ok hv
      rw [Exec.bind_of_ok hv]
      simp only [Party.record, Prod.mk.injEq] at hrec
      refine .inr ⟨_, signature, rfl, hpass, ?_⟩
      simp only [Party.record, hrec]

end ServerClient

end Cybrg
