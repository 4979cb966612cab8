import Cybrg.Handshake.World
import Mathlib.Data.UInt

/-!
# An honest handshake

Two honest parties on a connection that loses nothing, with an OpenSSL that does what it should.
Each stage of the two programs is run on what the other has sent:

* `Openssl.Works`, `Openssl.Encodes`, `Openssl.KeyPair` — what is assumed of the primitives;
* `sendM1_runs`, `offer_runs`, `finish_runs`, `recvM3_runs` — one lemma a stage: what it reads, what
  it writes and what it returns;
* `handshake_completes` — the nine strings go out and come in in matching order, the text that is
  verified is the text that was signed, and both sides return the same keys.
-/

namespace Cybrg

open Octets

variable {C K S A : Type}

/-! ### A working OpenSSL -/

/-- Contexts are there, and the two calls that take no decision succeed. -/
structure Openssl.Works (ssl : Openssl C K S) : Prop where
  ctxNew : ssl.ctxNew = true
  verifyInit : ssl.evpVerifyInit = 1
  verifyUpdate : ssl.evpVerifyUpdate = 1

/-- A certificate and its DER form. -/
structure Openssl.Encodes (ssl : Openssl C K S) (cert : C) (der : Bytes) : Prop where
  encodes : ssl.i2dX509 cert = some der
  decodes : ssl.d2iX509 der = some cert
  nonempty : der ≠ []
  fits : der.length ≤ bufferSize

/-- The wire form of an envelope. -/
def Envelope.toSeal (e : Envelope) : RSASeal := ⟨e.ek, e.payload, e.iv.toList⟩

theorem Envelope.toSeal_writable (e : Envelope) :
    e.toSeal.Writable ∧ e.toSeal.iv.length = aes128KeyLen := by
  have hek := e.ek_int
  have hpay := e.payload_int
  exact ⟨⟨by simp only [toSeal]; omega, by simp only [toSeal]; omega⟩, e.iv.toList_length⟩

/-- `signature` is made of `text`, verifies, and fits a buffer. -/
structure SignedAs (ssl : Openssl C K S) (key : K) (privKey : S) (coins : ℕ)
    (text signature : Bytes) : Prop where
  signs : ssl.evpSign coins privKey text = some signature
  verifies : ssl.evpVerifyFinal key text signature = 1
  nonempty : signature ≠ []
  fits : signature.length ≤ bufferSize

/-- `e` is made of `text`, opens to it, and its wire form fits a buffer. -/
structure SealedAs (ssl : Openssl C K S) (key : K) (privKey : S) (coins : ℕ) (text : Bytes)
    (e : Envelope) : Prop where
  seals : ssl.evpSeal coins key text = some e
  opens : ssl.evpOpen privKey e.ek e.payload e.iv = some text
  ek : e.ek ≠ []
  payload : e.payload ≠ []
  fits : e.toSeal.encode.length ≤ bufferSize

/-- A private key that matches the key of a certificate: whatever is signed verifies, and keys that
are sealed for the certificate open to what was sealed. -/
structure Openssl.KeyPair (ssl : Openssl C K S) (cert : C) (key : K) (privKey : S) : Prop where
  publicKey : ssl.x509GetPubkey cert = some key
  signs : ∀ coins text, ∃ signature, SignedAs ssl key privKey coins text signature
  seals : ∀ coins text, text ≠ [] → text.length ≤ hmacKeyLen →
    ∃ e, SealedAs ssl key privKey coins text e

/-! ### Strings of a party -/

namespace Party

/-- The party after it has read up to `rest`. -/
def reads (p : Party K A) (rest : Bytes) : Party K A :=
  { p with conn := { p.conn with incoming := rest } }

/-- The party after it has written some strings. -/
def writes (p : Party K A) (strings : List Bytes) : Party K A :=
  { p with conn := p.conn.put (strings.flatMap frame) }

/-- The strings are what arrives next, and no socket call fails. -/
structure Faces (p : Party K A) (strings : List Bytes) (rest : Bytes) : Prop where
  incoming : p.conn.incoming = strings.flatMap frame ++ rest
  lossless : p.conn.sendRets = []

theorem Faces.tail {p : Party K A} {buffer : Bytes} {strings : List Bytes} {rest : Bytes}
    (h : p.Faces (buffer :: strings) rest) :
    (p.reads (strings.flatMap frame ++ rest)).Faces strings rest :=
  ⟨rfl, h.lossless⟩

@[simp] theorem writes_writes (p : Party K A) (a b : List Bytes) :
    (p.writes a).writes b = p.writes (a ++ b) := by
  simp [writes]

end Party

theorem recvBuffer_runs {p : Party K A} {buffer : Bytes} {strings : List Bytes} {rest : Bytes}
    (mem : Memory) (i : ℕ) (h : p.Faces (buffer :: strings) rest) (hne : buffer ≠ [])
    (hle : buffer.length ≤ bufferSize) :
    (recvBuffer mem i).run p = .ok buffer (p.reads (strings.flatMap frame ++ rest)) := by
  have hin : p.conn.incoming = frame buffer ++ (strings.flatMap frame ++ rest) := by
    rw [h.incoming, List.flatMap_cons, List.append_assoc]
  rw [recvBuffer, Party.onConn, Exec.run_zoom,
    Connection.recvString_frame (fun k => mem (2 * i + k)) hin hne hle]
  rfl

theorem sendBuffer_runs {p : Party K A} {buffer : Bytes} (h : p.conn.sendRets = [])
    (hne : buffer ≠ []) : ∃ n, (sendBuffer buffer).run p = .ok n (p.writes [buffer]) := by
  obtain ⟨n, hn⟩ := Connection.sendString_lossless h hne
  refine ⟨n, ?_⟩
  rw [sendBuffer, Party.onConn, Exec.run_zoom, hn, Party.writes, List.flatMap_singleton]

/-- A string of a fixed positive length is not empty. -/
theorem vector_ne_nil {n : ℕ} (v : List.Vector Byte (n + 1)) : v.toList ≠ [] := by
  intro h
  have hlen := v.toList_length
  rw [h] at hlen
  cases hlen

/-! ### The primitives -/

namespace RSACrypto

variable {ssl : Openssl C K S}

theorem sign_runs (hw : ssl.Works) {coins : ℕ} {privKey : S} {buffer signature : Bytes}
    (h : ssl.evpSign coins privKey buffer = some signature) (p : Party K A) :
    (sign ssl coins privKey buffer).run p
      = .ok signature { p with signed := p.signed ++ [buffer] } := by
  unfold sign
  rw [Exec.bind_of_ok (Exec.run_require_of_true hw.ctxNew), h]
  rfl

theorem verify_runs (hw : ssl.Works) {key : K} {buffer signature : Bytes}
    (h : ssl.evpVerifyFinal key buffer signature = 1) (p : Party K A) :
    (verify ssl buffer signature key).run p
      = .ok () { p with verified := p.verified ++ [(key, buffer)] } := by
  have hpasses : passes ssl buffer signature key := by
    rw [passes, hw.verifyInit, hw.verifyUpdate, h]
    decide
  unfold verify
  rw [Exec.bind_of_ok (Exec.run_require_of_true hw.ctxNew),
    Exec.bind_of_ok (Exec.run_require_of_true hpasses)]
  rfl

theorem encrypt_works (hw : ssl.Works) {coins : ℕ} {key : K} {text : Bytes} {e : Envelope}
    (h : ssl.evpSeal coins key text = some e) : encrypt ssl coins text key = .ok e.toSeal := by
  rw [encrypt, hw.ctxNew, if_neg (by simp), h]
  rfl

theorem decrypt_works (hw : ssl.Works) {privKey : S} {text : Bytes} {e : Envelope}
    (h : ssl.evpOpen privKey e.ek e.payload e.iv = some text) (junk : ℕ → Byte) :
    decrypt ssl junk privKey e.toSeal = .ok text := by
  rw [decrypt, hw.ctxNew, if_neg (by simp), Envelope.toSeal, readOver_iv, h]

end RSACrypto

theorem str_toSeal {e : Envelope} (hek : e.ek ≠ []) (hpay : e.payload ≠ []) :
    e.toSeal.str = .ok e.toSeal.encode :=
  if_neg (not_or.mpr ⟨hek, hpay⟩)

theorem whatToSign_toSeal {e e' : Envelope} (hek : e.ek ≠ []) (hpay : e.payload ≠ [])
    (hek' : e'.ek ≠ []) (hpay' : e'.payload ≠ []) (iv : Bytes) (n : Nonce) :
    whatToSign e.toSeal e'.toSeal iv n = .ok (signedText e.toSeal e'.toSeal iv n) := by
  rw [whatToSign, str_toSeal hek hpay, str_toSeal hek' hpay']
  rfl

theorem encode_ne_nil (s : RSASeal) : s.encode ≠ [] := by
  simp [RSASeal.encode, bigEndian]

/-! ### The values of a handshake -/

/-- What the two parties choose, and what OpenSSL makes of it. -/
structure Chosen where
  nonceClient : Nonce
  nonceServer : Nonce
  sessionKey : Block
  authKey : Tag
  iv : Block
  sessionKeyEnvelope : Envelope
  authKeyEnvelope : Envelope
  signature : Bytes
  confirmation : Bytes

namespace Chosen

variable (h : Chosen)

/-- The text that is signed and verified. -/
def text : Bytes :=
  signedText h.sessionKeyEnvelope.toSeal h.authKeyEnvelope.toSeal h.iv.toList h.nonceClient

def keys : Keys := ⟨h.sessionKey.toList, h.authKey.toList, h.iv.toList⟩

/-- The strings of the first message. -/
def m1 (clientDer : Bytes) : List Bytes := [clientDer, h.nonceClient.toList]

/-- The strings of the second message. -/
def m2 (serverDer : Bytes) : List Bytes :=
  [serverDer, h.sessionKeyEnvelope.toSeal.encode, h.authKeyEnvelope.toSeal.encode, h.iv.toList,
    h.signature, h.nonceServer.toList]

/-- The strings of the third message. -/
def m3 : List Bytes := [h.confirmation]

end Chosen

/-- The two parties of an honest handshake and all its values. -/
structure HonestHandshake (ssl : Openssl C K S) (client server : CertManager C S)
    (clientKey serverKey : K) (clientDer serverDer : Bytes) (coinsC : ClientMain.Coins)
    (coinsS : ServerClient.Coins) (h : Chosen) : Prop where
  works : ssl.Works
  clientCert : ssl.Encodes client.cert clientDer
  serverCert : ssl.Encodes server.cert serverDer
  clientAccepted : server.verifyCert client.cert = .ok ()
  serverAccepted : client.verifyCert server.cert = .ok ()
  clientPublicKey : ssl.x509GetPubkey client.cert = some clientKey
  serverPublicKey : ssl.x509GetPubkey server.cert = some serverKey
  nonceClient : coinsC.nonceClient = .ok h.nonceClient
  nonceServer : coinsS.nonceServer = .ok h.nonceServer
  sessionKey : coinsS.sessionKey = .ok h.sessionKey
  authKey : coinsS.authKey = .ok h.authKey
  iv : coinsS.iv = .ok h.iv
  sealedSession : SealedAs ssl clientKey client.privKey coinsS.sealSessionKey h.sessionKey.toList
    h.sessionKeyEnvelope
  sealedAuth : SealedAs ssl clientKey client.privKey coinsS.sealAuthKey h.authKey.toList
    h.authKeyEnvelope
  signed : SignedAs ssl serverKey server.privKey coinsS.sign h.text h.signature
  confirmed : SignedAs ssl clientKey client.privKey coinsC.sign h.nonceServer.toList h.confirmation

section Stages

variable {ssl : Openssl C K S} {client server : CertManager C S} {clientKey serverKey : K}
  {clientDer serverDer : Bytes} {coinsC : ClientMain.Coins} {coinsS : ServerClient.Coins}
  {h : Chosen}

/-! ### The stages of the client -/

namespace ClientMain

/-- The first message goes out. -/
theorem sendM1_runs (hh : HonestHandshake ssl client server clientKey serverKey clientDer serverDer
      coinsC coinsS h) {p : Run C K} (hp : p.conn.sendRets = []) :
    (sendM1 ssl client coinsC).run p = .ok h.nonceClient (p.writes (h.m1 clientDer)) := by
  obtain ⟨_, h₁⟩ := sendBuffer_runs hp hh.clientCert.nonempty
  obtain ⟨_, h₂⟩ := sendBuffer_runs (p := p.writes [clientDer]) hp (vector_ne_nil h.nonceClient)
  have hder : Certificate.str ssl client.cert = .ok clientDer := by
    rw [Certificate.str, hh.clientCert.encodes]
  unfold sendM1
  rw [hder, hh.nonceClient, Exec.bind_of_ok (Exec.run_ofExcept _ p), Exec.bind_of_ok h₁,
    Exec.bind_of_ok (Exec.run_ofExcept _ _), Exec.bind_of_ok h₂, Party.writes_writes]
  rfl

/-- The second message as the client decodes it. -/
def decoded (server : CertManager C S) (h : Chosen) : M2 C where
  serverCertificate := server.cert
  encryptedSessionKeySeal := h.sessionKeyEnvelope.toSeal
  encryptedAuthKeySeal := h.authKeyEnvelope.toSeal
  iv := h.iv.toList
  signature := h.signature
  nonceServer := h.nonceServer

/-- The second message comes in. -/
theorem recvM2_runs (hh : HonestHandshake ssl client server clientKey serverKey clientDer serverDer
      coinsC coinsS h) (mem : Memory) {p : Run C K} {rest : Bytes}
    (hp : p.Faces (h.m2 serverDer) rest) :
    (recvM2 ssl client mem).run p = .ok (decoded server h) (p.reads rest) := by
  have hb : bufferSize = 4096 := rfl
  have hw := h.sessionKeyEnvelope.toSeal_writable
  have hw' := h.authKeyEnvelope.toSeal_writable
  have hnonce : Nonce.ofString h.nonceServer.toList = .ok h.nonceServer :=
    dif_pos h.nonceServer.toList_length
  have hcert : Certificate.fromString ssl serverDer = .ok server.cert := by
    rw [Certificate.fromString, hh.serverCert.decodes]
  have h₀ := recvBuffer_runs mem 0 hp hh.serverCert.nonempty hh.serverCert.fits
  have h₁ := recvBuffer_runs mem 1 hp.tail (encode_ne_nil _) hh.sealedSession.fits
  have h₂ := recvBuffer_runs mem 2 hp.tail.tail (encode_ne_nil _) hh.sealedAuth.fits
  have h₃ := recvBuffer_runs mem 3 hp.tail.tail.tail (vector_ne_nil h.iv)
    (by rw [h.iv.toList_length]; omega)
  have h₄ := recvBuffer_runs mem 4 hp.tail.tail.tail.tail hh.signed.nonempty hh.signed.fits
  have h₅ := recvBuffer_runs mem 5 hp.tail.tail.tail.tail.tail (vector_ne_nil h.nonceServer)
    (by rw [h.nonceServer.toList_length]; omega)
  unfold recvM2
  rw [Exec.bind_of_ok h₀, hcert, Exec.bind_of_ok (Exec.run_ofExcept _ _), hh.serverAccepted,
    Exec.bind_of_ok (Exec.run_ofExcept _ _), Exec.bind_of_ok h₁, Exec.bind_of_ok h₂,
    Exec.bind_of_ok h₃, Exec.bind_of_ok h₄, Exec.bind_of_ok h₅, hnonce,
    Exec.bind_of_ok (Exec.run_ofExcept _ _), RSASeal.fromString_encode _ hw.1 hw.2,
    RSASeal.fromString_encode _ hw'.1 hw'.2]
  rfl

/-- The signature is right and both seals open. -/
theorem acceptM2_runs (hh : HonestHandshake ssl client server clientKey serverKey clientDer
      serverDer coinsC coinsS h) (mem : Memory) (p : Run C K) :
    (acceptM2 ssl client mem h.nonceClient (decoded server h)).run p = .ok h.keys { p with
      verified := p.verified ++ [(serverKey, h.text)]
      view := some ⟨h.nonceClient, decoded server h, h.keys⟩ } := by
  have htext : whatToSign (decoded server h).encryptedSessionKeySeal
      (decoded server h).encryptedAuthKeySeal (decoded server h).iv h.nonceClient = .ok h.text :=
    whatToSign_toSeal hh.sealedSession.ek hh.sealedSession.payload hh.sealedAuth.ek
      hh.sealedAuth.payload _ _
  have hkey : RSAKey.fromCertificate ssl (decoded server h).serverCertificate = .ok serverKey := by
    rw [RSAKey.fromCertificate, decoded, hh.serverPublicKey]
  have hverify : (RSACrypto.verify ssl h.text (decoded server h).signature serverKey).run p
      = .ok () { p with verified := p.verified ++ [(serverKey, h.text)] } :=
    RSACrypto.verify_runs hh.works hh.signed.verifies p
  have hsession : RSACrypto.decrypt ssl (mem 200) client.privKey
      (decoded server h).encryptedSessionKeySeal = .ok h.sessionKey.toList :=
    RSACrypto.decrypt_works hh.works hh.sealedSession.opens (mem 200)
  have hauth : RSACrypto.decrypt ssl (mem 201) client.privKey
      (decoded server h).encryptedAuthKeySeal = .ok h.authKey.toList :=
    RSACrypto.decrypt_works hh.works hh.sealedAuth.opens (mem 201)
  unfold acceptM2
  rw [htext, Exec.bind_of_ok (Exec.run_ofExcept _ p), hkey, Exec.bind_of_ok (Exec.run_ofExcept _ p),
    Exec.bind_of_ok hverify, hsession, Exec.bind_of_ok (Exec.run_ofExcept _ _), hauth,
    Exec.bind_of_ok (Exec.run_ofExcept _ _)]
  rfl

/-- The client once it has accepted the second message. -/
def accepted (server : CertManager C S) (serverKey : K) (h : Chosen) (p : Run C K) : Run C K :=
  { p with
    verified := p.verified ++ [(serverKey, h.text)]
    view := some ⟨h.nonceClient, decoded server h, h.keys⟩ }

/-- The third message goes out. -/
theorem sendM3_runs (hh : HonestHandshake ssl client server clientKey serverKey clientDer serverDer
      coinsC coinsS h) {p : Run C K} (hp : p.conn.sendRets = []) :
    (sendM3 ssl client coinsC (decoded server h)).run p
      = .ok () (Party.writes { p with signed := p.signed ++ [h.nonceServer.toList] } h.m3) := by
  have hsign : (RSACrypto.sign ssl coinsC.sign client.privKey
      (decoded server h).nonceServer.toList).run p
        = .ok h.confirmation { p with signed := p.signed ++ [h.nonceServer.toList] } :=
    RSACrypto.sign_runs hh.works hh.confirmed.signs p
  obtain ⟨n, hsend⟩ := sendBuffer_runs
    (p := { p with signed := p.signed ++ [h.nonceServer.toList] }) hp hh.confirmed.nonempty
  unfold sendM3
  rw [Exec.bind_of_ok hsign]
  exact Exec.bind_of_ok hsend

/-- The client after its third message. -/
def finished (server : CertManager C S) (serverKey : K) (h : Chosen) (p : Run C K) (rest : Bytes) :
    Run C K :=
  Party.writes { accepted server serverKey h (p.reads rest) with
    signed := p.signed ++ [h.nonceServer.toList] } h.m3

/-- Everything after the first message. -/
theorem finish_runs (hh : HonestHandshake ssl client server clientKey serverKey clientDer serverDer
      coinsC coinsS h) (mem : Memory) {p : Run C K} {rest : Bytes}
    (hp : p.Faces (h.m2 serverDer) rest) :
    (finish ssl client mem coinsC h.nonceClient).run p
      = .ok h.keys (finished server serverKey h p rest) := by
  have haccept : (acceptM2 ssl client mem h.nonceClient (decoded server h)).run (p.reads rest)
      = .ok h.keys (accepted server serverKey h (p.reads rest)) := acceptM2_runs hh mem _
  have hsend := sendM3_runs hh (p := accepted server serverKey h (p.reads rest)) hp.lossless
  unfold finish
  rw [Exec.bind_of_ok (recvM2_runs hh mem hp), Exec.bind_of_ok haccept]
  exact (Exec.bind_of_ok hsend).trans rfl

end ClientMain

/-! ### The stages of the server -/

namespace ServerClient

/-- The second message as the server makes it. -/
def made (client : CertManager C S) (clientKey : K) (h : Chosen) : Offer C K where
  clientCertificate := client.cert
  clientPublicKey := clientKey
  nonceClient := h.nonceClient
  sessionKey := h.sessionKey
  authKey := h.authKey
  iv := h.iv
  nonceServer := h.nonceServer
  encryptedSessionKeySeal := h.sessionKeyEnvelope.toSeal
  encryptedAuthKeySeal := h.authKeyEnvelope.toSeal
  signature := h.signature

/-- The first message comes in. -/
theorem recvM1_runs (hh : HonestHandshake ssl client server clientKey serverKey clientDer serverDer
      coinsC coinsS h) (mem : Memory) {p : Run C K} {rest : Bytes}
    (hp : p.Faces (h.m1 clientDer) rest) :
    (recvM1 ssl server mem).run p = .ok (client.cert, h.nonceClient) (p.reads rest) := by
  have hb : bufferSize = 4096 := rfl
  have hnonce : Nonce.ofString h.nonceClient.toList = .ok h.nonceClient :=
    dif_pos h.nonceClient.toList_length
  have hcert : Certificate.fromString ssl clientDer = .ok client.cert := by
    rw [Certificate.fromString, hh.clientCert.decodes]
  have h₀ := recvBuffer_runs mem 0 hp hh.clientCert.nonempty hh.clientCert.fits
  have h₁ := recvBuffer_runs mem 1 hp.tail (vector_ne_nil h.nonceClient)
    (by rw [h.nonceClient.toList_length]; omega)
  unfold recvM1
  rw [Exec.bind_of_ok h₀, hcert, Exec.bind_of_ok (Exec.run_ofExcept _ _), hh.clientAccepted,
    Exec.bind_of_ok (Exec.run_ofExcept _ _), Exec.bind_of_ok h₁, hnonce,
    Exec.bind_of_ok (Exec.run_ofExcept _ _)]
  rfl

/-- The keys are chosen, sealed and signed. -/
theorem makeM2_runs (hh : HonestHandshake ssl client server clientKey serverKey clientDer serverDer
      coinsC coinsS h) (p : Run C K) :
    (makeM2 ssl server coinsS client.cert h.nonceClient).run p = .ok (made client clientKey h)
      { p with signed := p.signed ++ [h.text], view := some (made client clientKey h) } := by
  have hkey : RSAKey.fromCertificate ssl client.cert = .ok clientKey := by
    rw [RSAKey.fromCertificate, hh.clientPublicKey]
  have hsession := RSACrypto.encrypt_works hh.works hh.sealedSession.seals
  have hauth := RSACrypto.encrypt_works hh.works hh.sealedAuth.seals
  have htext : whatToSign h.sessionKeyEnvelope.toSeal h.authKeyEnvelope.toSeal h.iv.toList
      h.nonceClient = .ok h.text :=
    whatToSign_toSeal hh.sealedSession.ek hh.sealedSession.payload hh.sealedAuth.ek
      hh.sealedAuth.payload _ _
  unfold makeM2
  rw [hh.sessionKey, Exec.bind_of_ok (Exec.run_ofExcept _ p), hh.authKey,
    Exec.bind_of_ok (Exec.run_ofExcept _ p), hh.iv, Exec.bind_of_ok (Exec.run_ofExcept _ p),
    hh.nonceServer, Exec.bind_of_ok (Exec.run_ofExcept _ p), hkey,
    Exec.bind_of_ok (Exec.run_ofExcept _ p), hsession, Exec.bind_of_ok (Exec.run_ofExcept _ p),
    hauth, Exec.bind_of_ok (Exec.run_ofExcept _ p), htext, Exec.bind_of_ok (Exec.run_ofExcept _ p),
    Exec.bind_of_ok (RSACrypto.sign_runs hh.works hh.signed.signs p)]
  rfl

/-- The second message goes out. -/
theorem sendM2_runs (hh : HonestHandshake ssl client server clientKey serverKey clientDer serverDer
      coinsC coinsS h) {p : Run C K} (hp : p.conn.sendRets = []) :
    (sendM2 ssl server (made client clientKey h)).run p
      = .ok () (p.writes (h.m2 serverDer)) := by
  have hder : Certificate.str ssl server.cert = .ok serverDer := by
    rw [Certificate.str, hh.serverCert.encodes]
  have hsession : (made client clientKey h).encryptedSessionKeySeal.str
      = .ok h.sessionKeyEnvelope.toSeal.encode :=
    str_toSeal hh.sealedSession.ek hh.sealedSession.payload
  have hauth : (made client clientKey h).encryptedAuthKeySeal.str
      = .ok h.authKeyEnvelope.toSeal.encode :=
    str_toSeal hh.sealedAuth.ek hh.sealedAuth.payload
  have hsend : ∀ (strings : List Bytes) {buffer : Bytes}, buffer ≠ [] →
      ∃ n, (sendBuffer buffer).run (p.writes strings) = .ok n (p.writes (strings ++ [buffer])) := by
    intro strings buffer hne
    obtain ⟨n, hn⟩ := sendBuffer_runs (p := p.writes strings) hp hne
    exact ⟨n, hn.trans (by rw [Party.writes_writes])⟩
  obtain ⟨_, h₀⟩ := sendBuffer_runs hp hh.serverCert.nonempty
  obtain ⟨_, h₁⟩ := hsend [serverDer] (encode_ne_nil h.sessionKeyEnvelope.toSeal)
  obtain ⟨_, h₂⟩ := hsend _ (encode_ne_nil h.authKeyEnvelope.toSeal)
  obtain ⟨_, h₃⟩ := hsend _ (vector_ne_nil h.iv)
  obtain ⟨_, h₄⟩ := hsend _ hh.signed.nonempty
  obtain ⟨_, h₅⟩ := hsend _ (vector_ne_nil h.nonceServer)
  unfold sendM2
  rw [hder, Exec.bind_of_ok (Exec.run_ofExcept _ p), Exec.bind_of_ok h₀, hsession,
    Exec.bind_of_ok (Exec.run_ofExcept _ _), Exec.bind_of_ok h₁, hauth,
    Exec.bind_of_ok (Exec.run_ofExcept _ _), Exec.bind_of_ok h₂]
  exact (Exec.bind_of_ok h₃).trans ((Exec.bind_of_ok h₄).trans (Exec.bind_of_ok h₅))

/-- The server after its second message. -/
def offered (client : CertManager C S) (clientKey : K) (serverDer : Bytes) (h : Chosen)
    (p : Run C K) (rest : Bytes) : Run C K :=
  Party.writes { p.reads rest with
    signed := p.signed ++ [h.text], view := some (made client clientKey h) } (h.m2 serverDer)

/-- Everything up to the second message. -/
theorem offer_runs (hh : HonestHandshake ssl client server clientKey serverKey clientDer serverDer
      coinsC coinsS h) (mem : Memory) {p : Run C K} {rest : Bytes}
    (hp : p.Faces (h.m1 clientDer) rest) :
    (offer ssl server mem coinsS).run p
      = .ok (made client clientKey h) (offered client clientKey serverDer h p rest) := by
  unfold offer
  rw [Exec.bind_of_ok (recvM1_runs hh mem hp), Exec.bind_of_ok (makeM2_runs hh _)]
  exact Exec.bind_of_ok (sendM2_runs hh hp.lossless)

/-- The third message comes in. -/
theorem recvM3_runs (hh : HonestHandshake ssl client server clientKey serverKey clientDer serverDer
      coinsC coinsS h) (mem : Memory) {p : Run C K} {rest : Bytes} (hp : p.Faces h.m3 rest) :
    (recvM3 ssl mem (made client clientKey h)).run p = .ok h.keys { p.reads rest with
      verified := p.verified ++ [(clientKey, h.nonceServer.toList)] } := by
  unfold recvM3
  rw [Exec.bind_of_ok (recvBuffer_runs mem 2 hp hh.confirmed.nonempty hh.confirmed.fits)]
  exact (Exec.bind_of_ok (RSACrypto.verify_runs hh.works hh.confirmed.verifies _)).trans rfl

end ServerClient

end Stages

/-! ### The whole handshake -/

namespace Party

/-- A party that has read and written nothing meets what the peer sends. -/
theorem deliver_faces {p : Party K A} (hin : p.conn.incoming = []) (hp : p.conn.sendRets = [])
    (strings : List Bytes) : (p.deliver (strings.flatMap frame)).Faces strings [] := by
  refine ⟨?_, hp⟩
  simp only [deliver, hin, List.nil_append, List.append_nil]

end Party

section Whole

variable {ssl : Openssl C K S} {client server : CertManager C S} {clientKey serverKey : K}
  {clientDer serverDer : Bytes}

/-- With matching keys OpenSSL makes something of everything that the two parties choose. -/
theorem HonestHandshake.of_keyPairs (hw : ssl.Works)
    (hcc : ssl.Encodes client.cert clientDer) (hsc : ssl.Encodes server.cert serverDer)
    (hca : server.verifyCert client.cert = .ok ()) (hsa : client.verifyCert server.cert = .ok ())
    (hck : ssl.KeyPair client.cert clientKey client.privKey)
    (hsk : ssl.KeyPair server.cert serverKey server.privKey)
    (nonceClient nonceServer : Nonce) (sessionKey : Block) (authKey : Tag) (iv : Block)
    (signC signS sealSessionKey sealAuthKey : ℕ) :
    ∃ h : Chosen, (h.nonceClient = nonceClient ∧ h.nonceServer = nonceServer) ∧
      h.keys = ⟨sessionKey.toList, authKey.toList, iv.toList⟩ ∧
      HonestHandshake ssl client server clientKey serverKey clientDer serverDer
        ⟨.ok nonceClient, signC⟩
        ⟨.ok sessionKey, .ok authKey, .ok iv, .ok nonceServer, sealSessionKey, sealAuthKey, signS⟩
        h := by
  have hlen : hmacKeyLen = 32 := rfl
  obtain ⟨e, he⟩ := hck.seals sealSessionKey sessionKey.toList (vector_ne_nil sessionKey)
    (by rw [sessionKey.toList_length]; omega)
  obtain ⟨e', he'⟩ := hck.seals sealAuthKey authKey.toList (vector_ne_nil authKey)
    (by rw [authKey.toList_length]; omega)
  obtain ⟨signature, hs⟩ := hsk.signs signS (signedText e.toSeal e'.toSeal iv.toList nonceClient)
  obtain ⟨confirmation, hm⟩ := hck.signs signC nonceServer.toList
  refine ⟨⟨nonceClient, nonceServer, sessionKey, authKey, iv, e, e', signature, confirmation⟩,
    ⟨rfl, rfl⟩, rfl, ?_⟩
  exact
    { works := hw
      clientCert := hcc
      serverCert := hsc
      clientAccepted := hca
      serverAccepted := hsa
      clientPublicKey := hck.publicKey
      serverPublicKey := hsk.publicKey
      nonceClient := rfl
      nonceServer := rfl
      sessionKey := rfl
      authKey := rfl
      iv := rfl
      sealedSession := he
      sealedAuth := he'
      signed := hs
      confirmed := hm }

/-- The two programs on one connection: each goes as far as it can on what the other has written,
and what each of them reads and writes is the strings of the three messages. -/
structure Exchanged (ssl : Openssl C K S) (client server : CertManager C S)
    (clientDer serverDer : Bytes) (memC memS : Memory) (coinsC : ClientMain.Coins)
    (coinsS : ServerClient.Coins) (h : Chosen) (client₁ client₂ : ClientMain.Run C K)
    (server₁ server₂ : ServerClient.Run C K) (f : ServerClient.Offer C K) : Prop where
  /-- The client writes two strings, -/
  m1 : (ClientMain.sendM1 ssl client coinsC).run {} = .ok h.nonceClient client₁
  m1_written : client₁.conn.outgoing = (h.m1 clientDer).flatMap frame
  /-- the server reads them and answers with six, -/
  m2 : (ServerClient.offer ssl server memS coinsS).run
    (Party.deliver {} client₁.conn.outgoing) = .ok f server₁
  m2_written : server₁.conn.outgoing = (h.m2 serverDer).flatMap frame
  m1_consumed : server₁.conn.incoming = []
  /-- the client reads these, returns, and has written one more, -/
  m3 : (ClientMain.finish ssl client memC coinsC h.nonceClient).run
    (client₁.deliver server₁.conn.outgoing) = .ok h.keys client₂
  m3_written : client₂.conn.outgoing = client₁.conn.outgoing ++ h.m3.flatMap frame
  m2_consumed : client₂.conn.incoming = []
  /-- which the server reads before it returns. -/
  completed : (ServerClient.recvM3 ssl memS f).run (server₁.deliver (h.m3.flatMap frame))
    = .ok h.keys server₂
  m3_consumed : server₂.conn.incoming = []

/-- **An honest handshake completes and the two sides agree.**  The nine strings of the three
messages are exchanged in order, the text that the client verifies is the text that the server
signed, and both programs, taken stage by stage or as a whole, return the keys that the server
chose. -/
theorem handshake_completes (hw : ssl.Works)
    (hcc : ssl.Encodes client.cert clientDer) (hsc : ssl.Encodes server.cert serverDer)
    (hca : server.verifyCert client.cert = .ok ()) (hsa : client.verifyCert server.cert = .ok ())
    (hck : ssl.KeyPair client.cert clientKey client.privKey)
    (hsk : ssl.KeyPair server.cert serverKey server.privKey)
    (nonceClient nonceServer : Nonce) (sessionKey : Block) (authKey : Tag) (iv : Block)
    (signC signS sealSessionKey sealAuthKey : ℕ) (memC memS : Memory) :
    let coinsC : ClientMain.Coins := ⟨.ok nonceClient, signC⟩
    let coinsS : ServerClient.Coins :=
      ⟨.ok sessionKey, .ok authKey, .ok iv, .ok nonceServer, sealSessionKey, sealAuthKey, signS⟩
    ∃ (h : Chosen) (client₁ client₂ : ClientMain.Run C K) (server₁ server₂ : ServerClient.Run C K),
      (h.nonceClient = nonceClient ∧ h.nonceServer = nonceServer) ∧
      h.keys = ⟨sessionKey.toList, authKey.toList, iv.toList⟩ ∧
      Exchanged ssl client server clientDer serverDer memC memS coinsC coinsS h client₁ client₂
        server₁ server₂ (ServerClient.made client clientKey h) ∧
      client₂.view = some ⟨h.nonceClient, ClientMain.decoded server h, h.keys⟩ ∧
      client₂.verified = [(serverKey, h.text)] ∧ server₂.signed = [h.text] ∧
      (ClientMain.handshake ssl client memC coinsC).run
        (Party.deliver {} server₁.conn.outgoing) = .ok h.keys client₂ ∧
      (ServerClient.handshake ssl server memS coinsS).run
        (Party.deliver {} client₂.conn.outgoing) = .ok h.keys server₂ := by
  intro coinsC coinsS
  obtain ⟨h, hnonces, hkeys, hh⟩ := HonestHandshake.of_keyPairs hw hcc hsc hca hsa hck hsk
    nonceClient nonceServer sessionKey authKey iv signC signS sealSessionKey sealAuthKey
  let client₁ : ClientMain.Run C K := Party.writes {} (h.m1 clientDer)
  let client₂ : ClientMain.Run C K :=
    ClientMain.finished server serverKey h (client₁.deliver ((h.m2 serverDer).flatMap frame)) []
  let server₁ : ServerClient.Run C K := ServerClient.offered client clientKey serverDer h
    (Party.deliver {} ((h.m1 clientDer).flatMap frame)) []
  let server₂ : ServerClient.Run C K := { Party.reads server₁ [] with
    verified := [(clientKey, h.nonceServer.toList)] }
  have hm1 : (ClientMain.sendM1 ssl client coinsC).run {} = .ok h.nonceClient client₁ :=
    ClientMain.sendM1_runs hh rfl
  have hm2 := ServerClient.offer_runs hh memS
    (Party.deliver_faces (p := {}) rfl rfl (h.m1 clientDer))
  have hm3 := ClientMain.finish_runs hh memC
    (Party.deliver_faces (p := client₁) rfl rfl (h.m2 serverDer))
  have hlast : (ServerClient.recvM3 ssl memS (ServerClient.made client clientKey h)).run
      (server₁.deliver (h.m3.flatMap frame)) = .ok h.keys server₂ :=
    ServerClient.recvM3_runs hh memS (Party.deliver_faces (p := server₁) rfl rfl h.m3)
  refine ⟨h, client₁, client₂, server₁, server₂, hnonces, hkeys, ?_, rfl, rfl, rfl, ?_, ?_⟩
  · exact
      { m1 := hm1
        m1_written := rfl
        m2 := hm2
        m2_written := rfl
        m1_consumed := rfl
        m3 := hm3
        m3_written := rfl
        m2_consumed := rfl
        completed := hlast
        m3_consumed := rfl }
  · -- all of the second message is there from the start
    have hsend := ClientMain.sendM1_runs hh
      (p := Party.deliver {} ((h.m2 serverDer).flatMap frame)) rfl
    exact (Exec.bind_of_ok hsend).trans hm3
  · -- and so are the first and the third
    have hfaces : (Party.deliver {} client₂.conn.outgoing : ServerClient.Run C K).Faces
        (h.m1 clientDer) (h.m3.flatMap frame) := ⟨rfl, rfl⟩
    exact (Exec.bind_of_ok (ServerClient.offer_runs hh memS hfaces)).trans hlast

end Whole

/-! ### An instance -/

/-- `Openssl.plain` with signatures of two bytes: the key and the sum of the text. -/
def Openssl.summed : Openssl Byte Byte Byte :=
  { Openssl.plain with
    evpVerifyFinal := fun key text signature => if signature = [key, text.sum] then 1 else 0
    evpSign := fun _ privKey text => some [privKey, text.sum] }

theorem Openssl.summed_keyPair (b : Byte) : Openssl.summed.KeyPair b b b := by
  have hb : bufferSize = 4096 := rfl
  have hlen : hmacKeyLen = 32 := rfl
  constructor
  · rfl
  · intro coins text
    exact ⟨[b, text.sum], rfl, if_pos rfl, List.cons_ne_nil _ _, by simp [hb]⟩
  · intro coins text hne hle
    have hint : text.length < 2 ^ 31 := by omega
    refine ⟨⟨[b], text, .replicate 16 5, by simp, hint⟩, dif_pos hint, if_pos rfl,
      List.cons_ne_nil _ _, hne, ?_⟩
    simp [Envelope.toSeal, RSASeal.encode, bigEndian]
    omega

/-- An honest handshake of the small instance. -/
theorem handshake_completes_summed :
    ∃ (client₂ : ClientMain.Run Byte Byte) (server₂ : ServerClient.Run Byte Byte)
      (m1 m2 m3 : List Bytes) (keys : Keys),
      (m1.length = 2 ∧ m2.length = 6 ∧ m3.length = 1) ∧
      (ClientMain.handshake .summed ⟨1, 1, fun _ => .ok ()⟩ (fun _ _ => 0)
        World.plainClientCoins).run
        (Party.deliver {} (m2.flatMap frame)) = .ok keys client₂ ∧
      (ServerClient.handshake .summed ⟨7, 7, fun _ => .ok ()⟩ (fun _ _ => 0)
        (World.plainServerCoins 9)).run (Party.deliver {} ((m1 ++ m3).flatMap frame))
          = .ok keys server₂ ∧
      keys = ⟨List.replicate 16 9, List.replicate 32 9, List.replicate 16 9⟩ := by
  obtain ⟨h, client₁, client₂, server₁, server₂, -, hkeys, hex, -, -, -, hc, hs⟩ :=
    @handshake_completes Byte Byte Byte .summed ⟨1, 1, fun _ => .ok ()⟩ ⟨7, 7, fun _ => .ok ()⟩
      1 7 [1] [7] ⟨rfl, rfl, rfl⟩ ⟨rfl, rfl, by decide, by decide⟩ ⟨rfl, rfl, by decide, by decide⟩ rfl rfl
      (Openssl.summed_keyPair 1) (Openssl.summed_keyPair 7) (.replicate 4 3) (.replicate 4 9)
      (.replicate 16 9) (.replicate 32 9) (.replicate 16 9) 0 0 0 0 (fun _ _ => 0) (fun _ _ => 0)
  refine ⟨client₂, server₂, h.m1 [1], h.m2 [7], h.m3, h.keys, ⟨rfl, rfl, rfl⟩, ?_, ?_, hkeys⟩
  · rw [← hex.m2_written]
    exact hc
  · rw [List.flatMap_append, ← hex.m1_written, ← hex.m3_written]
    exact hs

end Cybrg
