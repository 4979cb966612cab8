import Cybrg.Common.Connection
import Cybrg.Common.RSASeal

/-!
# Certificates, signatures and envelopes

What the handshake takes from OpenSSL and from the certificate store is a parameter: certificates,
public keys and private keys are types of their own, and `Openssl` holds the functions on them
with the values they may return.  On top of it stand the classes of the program:

* `Certificate.fromString`, `Certificate.str`, `RSAKey.fromCertificate`, `Nonce.ofString`;
* `RSACrypto.sign`, `RSACrypto.verify`, `RSACrypto.encrypt`, `RSACrypto.decrypt` — run by a
  `Party`, which is a connection together with a record of what was signed and what was found to
  be signed.  The program never reads the record.
-/

namespace Cybrg

open Octets

/-- What `EVP_SealInit`, `EVP_SealUpdate` and `EVP_SealFinal` leave behind.  The lengths of the
first two strings come out of an `int`, the vector has `AES128_KEY_LEN` bytes. -/
structure Envelope where
  ek : Bytes
  payload : Bytes
  iv : Block
  ek_int : ek.length < 2 ^ 31
  payload_int : payload.length < 2 ^ 31

/-- OpenSSL, as far as the handshake uses it.  `C`, `K`, `S` are the types of certificates,
public keys and private keys. -/
structure Openssl (C K S : Type) where
  d2iX509 : Bytes → Option C
  i2dX509 : C → Option Bytes
  x509GetPubkey : C → Option K
  /-- Whether `EVP_MD_CTX_new` and `EVP_CIPHER_CTX_new` find memory. -/
  ctxNew : Bool
  evpVerifyInit : ℤ
  evpVerifyUpdate : ℤ
  /-- `EVP_VerifyFinal` of a key, a text and a signature. -/
  evpVerifyFinal : K → Bytes → Bytes → ℤ
  /-- `EVP_SignInit`, `EVP_SignUpdate`, `EVP_SignFinal`, if all of them succeed.  The number
  stands for the random bits. -/
  evpSign : ℕ → S → Bytes → Option Bytes
  /-- `EVP_SealInit`, `EVP_SealUpdate`, `EVP_SealFinal`, if all of them succeed. -/
  evpSeal : ℕ → K → Bytes → Option Envelope
  /-- `EVP_OpenInit`, `EVP_OpenUpdate`, `EVP_OpenFinal`, if all of them succeed. -/
  evpOpen : S → Bytes → Bytes → Block → Option Bytes

/-- A `CertManager`: the own certificate and key, and the check of a peer's certificate. -/
structure CertManager (C S : Type) where
  cert : C
  privKey : S
  verifyCert : C → Except Ex Unit

section

variable {C K S A : Type}

/-! ### Conversions -/

/-- `Certificate::fromString`. -/
def Certificate.fromString (ssl : Openssl C K S) (buffer : Bytes) : Except Ex C :=
  match ssl.d2iX509 buffer with
  | some cert => .ok cert
  | none => .error (.exCertificate "cannot deserialize certificate")

/-- `Certificate::str`. -/
def Certificate.str (ssl : Openssl C K S) (cert : C) : Except Ex Bytes :=
  match ssl.i2dX509 cert with
  | some buffer => .ok buffer
  | none => .error (.exCertificate "Certificate::str(): cannot serialize certificate")

/-- `RSAKey::fromCertificate`. -/
def RSAKey.fromCertificate (ssl : Openssl C K S) (cert : C) : Except Ex K :=
  match ssl.x509GetPubkey cert with
  | some key => .ok key
  | none => .error (.exCertificate "RSAKey::fromCertificate(): cannot read public key")

theorem RSAKey.fromCertificate_ok {ssl : Openssl C K S} {cert : C} {key : K}
    (h : RSAKey.fromCertificate ssl cert = .ok key) : ssl.x509GetPubkey cert = some key := by
  unfold fromCertificate at h
  split at h
  · rename_i hk
    rw [hk, Except.ok.inj h]
  · cases h

/-- `Nonce::Nonce(string)`. -/
def Nonce.ofString (buffer : Bytes) : Except Ex Nonce :=
  if h : buffer.length = 4 then .ok ⟨buffer, h⟩ else .error (.exNonce "bad string buffer for nonce")

/-- The three keys of a session, as the handshake returns them. -/
structure Keys where
  sessionKey : Bytes
  authKey : Bytes
  iv : Bytes
  deriving DecidableEq

/-! ### A party of a handshake -/

/-- A run of a handshake: its connection, and what it has done so far. -/
structure Party (K A : Type) where
  conn : Connection := {}
  /-- The keys and texts for which `verify` returned. -/
  verified : List (K × Bytes) := []
  /-- The texts that `sign` signed. -/
  signed : List Bytes := []
  /-- What the run has settled on, if it has come so far. -/
  view : Option A := none

namespace Party

/-- Run a socket call. -/
def onConn {α : Type} (m : EStateM Ex Connection α) : EStateM Ex (Party K A) α :=
  Exec.zoom (·.conn) (fun c p => { p with conn := c }) m

/-- The record of a party: everything but its connection. -/
def record (p : Party K A) : List (K × Bytes) × List Bytes × Option A :=
  (p.verified, p.signed, p.view)

theorem onConn_record {α : Type} (m : EStateM Ex Connection α) :
    Exec.Leaves Party.record (onConn m : EStateM Ex (Party K A) α) :=
  .zoom fun _ _ => rfl

/-- More bytes of the peer. -/
def deliver (p : Party K A) (bs : Bytes) : Party K A :=
  { p with conn := { p.conn with incoming := p.conn.incoming ++ bs } }

end Party

/-! ### `RSACrypto` -/

namespace RSACrypto

variable (ssl : Openssl C K S)

/-- `RSACrypto::sign`. -/
def sign (coins : ℕ) (privKey : S) (buffer : Bytes) : EStateM Ex (Party K A) Bytes := do
  Exec.require ssl.ctxNew (.exSignature "RSACrypto::sign(): cannot create context")
  match ssl.evpSign coins privKey buffer with
  | none => throw (.exSignature "RSACrypto::sign(): EVP_Sign()")
  | some signature =>
      modify fun p => { p with signed := p.signed ++ [buffer] }
      return signature

/-- The variable `pass` of `RSACrypto::verify`: three `int` results, each converted to `bool`. -/
def passes (buffer signature : Bytes) (pubKey : K) : Prop :=
  ssl.evpVerifyInit ≠ 0 ∧ ssl.evpVerifyUpdate ≠ 0 ∧ ssl.evpVerifyFinal pubKey buffer signature ≠ 0

instance (buffer signature : Bytes) (pubKey : K) :
    Decidable (passes ssl buffer signature pubKey) :=
  inferInstanceAs (Decidable (_ ∧ _ ∧ ssl.evpVerifyFinal pubKey buffer signature ≠ 0))

/-- `RSACrypto::verify`. -/
def verify (buffer signature : Bytes) (pubKey : K) : EStateM Ex (Party K A) Unit := do
  Exec.require ssl.ctxNew (.exSignature "RSACrypto::verify(): cannot create context")
  Exec.require (passes ssl buffer signature pubKey)
    (.exSignature "RSACrypto::verify(): EVP_Verify()")
  modify fun p => { p with verified := p.verified ++ [(pubKey, buffer)] }

/-- `RSACrypto::encrypt`. -/
def encrypt (coins : ℕ) (src : Bytes) (pubKey : K) : Except Ex RSASeal :=
  if ssl.ctxNew = false then .error (.exCrypto "RSACrypto::encrypt(): cannot create context")
  else match ssl.evpSeal coins pubKey src with
    | none => .error (.exCryptoComputation "RSACrypto::encrypt(): EVP_Seal()")
    | some e => .ok ⟨e.ek, e.payload, e.iv.toList⟩

/-- `RSACrypto::decrypt`.  `EVP_OpenInit` reads `AES128_KEY_LEN` bytes from a copy of the vector;
`junk` is what lies behind that copy. -/
def decrypt (junk : ℕ → Byte) (privKey : S) (s : RSASeal) : Except Ex Bytes :=
  if ssl.ctxNew = false then .error (.exCrypto "RSACrypto::decrypt(): cannot create context")
  else match ssl.evpOpen privKey s.ek s.payload
      (fixed 16 (Connection.readOver junk s.iv aes128KeyLen)) with
    | none => .error (.exCryptoComputation "RSACrypto::decrypt(): EVP_Open()")
    | some plaintext => .ok plaintext

variable {ssl}

theorem sign_ok {coins : ℕ} {privKey : S} {buffer signature : Bytes} {p p' : Party K A}
    (h : (sign ssl coins privKey buffer).run p = .ok signature p') :
    ssl.evpSign coins privKey buffer = some signature ∧
      p' = { p with signed := p.signed ++ [buffer] } := by
  obtain ⟨_, _, h₁, h₂⟩ := Exec.bind_ok h
  obtain ⟨-, rfl⟩ := Exec.require_ok h₁
  cases hs : ssl.evpSign coins privKey buffer with
  | none =>
    rw [hs] at h₂
    cases h₂
  | some s =>
    rw [hs] at h₂
    cases h₂
    exact ⟨rfl, rfl⟩

theorem sign_error {coins : ℕ} {privKey : S} {buffer : Bytes} {p p' : Party K A} {e : Ex}
    (h : (sign ssl coins privKey buffer).run p = .error e p') : p' = p := by
  rcases Exec.bind_error h with h₁ | ⟨_, _, h₁, h₂⟩
  · exact (Exec.require_error h₁).2.2
  · obtain ⟨-, rfl⟩ := Exec.require_ok h₁
    cases hs : ssl.evpSign coins privKey buffer with
    | none =>
      rw [hs] at h₂
      cases h₂
      rfl
    | some s =>
      rw [hs] at h₂
      cases h₂

theorem verify_ok {buffer signature : Bytes} {pubKey : K} {p p' : Party K A} {u : Unit}
    (h : (verify ssl buffer signature pubKey).run p = .ok u p') :
    passes ssl buffer signature pubKey ∧
      p' = { p with verified := p.verified ++ [(pubKey, buffer)] } := by
  obtain ⟨_, _, h₁, h₂⟩ := Exec.bind_ok h
  obtain ⟨-, rfl⟩ := Exec.require_ok h₁
  obtain ⟨_, _, h₃, h₄⟩ := Exec.bind_ok h₂
  obtain ⟨hp, rfl⟩ := Exec.require_ok h₃
  cases h₄
  exact ⟨hp, rfl⟩

theorem verify_error {buffer signature : Bytes} {pubKey : K} {p p' : Party K A} {e : Ex}
    (h : (verify ssl buffer signature pubKey).run p = .error e p') : p' = p := by
  rcases Exec.bind_error h with h₁ | ⟨_, _, h₁, h₂⟩
  · exact (Exec.require_error h₁).2.2
  · obtain ⟨-, rfl⟩ := Exec.require_ok h₁
    rcases Exec.bind_error h₂ with h₃ | ⟨_, _, _, h₄⟩
    · exact (Exec.require_error h₃).2.2
    · cases h₄

theorem encrypt_ok {coins : ℕ} {src : Bytes} {pubKey : K} {s : RSASeal}
    (h : encrypt ssl coins src pubKey = .ok s) :
    ∃ e, ssl.evpSeal coins pubKey src = some e ∧ s = ⟨e.ek, e.payload, e.iv.toList⟩ := by
  unfold encrypt at h
  split at h
  · cases h
  · split at h
    · cases h
    · rename_i e he
      exact ⟨e, he, (Except.ok.inj h).symm⟩

/-- A seal that `encrypt` made can be written down, its vector with the right length. -/
theorem encrypt_writable {coins : ℕ} {src : Bytes} {pubKey : K} {s : RSASeal}
    (h : encrypt ssl coins src pubKey = .ok s) :
    s.Writable ∧ s.iv.length = aes128KeyLen := by
  obtain ⟨e, -, rfl⟩ := encrypt_ok h
  have hek := e.ek_int
  have hpay := e.payload_int
  exact ⟨⟨by simp only; omega, by simp only; omega⟩, e.iv.toList_length⟩

theorem decrypt_ok {junk : ℕ → Byte} {privKey : S} {s : RSASeal} {plaintext : Bytes}
    (h : decrypt ssl junk privKey s = .ok plaintext) :
    ssl.evpOpen privKey s.ek s.payload
      (fixed 16 (Connection.readOver junk s.iv aes128KeyLen)) = some plaintext := by
  unfold decrypt at h
  split at h
  · cases h
  · split at h
    · cases h
    · rename_i bs hbs
      rw [hbs, Except.ok.inj h]

/-- A vector of the right length is read as it is. -/
theorem readOver_iv (junk : ℕ → Byte) (iv : Block) :
    fixed 16 (Connection.readOver junk iv.toList aes128KeyLen) = iv := by
  have hlen : iv.toList.length = aes128KeyLen := iv.toList_length
  rw [Connection.readOver, hlen, Nat.sub_self, List.range_zero, List.map_nil, List.append_nil,
    List.take_of_length_le (by rw [hlen]), fixed_toList]

end RSACrypto

end

end Cybrg
