import Cybrg.Common.CertManager
import Cybrg.Handshake.World
import Cybrg.Server.Client

/-!
# No command without a signature

`Client::execute` runs the handshake and then the loop of commands.  `RSACrypto::verify` turns the
result of `EVP_VerifyFinal` into a `bool`, so a negative result counts as a valid signature.

* `ServerClient.execute` — the whole of `execute`, for a bounded number of rounds of its loop;
* `no_command_without_signature` — a handler runs, and the handshake of the client returns, only
  after `EVP_VerifyFinal` has reported 1, if it does not report a negative value;
* `negative_value_accepted` — a handler that runs after it has reported -1.
-/

namespace Cybrg

open Octets

variable {C K S : Type}

/-- The values that `EVP_VerifyFinal` may return: 1, 0, or a negative one. -/
def Openssl.Documented (ssl : Openssl C K S) : Prop :=
  ∀ key buffer signature, ssl.evpVerifyFinal key buffer signature ≤ 1

/-- What a `Crypto` object reads of its keys. -/
def Keys.session (mem : Memory) (keys : Keys) : SessionKeys where
  sessionKey := fixed 16 (Connection.readOver (mem 300) keys.sessionKey aes128KeyLen)
  authKey := fixed 32 (Connection.readOver (mem 301) keys.authKey hmacKeyLen)
  iv := fixed 16 (Connection.readOver (mem 302) keys.iv aes128KeyLen)

/-! ### The server -/

namespace ServerClient

variable (ssl : Openssl C K S) (cm : CertManager C S)

/-- `Client::execute` with at most `n` rounds of its loop: the handshake as it ends, and the client
object if the handshake returned.  `fresh` is the object before it has a connection, `buf` the
receive buffer of the process. -/
def execute (mem : Memory) (coins : Coins) (P : Primitives) (o : ByteOrder) (buf : RecvBuffer)
    (fresh : Client Unit) (n : ℕ) (p : Run C K) : Run C K × Option (Client Endpoint) :=
  match (handshake ssl cm mem coins).run p with
  | .error _ p' => (p', none)
  | .ok keys p' =>
      let link : Endpoint := { session := Session.new (keys.session mem) p'.conn, buf }
      (p', some (Exec.endState ((serve (Transport.crypto P o) n).run { fresh with link })))

/-- The handshake came to the check of `signature`, the third message, for the offer `f`. -/
def Checks (mem : Memory) (coins : Coins) (p : Run C K) (f : Offer C K) (signature : Bytes) :
    Prop :=
  ∃ p₁ p₂, (offer ssl cm mem coins).run p = .ok f p₁ ∧
    (recvBuffer mem 2).run p₁ = .ok signature p₂

/-- The client's certificate was accepted, and the server's nonce was found signed under its
key. -/
def Authenticated (mem : Memory) (coins : Coins) (p : Run C K) : Prop :=
  ∃ f signature, Checks ssl cm mem coins p f signature ∧
    cm.verifyCert f.clientCertificate = .ok () ∧
    ssl.x509GetPubkey f.clientCertificate = some f.clientPublicKey ∧
    ssl.evpVerifyFinal f.clientPublicKey f.nonceServer.toList signature = 1

variable {ssl cm}

/-- What an offer that was sent is made of. -/
theorem offer_made {mem : Memory} {coins : Coins} {p p' : Run C K} {f : Offer C K}
    (h : (offer ssl cm mem coins).run p = .ok f p') : Made ssl cm f := by
  have hends : OfferEnds ssl cm p _ := offer_ends mem coins p
  rw [h] at hends
  cases hends with
  | done hm _ => exact hm

/-- **A handshake that returns has found the third message to pass.** -/
theorem handshake_ok {mem : Memory} {coins : Coins} {p p' : Run C K} {keys : Keys}
    (h : (handshake ssl cm mem coins).run p = .ok keys p') :
    ∃ f signature, Checks ssl cm mem coins p f signature ∧ Made ssl cm f ∧
      ssl.ctxNew = true ∧
      RSACrypto.passes ssl f.nonceServer.toList signature f.clientPublicKey := by
  obtain ⟨f, p₁, hoffer, h₁⟩ := Exec.bind_ok h
  obtain ⟨signature, p₂, hrecv, h₂⟩ := Exec.bind_ok h₁
  obtain ⟨_, p₃, hverify, -⟩ := Exec.bind_ok h₂
  obtain ⟨_, _, hctx, -⟩ := Exec.bind_ok hverify
  obtain ⟨hpass, -⟩ := RSACrypto.verify_ok hverify
  exact ⟨f, signature, ⟨p₁, p₂, hoffer, hrecv⟩, offer_made hoffer, (Exec.require_ok hctx).1, hpass⟩

/-- A handler runs only if the handshake returned. -/
theorem handshake_of_handlers {mem : Memory} {coins : Coins} {P : Primitives} {o : ByteOrder}
    {buf : RecvBuffer} {fresh : Client Unit} {n : ℕ} {p : Run C K} {c : Client Endpoint}
    (h : (execute ssl cm mem coins P o buf fresh n p).2 = some c) :
    ∃ keys p', (handshake ssl cm mem coins).run p = .ok keys p' := by
  unfold execute at h
  cases hr : (handshake ssl cm mem coins).run p with
  | error e p' =>
    rw [hr] at h
    cases h
  | ok keys p' => exact ⟨keys, p', rfl⟩

/-- The result is not negative when the handshake comes to the check. -/
def Reported (ssl : Openssl C K S) (cm : CertManager C S) (mem : Memory) (coins : Coins)
    (p : Run C K) : Prop :=
  ∀ f signature, Checks ssl cm mem coins p f signature →
    0 ≤ ssl.evpVerifyFinal f.clientPublicKey f.nonceServer.toList signature

/-- **The condition is exact for the handshake**: it returns only after a result of 1 exactly when
it is not negative, for a context in which the check is made at all. -/
theorem handshake_exact (hdoc : ssl.Documented) {mem : Memory} {coins : Coins} {p : Run C K} :
    (∀ keys p', (handshake ssl cm mem coins).run p = .ok keys p' →
        Authenticated ssl cm mem coins p) ↔
      (ssl.ctxNew = true → ssl.evpVerifyInit ≠ 0 → ssl.evpVerifyUpdate ≠ 0 →
        Reported ssl cm mem coins p) := by
  constructor
  · intro hauth hctx hinit hupdate f signature ⟨p₁, p₂, hoffer, hrecv⟩
    by_contra hneg
    have hpass : RSACrypto.passes ssl f.nonceServer.toList signature f.clientPublicKey :=
      ⟨hinit, hupdate, by omega⟩
    have hverify : (RSACrypto.verify ssl f.nonceServer.toList signature f.clientPublicKey).run p₂
        = .ok () { p₂ with
            verified := p₂.verified ++ [(f.clientPublicKey, f.nonceServer.toList)] } := by
      rw [RSACrypto.verify, Exec.bind_of_ok (Exec.run_require_of_true hctx),
        Exec.bind_of_ok (Exec.run_require_of_true hpass)]
      rfl
    have hrun : ∃ p', (handshake ssl cm mem coins).run p = .ok f.keys p' := by
      rw [handshake, Exec.bind_of_ok hoffer, recvM3, Exec.bind_of_ok hrecv,
        Exec.bind_of_ok hverify]
      exact ⟨_, rfl⟩
    obtain ⟨p', hp'⟩ := hrun
    obtain ⟨f', signature', ⟨q₁, q₂, hoffer', hrecv'⟩, -, -, hone⟩ := hauth _ _ hp'
    cases hoffer.symm.trans hoffer'
    cases hrecv.symm.trans hrecv'
    omega
  · intro hrep keys p' h
    obtain ⟨f, signature, hchecks, hmade, hctx, hpass⟩ := handshake_ok h
    have hnonneg := hrep hctx hpass.1 hpass.2.1 f signature hchecks
    have hle := hdoc f.clientPublicKey f.nonceServer.toList signature
    have hne := hpass.2.2
    exact ⟨f, signature, hchecks, hmade.certified, hmade.publicKey, by omega⟩

end ServerClient

/-! ### The client -/

namespace ClientMain

variable (ssl : Openssl C K S) (cm : CertManager C S)

/-- The handshake came to the check of the second message `m`, for the nonce `n`, with the public
key of the certificate in it. -/
def Checks (mem : Memory) (coins : Coins) (p : Run C K) (n : Nonce) (m : M2 C) (key : K) : Prop :=
  ∃ p₁, (sendM1 ssl cm coins).run p = .ok n p₁ ∧ Received ssl cm mem p₁ m ∧
    ssl.x509GetPubkey m.serverCertificate = some key

/-- The server's certificate was accepted, and the second message was found signed under its
key. -/
def Authenticated (mem : Memory) (coins : Coins) (p : Run C K) : Prop :=
  ∃ n m key, Checks ssl cm mem coins p n m key ∧ cm.verifyCert m.serverCertificate = .ok () ∧
    ssl.evpVerifyFinal key (m.text n) m.signature = 1

/-- The result is not negative when the handshake comes to the check. -/
def Reported (mem : Memory) (coins : Coins) (p : Run C K) : Prop :=
  ∀ n m key, Checks ssl cm mem coins p n m key →
    0 ≤ ssl.evpVerifyFinal key (m.text n) m.signature

variable {ssl cm}

theorem authenticated_of_handshake (hdoc : ssl.Documented) {mem : Memory} {coins : Coins}
    {p p' : Run C K} {keys : Keys} (hrep : Reported ssl cm mem coins p)
    (h : (handshake ssl cm mem coins).run p = .ok keys p') :
    Authenticated ssl cm mem coins p := by
  obtain ⟨n, p₁, hsend, h₁⟩ := Exec.bind_ok h
  have hends : FinishEnds ssl cm mem n p₁ _ := finish_ends mem coins n p₁
  rw [h₁] at hends
  cases hends with
  | done hm hc ho hr =>
    rename_i m key
    have hchecks : Checks ssl cm mem coins p n m key := ⟨p₁, hsend, hm, hc.publicKey⟩
    have hnonneg := hrep n m key hchecks
    have hle := hdoc key (m.text n) m.signature
    have hne := hc.passes.2.2
    exact ⟨n, m, key, hchecks, hc.certified, by omega⟩

end ClientMain

/-- **No command without a valid signature.**  If `EVP_VerifyFinal` does not report a negative
value when a handshake comes to it, a handler of the server runs only for an accepted certificate
under whose key it has reported 1 for the server's nonce, and the handshake of a client returns only
for an accepted certificate under whose key it has reported 1 for the second message. -/
theorem no_command_without_signature {ssl : Openssl C K S} (hdoc : ssl.Documented)
    (cm : CertManager C S) (mem : Memory) :
    (∀ coins P o buf fresh n p c, ServerClient.Reported ssl cm mem coins p →
      (ServerClient.execute ssl cm mem coins P o buf fresh n p).2 = some c → c.handlers ≠ [] →
      ServerClient.Authenticated ssl cm mem coins p) ∧
    ∀ coins p keys p', ClientMain.Reported ssl cm mem coins p →
      (ClientMain.handshake ssl cm mem coins).run p = .ok keys p' →
      ClientMain.Authenticated ssl cm mem coins p := by
  constructor
  · intro coins P o buf fresh n p c hrep hc _
    obtain ⟨keys, p', h⟩ := ServerClient.handshake_of_handlers hc
    exact (ServerClient.handshake_exact hdoc).mpr (fun _ _ _ => hrep) keys p' h
  · intro coins p keys p' hrep h
    exact ClientMain.authenticated_of_handshake hdoc hrep h

/-! ### A negative result -/

/-- The small OpenSSL, when `EVP_VerifyFinal` always reports an error. -/
def Openssl.erring : Openssl Byte Byte Byte := { Openssl.plain with evpVerifyFinal _ _ _ := -1 }

/-- The session keys of the server run `b` of the small instance. -/
def plainSession (b : Byte) : SessionKeys :=
  ⟨.replicate 16 b, .replicate 32 b, .replicate 16 b⟩

/-- What a client of the session puts on the wire to send `plaintext` first. -/
def plainWire (b : Byte) (plaintext : Bytes) : Bytes :=
  (Exec.endState
    ((Crypto.send .sample .little plaintext).run (Session.new (plainSession b)))).conn.outgoing

/-- What the server receives: the first message, a third message with the given signature, and the
command `LIST`. -/
def plainRequest (signature : Bytes) : ServerClient.Run Byte Byte :=
  { conn := { incoming := World.plainM1 ++ frame signature ++ plainWire 9 (text "LIST\n\n") } }

/-- The object before the connection, on an empty file store. -/
def plainClient : ServerClient.Client Unit :=
  { link := (), host := { store := { entries := [], nodup := List.nodup_nil } } }

/-- `execute` on the small instance, with three rounds. -/
def plainExecute (ssl : Openssl Byte Byte Byte) (signature : Bytes) :
    ServerClient.Run Byte Byte × Option (ServerClient.Client Endpoint) :=
  ServerClient.execute ssl Setup.plain.server (fun _ _ => 0) (World.plainServerCoins 9) .sample
    .little {} plainClient 3 (plainRequest signature)

/-- A client that has received the second message of the server run 9. -/
def plainAnswered : ClientMain.Run Byte Byte :=
  { conn := { incoming :=
      World.plainM2 9 (List.replicate 16 5) (List.replicate 16 9) [9, 9, 9, 9] } }

/-- The keys of that message. -/
def plainKeys : Keys := ⟨List.replicate 16 9, List.replicate 32 9, List.replicate 16 9⟩

/-- The documented values of the small OpenSSL are reported as such. -/
theorem plain_documented : Openssl.plain.Documented := by
  intro key buffer signature
  simp only [Openssl.plain]
  split <;> decide

/-- The signatures of an honest session of the small instance. -/
theorem no_command_without_signature_plain :
    ServerClient.Authenticated .plain Setup.plain.server (fun _ _ => 0) (World.plainServerCoins 9)
        (plainRequest [1, 9, 9, 9, 9]) ∧
      ClientMain.Authenticated .plain (Setup.plain.client 0) (fun _ _ => 0) World.plainClientCoins
        plainAnswered := by
  have hnonneg : ∀ key buffer signature, 0 ≤ Openssl.plain.evpVerifyFinal key buffer signature := by
    intro key buffer signature
    simp only [Openssl.plain]
    split <;> decide
  constructor
  · have hrun : (plainExecute .plain [1, 9, 9, 9, 9]).2.map (·.handlers) = some [.list] := by
      decide +kernel
    obtain ⟨c, hc, hlist⟩ := Option.map_eq_some_iff.mp hrun
    refine (no_command_without_signature plain_documented _ _).1 _ _ _ _ _ _ _ c ?_ hc ?_
    · exact fun _ _ _ => hnonneg _ _ _
    · rw [hlist]
      decide
  · have hrun : Exec.outcome ((ClientMain.handshake .plain (Setup.plain.client 0) (fun _ _ => 0)
        World.plainClientCoins).run plainAnswered) = .ok plainKeys := by
      decide +kernel
    obtain ⟨p', hp⟩ := Exec.eq_ok_of_outcome hrun
    exact (no_command_without_signature plain_documented _ _).2 _ _ _ p'
      (fun _ _ _ _ => hnonneg _ _ _) hp

/-- **A negative result counts as a valid signature.**  The third message is the single byte 0,
`EVP_VerifyFinal` reports -1, and `LIST` is run; a client accepts its second message in the same
way. -/
theorem negative_value_accepted :
    Openssl.erring.Documented ∧
      ((plainExecute .erring [0]).2.map (·.handlers) = some [.list] ∧
        ¬ ServerClient.Authenticated .erring Setup.plain.server (fun _ _ => 0)
          (World.plainServerCoins 9) (plainRequest [0])) ∧
      Exec.outcome ((ClientMain.handshake .erring (Setup.plain.client 0) (fun _ _ => 0)
          World.plainClientCoins).run plainAnswered) = .ok plainKeys ∧
      ¬ ClientMain.Authenticated .erring (Setup.plain.client 0) (fun _ _ => 0)
        World.plainClientCoins plainAnswered := by
  refine ⟨fun _ _ _ => show (-1 : ℤ) ≤ 1 by decide, ⟨?_, ?_⟩, ?_, ?_⟩
  · decide +kernel
  · intro hpre
    obtain ⟨f, signature, -, -, -, hone⟩ := hpre
    cases hone
  · decide +kernel
  · intro hpre
    obtain ⟨n, m, key, -, -, hone⟩ := hpre
    cases hone

end Cybrg
