import Cybrg.Common.Crypto
import Cybrg.Library.Streams

/-!
# The secure layer as the programs see it

Both programs use a `Crypto` object in the same way: they send strings, ask for some bytes, and read
headers up to an empty line.  A `Transport` is whatever they can do this with.

* `Transport.crypto` — a `Crypto` object with its connection;
* `Transport.plain` — a string from which bytes are taken;
* `Transport.recvHeader` — the loop of `recvCmd` and of `recv_response`.
-/

namespace Cybrg

open Streams

structure Transport (τ : Type) where
  /-- `crypto->recv(connection, buffer, size)`. -/
  recv : ℕ → EStateM Ex τ Bytes
  /-- `crypto->send(connection, buffer, size)`. -/
  send : Bytes → EStateM Ex τ ℤ

namespace Transport

/-- `Crypto` on a connection. -/
def crypto (P : Primitives) (o : Octets.ByteOrder) : Transport Endpoint where
  recv size := Crypto.recv P o size
  send plaintext := Crypto.onSession (Crypto.send P o plaintext)

/-- The plaintext of the peer, with nothing that can go wrong but its end. -/
def plain : Transport Bytes where
  recv size := do
    let s ← get
    Exec.require (s ≠ []) (.exRecv "can not recv()")
    set (s.drop size)
    return s.take size
  send plaintext := return plaintext.length

variable {τ : Type} (t : Transport τ)

/-- The loop that reads a header, for `n` more bytes: what it leaves in `buffer`.  A byte that is
not received stays zero. -/
def recvLoop : ℕ → Byte × Byte → EStateM Ex τ Bytes
  | 0, _ => return []
  | n + 1, shiftRegister => do
      let received ← t.recv 1
      match received with
      | [b] =>
          let shiftRegister := (shiftRegister.2, b)
          if shiftRegister = (10, 10) then return [b]
          else
            let rest ← recvLoop n shiftRegister
            return b :: rest
      | _ =>
          let rest ← recvLoop n shiftRegister
          return 0 :: rest

/-- The string that is read as a header: it ends at the first zero of the buffer. -/
def recvHeader : EStateM Ex τ Bytes := do
  let buffer ← t.recvLoop (bufferSize - 1) (0, 0)
  return buffer.takeWhile (· ≠ 0)

end Transport

/-- The size of a packet, as `Crypto::send` and `Rocket::verify` need it. -/
def Fits (plaintext : Bytes) : Prop := 1 ≤ plaintext.length ∧ plaintext.length ≤ bufferSize

instance (plaintext : Bytes) : Decidable (Fits plaintext) :=
  inferInstanceAs (Decidable (1 ≤ plaintext.length ∧ plaintext.length ≤ bufferSize))

/-! ### Words of the protocol -/

/-- `endl`. -/
def newline : Bytes := [10]

/-- `regex_match(filename, parola)` for `[A-Za-z0-9\._]*`. -/
def parola (filename : Bytes) : Bool :=
  filename.all fun b => (65 ≤ b && b ≤ 90) || (97 ≤ b && b ≤ 122) || (48 ≤ b && b ≤ 57)
    || b == 46 || b == 95

theorem not_mem_of_parola {name : Bytes} (h : parola name = true) {b : Byte}
    (hb : parola [b] = false) : b ∉ name := by
  intro hmem
  have hclass := List.all_eq_true.mp h b hmem
  rw [parola, List.all_cons, hclass] at hb
  cases hb

theorem parola_nonzero {name : Bytes} (h : parola name = true) : 0 ∉ name :=
  not_mem_of_parola h (by decide)

end Cybrg
