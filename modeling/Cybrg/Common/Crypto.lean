import Cybrg.Common.Connection
import Cybrg.Common.Rocket
import Cybrg.Library.StreamCipher

/-!
# The secure layer: `Crypto::send` and `Crypto::recv`

A `Crypto` object holds the two cipher contexts, the authentication key and the two sequence
numbers of one end of a session.  `Crypto::recv` keeps the plaintext it has not handed out yet
in local variables declared `static`, so that part of its state belongs to the process and not
to the object; here it is a `RecvBuffer` of its own, and an `Endpoint` is a session together
with the buffer of the process it lives in.

* `send` — encrypt, build the two headers, write the packet, test the counter;
* `receivePacket` — read and verify one packet;
* `feed` — the refill branch of `recv`: a packet, its decryption, the test of the counter;
* `recv` — refill an empty buffer, then copy out at most `size` bytes.

`History` records what a session has built and accepted.  The program never reads it.
-/

namespace Cybrg

open Octets

/-! ### AES-128 in CFB8 mode -/

/-- An `EVP_CIPHER_CTX` for `EVP_aes_128_cfb8`. -/
structure CipherCtx where
  key : Block
  register : Block
  deriving DecidableEq

/-- The keystream byte of a register: the first byte of its block. -/
def keystream (P : Primitives) (key register : Block) : Byte :=
  (P.aes128 key register).head

/-- Shift a ciphertext byte into a register. -/
def shiftIn (register : Block) (c : Byte) : Block :=
  ⟨register.toList.tail ++ [c], by simp⟩

/-- `EVP_EncryptUpdate`. -/
def CipherCtx.encryptUpdate (P : Primitives) (ctx : CipherCtx) (src : Bytes) : Bytes × CipherCtx :=
  let out := StreamCipher.encrypt (keystream P ctx.key) shiftIn ctx.register src
  (out.1, { ctx with register := out.2 })

/-- `EVP_DecryptUpdate`. -/
def CipherCtx.decryptUpdate (P : Primitives) (ctx : CipherCtx) (src : Bytes) : Bytes × CipherCtx :=
  let out := StreamCipher.decrypt (keystream P ctx.key) shiftIn ctx.register src
  (out.1, { ctx with register := out.2 })

@[simp] theorem CipherCtx.encryptUpdate_length (P : Primitives) (ctx : CipherCtx) (src : Bytes) :
    (ctx.encryptUpdate P src).1.length = src.length := by
  simp [encryptUpdate]

@[simp] theorem CipherCtx.decryptUpdate_length (P : Primitives) (ctx : CipherCtx) (src : Bytes) :
    (ctx.decryptUpdate P src).1.length = src.length := by
  simp [decryptUpdate]

/-- Contexts that agree stay in agreement, and the plaintext comes back. -/
theorem CipherCtx.decrypt_encrypt (P : Primitives) (ctx : CipherCtx) (src : Bytes) :
    ctx.decryptUpdate P (ctx.encryptUpdate P src).1 = (src, (ctx.encryptUpdate P src).2) := by
  simp only [encryptUpdate, decryptUpdate, StreamCipher.decrypt_encrypt]

/-- Primitives that are small enough to compute with, for runs on given inputs: the tag of a
string of at most 32 bytes shows the string. -/
def Primitives.sample : Primitives where
  aes128 key register := ⟨List.zipWith (· ^^^ ·) key.toList register.toList, by simp⟩
  hmacSha256 authKey bs := fixed 32 (bs ++ authKey.toList)

/-! ### Data -/

/-- The three keys of a session, as much of each as OpenSSL reads: `AES128_KEY_LEN` bytes of
`session_key` and of `iv`, `HMAC_LEN` bytes of `auth_key`. -/
structure SessionKeys where
  sessionKey : Block
  authKey : Tag
  iv : Block
  deriving DecidableEq

/-- Keys for runs on given inputs. -/
def SessionKeys.sample (b : Byte) : SessionKeys :=
  ⟨fixed 16 [b], fixed 32 [b], fixed 16 []⟩

structure Crypto where
  ctxE : CipherCtx
  ctxD : CipherCtx
  authKey : Tag
  sequenceNumberI : UInt32
  sequenceNumberO : UInt32
  deriving DecidableEq

/-- `Crypto::Crypto`: both contexts start from the same key and the same iv, both counters
from zero. -/
def Crypto.new (k : SessionKeys) : Crypto where
  ctxE := ⟨k.sessionKey, k.iv⟩
  ctxD := ⟨k.sessionKey, k.iv⟩
  authKey := k.authKey
  sequenceNumberI := 0
  sequenceNumberO := 0

/-- The `static` locals of `Crypto::recv`. -/
structure RecvBuffer where
  remaining : ℕ := 0
  index : ℕ := 0
  payload : Bytes := List.replicate bufferSize 0
  deriving DecidableEq

/-- A packet that `recv` passed on to `decrypt`, and what came out. -/
structure Accepted where
  packet : Packet
  plaintext : Bytes
  deriving DecidableEq

/-- What a session has done so far. -/
structure History where
  /-- The packets that `send` built. -/
  sent : List Packet := []
  /-- The byte strings for which a received tag was found right. -/
  verified : List Bytes := []
  /-- The packets that `recv` decrypted. -/
  accepted : List Accepted := []
  deriving DecidableEq

/-- A `Crypto` object with its connection. -/
structure Session where
  crypto : Crypto
  conn : Connection := {}
  hist : History := {}
  deriving DecidableEq

/-- A session and the receive buffer of its process. -/
structure Endpoint where
  session : Session
  buf : RecvBuffer := {}
  deriving DecidableEq

/-- More bytes of the peer, or of whoever is in its place. -/
def Endpoint.deliver (e : Endpoint) (bs : Bytes) : Endpoint :=
  { e with session := { e.session with
    conn := { e.session.conn with incoming := e.session.conn.incoming ++ bs } } }

/-- The bytes that a call of `recv` returned; none if it threw. -/
def returnedBytes : Except Ex Bytes → Bytes
  | .ok bs => bs
  | .error _ => []

/-- A fresh session over a connection. -/
def Session.new (k : SessionKeys) (conn : Connection := {}) : Session where
  crypto := Crypto.new k
  conn := conn

/-- A fresh session in a fresh process. -/
def Endpoint.new (k : SessionKeys) (conn : Connection := {}) : Endpoint where
  session := Session.new k conn

/-! ### The receive buffer -/

namespace RecvBuffer

/-- The plaintext that was decrypted and not handed out yet. -/
def unread (b : RecvBuffer) : Bytes := (b.payload.drop b.index).take b.remaining

/-- `decrypt(payload, ...); remaining = n; index = 0`: the plaintext overwrites the beginning of
the array. -/
def fill (b : RecvBuffer) (plaintext : Bytes) : RecvBuffer where
  remaining := plaintext.length
  index := 0
  payload := plaintext ++ b.payload.drop plaintext.length

/-- The number of bytes that a call for `size` bytes copies out. -/
def count (b : RecvBuffer) (size : ℕ) : ℕ := if b.remaining < size then b.remaining else size

/-- `memcpy(buffer, payload + index, r)`. -/
def copyOut (b : RecvBuffer) (size : ℕ) : Bytes := (b.payload.drop b.index).take (b.count size)

/-- `index += r; remaining -= r`. -/
def advance (b : RecvBuffer) (size : ℕ) : RecvBuffer :=
  { b with index := b.index + b.count size, remaining := b.remaining - b.count size }

/-- `index + remaining <= BUFFER_SIZE`, the array having its declared size. -/
def WF (b : RecvBuffer) : Prop :=
  b.index + b.remaining ≤ bufferSize ∧ b.payload.length = bufferSize

end RecvBuffer

/-! ### Sending -/

namespace Crypto

/-- `Crypto::encrypt`. -/
def encrypt (P : Primitives) (c : Crypto) (source : Bytes) : Bytes × Crypto :=
  let out := c.ctxE.encryptUpdate P source
  (out.1, { c with ctxE := out.2 })

/-- `Crypto::decrypt`. -/
def decrypt (P : Primitives) (c : Crypto) (source : Bytes) : Bytes × Crypto :=
  let out := c.ctxD.decryptUpdate P source
  (out.1, { c with ctxD := out.2 })

/-- The first half of `Crypto::send`: the encrypted payload and the two tagged headers, the
counter being incremented after each of them. -/
def prepare (P : Primitives) (o : ByteOrder) (c : Crypto) (plaintext : Bytes) : Packet × Crypto :=
  let (encryptedPayload, c) := c.encrypt P plaintext
  let rocket := (Rocket.new (UInt32.ofNat plaintext.length) c.sequenceNumberO).computehmac
    P o c.authKey
  let c := { c with sequenceNumberO := c.sequenceNumberO + 1 }
  let spacecraft := (SpaceCraft.new c.sequenceNumberO).computehmac P o c.authKey encryptedPayload
  let c := { c with sequenceNumberO := c.sequenceNumberO + 1 }
  (⟨rocket, spacecraft, encryptedPayload⟩, c)

/-- Run a socket call on the connection of a session. -/
def onConn {α : Type} (m : EStateM Ex Connection α) : EStateM Ex Session α :=
  Exec.zoom (·.conn) (fun c s => { s with conn := c }) m

/-- `Crypto::send`.  It encrypts into an array of `BUFFER_SIZE` bytes.  What it does with a longer
plaintext is not modelled: results about whole programs have the condition that their packets fit. -/
def send (P : Primitives) (o : ByteOrder) (plaintext : Bytes) : EStateM Ex Session ℤ := do
  let s ← get
  let (p, c) := s.crypto.prepare P o plaintext
  modify fun s => { s with crypto := c, hist := { s.hist with sent := s.hist.sent ++ [p] } }
  let r1 ← onConn (Connection.send ((p.rocket.htonl o).image o))
  let r2 ← onConn (Connection.send ((p.spacecraft.htonl o).image o))
  let r3 ← onConn (Connection.send p.payload)
  Exec.require (c.sequenceNumberO ≠ 0)
    (.exSeqNumOverflow "Crypto::send(): sequence number overflow")
  Exec.require (0 ≤ r1 ∧ 0 ≤ r2 ∧ 0 ≤ r3) (.exSend "can not Crypto::send()")
  return r1 + r2 + r3

/-! ### Receiving -/

/-- `if (connection->recv(buffer, n) != n) throw ...`. -/
def recvAll (n : ℤ) (e : Ex) : EStateM Ex Session Bytes := do
  let bs ← onConn (Connection.recv n.toNat)
  Exec.require (bs.length = n) e
  return bs

/-- `header.verify(auth_key, sequence_number_i++)`: the counter has moved on before the check
can throw.  `bs` is the byte string that the tag covers. -/
def checkHeader (bs : Bytes) (verify : Tag → UInt32 → Except Ex Unit) :
    EStateM Ex Session Unit := do
  let s ← get
  modify fun s => { s with crypto := { s.crypto with
    sequenceNumberI := s.crypto.sequenceNumberI + 1 } }
  Exec.ofExcept (verify s.crypto.authKey s.crypto.sequenceNumberI)
  modify fun s => { s with hist := { s.hist with verified := s.hist.verified ++ [bs] } }

/-- The refill branch of `Crypto::recv` up to the verification of the `SpaceCraft`. -/
def receivePacket (P : Primitives) (o : ByteOrder) : EStateM Ex Session Packet := do
  let rocketImage ← recvAll sizeofRocket (.exRecv "can not Crypto::recv() rocket")
  let rocket := (Rocket.ofImage o rocketImage).ntohl o
  checkHeader (rocket.macInput o) (rocket.verify P o)
  let spacecraftImage ← recvAll sizeofSpaceCraft (.exRecv "can not Crypto::recv() spacecraft")
  let encryptedPayload ← recvAll rocket.getPayloadSize
    (.exRecv "can not Crypto::recv() encrypted_payload")
  let spacecraft := (SpaceCraft.ofImage o spacecraftImage).ntohl o
  checkHeader (spacecraft.macInput o encryptedPayload)
    fun authKey n => spacecraft.verify P o authKey n encryptedPayload
  return ⟨rocket, spacecraft, encryptedPayload⟩

/-- Decrypt a verified packet. -/
def decryptPacket (P : Primitives) (p : Packet) : EStateM Ex Session Bytes := do
  let s ← get
  let (plaintext, c) := s.crypto.decrypt P p.payload
  modify fun s => { s with
    crypto := c, hist := { s.hist with accepted := s.hist.accepted ++ [⟨p, plaintext⟩] } }
  return plaintext

/-- Run a program of the session at an endpoint. -/
def onSession {α : Type} (m : EStateM Ex Session α) : EStateM Ex Endpoint α :=
  Exec.zoom (·.session) (fun s e => { e with session := s }) m

/-- The refill branch of `Crypto::recv`. -/
def feed (P : Primitives) (o : ByteOrder) : EStateM Ex Endpoint Unit := do
  let p ← onSession (receivePacket P o)
  let plaintext ← onSession (decryptPacket P p)
  modify fun e => { e with buf := e.buf.fill plaintext }
  let e ← get
  Exec.require (e.session.crypto.sequenceNumberI ≠ 0)
    (.exSeqNumOverflow "Crypto::recv(): sequence number overflow")

/-- The end of `Crypto::recv`. -/
def takeOut (size : ℕ) : EStateM Ex Endpoint Bytes := do
  let e ← get
  modify fun e => { e with buf := e.buf.advance size }
  return e.buf.copyOut size

/-- `Crypto::recv`. -/
def recv (P : Primitives) (o : ByteOrder) (size : ℕ) : EStateM Ex Endpoint Bytes := do
  let e ← get
  if e.buf.remaining = 0 then feed P o else pure ()
  takeOut size

end Crypto

end Cybrg
