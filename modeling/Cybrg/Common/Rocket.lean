import Cybrg.Common.Protocol

/-!
# Secure packet headers

A secure packet is a `Rocket`, a `SpaceCraft` and the encrypted payload.  Both headers are C++
objects that are tagged while their integers are in host order, converted with `htonl`, and
written to the socket as raw memory; the receiver copies raw memory into an object, converts it
with `ntohl` and then verifies the tag over host-order memory again.  The byte order of the host
is therefore a parameter of everything that reads or writes an object as memory.

* `Rocket.macInput`, `SpaceCraft.macInput` — the byte strings that the tags cover;
* `Rocket.verify`, `SpaceCraft.verify` — the three and two checks, in the order of the source;
* `Rocket.image_htonl`, `Rocket.ofImage_wire` — what goes over the wire does not depend on the
  host, on either side, although the tagged bytes do.
-/

namespace Cybrg

open Octets

/-- The symmetric primitives of OpenSSL: the AES-128 block function of a key, and HMAC-SHA256
under an authentication key. -/
structure Primitives where
  aes128 : Block → Block → Block
  hmacSha256 : Tag → Bytes → Tag

/-! ### Rocket -/

structure Rocket where
  hmac : Tag
  payloadSize : UInt32
  sequenceNumber : UInt32
  deriving DecidableEq

/-- `sizeof(Rocket)`. -/
def sizeofRocket : ℕ := 40

namespace Rocket

/-- `Rocket::Rocket(uint32_t, uint32_t)`; the tag is not set yet. -/
def new (size sequenceNumber : UInt32) : Rocket :=
  ⟨fixed 32 [], size, sequenceNumber⟩

/-- The object as raw memory. -/
def image (o : ByteOrder) (r : Rocket) : Bytes :=
  r.hmac.toList ++ o.store r.payloadSize ++ o.store r.sequenceNumber

/-- Raw memory as an object. -/
def ofImage (o : ByteOrder) (bs : Bytes) : Rocket :=
  ⟨fixed 32 (bs.take 32), o.load ((bs.drop 32).take 4), o.load ((bs.drop 36).take 4)⟩

/-- `Rocket::htonl`. -/
def htonl (o : ByteOrder) (r : Rocket) : Rocket :=
  { r with payloadSize := o.hton r.payloadSize, sequenceNumber := o.hton r.sequenceNumber }

/-- `Rocket::ntohl`. -/
def ntohl (o : ByteOrder) (r : Rocket) : Rocket :=
  { r with payloadSize := o.ntoh r.payloadSize, sequenceNumber := o.ntoh r.sequenceNumber }

/-- `Rocket::getPayloadSize`: the unsigned size returned as an `int`. -/
def getPayloadSize (r : Rocket) : ℤ := r.payloadSize.toBitVec.toInt

/-- The bytes that `HMAC_Update` is given, in order. -/
def macInput (o : ByteOrder) (r : Rocket) : Bytes :=
  o.store r.payloadSize ++ o.store r.sequenceNumber

/-- `Rocket::computehmac`. -/
def computehmac (P : Primitives) (o : ByteOrder) (authKey : Tag) (r : Rocket) : Rocket :=
  { r with hmac := P.hmacSha256 authKey (r.macInput o) }

/-- `Rocket::verify`. -/
def verify (P : Primitives) (o : ByteOrder) (authKey : Tag) (r : Rocket)
    (expectedSeqNum : UInt32) : Except Ex Unit :=
  if (r.computehmac P o authKey).hmac ≠ r.hmac then
    .error (.exBadHMAC "Rocket::verify(): bad hmac")
  else if bufferSize < r.payloadSize.toNat then
    .error (.exBadProtocol "Rocket::verify(): length too long")
  else if r.sequenceNumber ≠ expectedSeqNum then
    .error (.exBadSeqNum "Rocket::verify(): invalid seqence number")
  else .ok ()

/-- The header as it travels. -/
def wire (r : Rocket) : Bytes :=
  r.hmac.toList ++ bigEndian r.payloadSize ++ bigEndian r.sequenceNumber

@[simp] theorem wire_length (r : Rocket) : r.wire.length = sizeofRocket := by
  simp [wire, sizeofRocket]

/-- What is written to the socket does not depend on the host. -/
theorem image_htonl (o : ByteOrder) (r : Rocket) : (r.htonl o).image o = r.wire := by
  simp [image, htonl, wire]

/-- What is read from the socket does not depend on the host. -/
theorem ofImage_wire (o : ByteOrder) (r : Rocket) : (ofImage o r.wire).ntohl o = r := by
  have h32 : r.hmac.toList.length = 32 := r.hmac.toList_length
  have ht : r.wire.take 32 = r.hmac.toList := by
    rw [wire, List.append_assoc, List.take_left' h32]
  have hs : (r.wire.drop 32).take 4 = bigEndian r.payloadSize := by
    rw [wire, List.append_assoc, List.drop_left' h32, List.take_left' (bigEndian_length _)]
  have hq : (r.wire.drop 36).take 4 = bigEndian r.sequenceNumber := by
    rw [wire, List.drop_left' (by simp), List.take_of_length_le (by simp)]
  simp only [ofImage, ntohl, ht, hs, hq, fixed_toList]
  rw [o.ntoh_load _ (bigEndian_length _), o.ntoh_load _ (bigEndian_length _),
    ofBigEndian_bigEndian, ofBigEndian_bigEndian]

/-- Any forty bytes are the wire form of the header that is read from them. -/
theorem wire_ofImage (o : ByteOrder) (bs : Bytes) (h : bs.length = sizeofRocket) :
    ((ofImage o bs).ntohl o).wire = bs := by
  have hl : bs.length = 40 := h
  simp only [wire, ofImage, ntohl]
  rw [toList_fixed _ (by simp [hl]), o.ntoh_load _ (by simp [hl]), o.ntoh_load _ (by simp [hl]),
    bigEndian_ofBigEndian _ (by simp [hl]), bigEndian_ofBigEndian _ (by simp [hl]),
    List.take_of_length_le (l := bs.drop 36) (by simp [hl]), List.append_assoc,
    ← List.drop_drop (i := 4) (j := 32), List.take_append_drop, List.take_append_drop]

/-- **A rocket passes exactly the three checks of the source.** -/
theorem verify_ok_iff {P : Primitives} {o : ByteOrder} {authKey : Tag} {r : Rocket}
    {n : UInt32} :
    r.verify P o authKey n = .ok () ↔
      P.hmacSha256 authKey (r.macInput o) = r.hmac ∧ r.payloadSize.toNat ≤ bufferSize ∧
        r.sequenceNumber = n := by
  by_cases hm : P.hmacSha256 authKey (r.macInput o) = r.hmac
  · by_cases hs : bufferSize < r.payloadSize.toNat
    · simp [verify, computehmac, hm, hs, Nat.not_le.mpr hs]
    · by_cases hq : r.sequenceNumber = n
      · simp [verify, computehmac, hm, hs, hq, Nat.not_lt.mp hs]
      · simp [verify, computehmac, hm, hs, hq]
  · simp [verify, computehmac, hm]

/-- The exceptions of a check are not about the end of the numbers. -/
theorem verify_not_overflow {P : Primitives} {o : ByteOrder} {authKey : Tag} {r : Rocket}
    {n : UInt32} (m : String) : r.verify P o authKey n ≠ .error (.exSeqNumOverflow m) := by
  unfold verify
  split
  · simp
  · split
    · simp
    · split <;> simp

/-- The size of a rocket that passed is not changed by the conversion to `int`. -/
theorem getPayloadSize_of_le {r : Rocket} (h : r.payloadSize.toNat ≤ bufferSize) :
    r.getPayloadSize = r.payloadSize.toNat := by
  have hb : bufferSize = 4096 := rfl
  have hn : r.payloadSize.toBitVec.toNat = r.payloadSize.toNat := rfl
  rw [getPayloadSize, BitVec.toInt_eq_toNat_of_lt (by omega), hn]

end Rocket

/-! ### SpaceCraft -/

structure SpaceCraft where
  hmac : Tag
  sequenceNumber : UInt32
  deriving DecidableEq

/-- `sizeof(SpaceCraft)`. -/
def sizeofSpaceCraft : ℕ := 36

namespace SpaceCraft

/-- `SpaceCraft::SpaceCraft(uint32_t)`; the tag is not set yet. -/
def new (sequenceNumber : UInt32) : SpaceCraft := ⟨fixed 32 [], sequenceNumber⟩

/-- The object as raw memory. -/
def image (o : ByteOrder) (s : SpaceCraft) : Bytes :=
  s.hmac.toList ++ o.store s.sequenceNumber

/-- Raw memory as an object. -/
def ofImage (o : ByteOrder) (bs : Bytes) : SpaceCraft :=
  ⟨fixed 32 (bs.take 32), o.load ((bs.drop 32).take 4)⟩

/-- `SpaceCraft::htonl`. -/
def htonl (o : ByteOrder) (s : SpaceCraft) : SpaceCraft :=
  { s with sequenceNumber := o.hton s.sequenceNumber }

/-- `SpaceCraft::ntohl`. -/
def ntohl (o : ByteOrder) (s : SpaceCraft) : SpaceCraft :=
  { s with sequenceNumber := o.ntoh s.sequenceNumber }

/-- The bytes that `HMAC_Update` is given, in order. -/
def macInput (o : ByteOrder) (s : SpaceCraft) (payload : Bytes) : Bytes :=
  o.store s.sequenceNumber ++ payload

/-- `SpaceCraft::computehmac`. -/
def computehmac (P : Primitives) (o : ByteOrder) (authKey : Tag) (s : SpaceCraft)
    (payload : Bytes) : SpaceCraft :=
  { s with hmac := P.hmacSha256 authKey (s.macInput o payload) }

/-- `SpaceCraft::verify`. -/
def verify (P : Primitives) (o : ByteOrder) (authKey : Tag) (s : SpaceCraft)
    (expectedSeqNum : UInt32) (payload : Bytes) : Except Ex Unit :=
  if (s.computehmac P o authKey payload).hmac ≠ s.hmac then
    .error (.exBadHMAC "SpaceCraft::verify(): bad hmac")
  else if s.sequenceNumber ≠ expectedSeqNum then
    .error (.exBadSeqNum "SpaceCraft::verify(): invalid seqence number")
  else .ok ()

/-- The header as it travels. -/
def wire (s : SpaceCraft) : Bytes := s.hmac.toList ++ bigEndian s.sequenceNumber

@[simp] theorem wire_length (s : SpaceCraft) : s.wire.length = sizeofSpaceCraft := by
  simp [wire, sizeofSpaceCraft]

theorem image_htonl (o : ByteOrder) (s : SpaceCraft) : (s.htonl o).image o = s.wire := by
  simp [image, htonl, wire]

theorem ofImage_wire (o : ByteOrder) (s : SpaceCraft) : (ofImage o s.wire).ntohl o = s := by
  have h32 : s.hmac.toList.length = 32 := s.hmac.toList_length
  have ht : s.wire.take 32 = s.hmac.toList := List.take_left' h32
  have hq : (s.wire.drop 32).take 4 = bigEndian s.sequenceNumber := by
    rw [wire, List.drop_left' h32, List.take_of_length_le (by simp)]
  simp only [ofImage, ntohl, ht, hq, fixed_toList]
  rw [o.ntoh_load _ (bigEndian_length _), ofBigEndian_bigEndian]

theorem wire_ofImage (o : ByteOrder) (bs : Bytes) (h : bs.length = sizeofSpaceCraft) :
    ((ofImage o bs).ntohl o).wire = bs := by
  have hl : bs.length = 36 := h
  simp only [wire, ofImage, ntohl]
  rw [toList_fixed _ (by simp [hl]), o.ntoh_load _ (by simp [hl]),
    bigEndian_ofBigEndian _ (by simp [hl]),
    List.take_of_length_le (l := bs.drop 32) (by simp [hl]), List.take_append_drop]

theorem verify_ok_iff {P : Primitives} {o : ByteOrder} {authKey : Tag} {s : SpaceCraft}
    {n : UInt32} {payload : Bytes} :
    s.verify P o authKey n payload = .ok () ↔
      P.hmacSha256 authKey (s.macInput o payload) = s.hmac ∧ s.sequenceNumber = n := by
  by_cases hm : P.hmacSha256 authKey (s.macInput o payload) = s.hmac
  · by_cases hq : s.sequenceNumber = n
    · simp [verify, computehmac, hm, hq]
    · simp [verify, computehmac, hm, hq]
  · simp [verify, computehmac, hm]

theorem verify_not_overflow {P : Primitives} {o : ByteOrder} {authKey : Tag} {s : SpaceCraft}
    {n : UInt32} {payload : Bytes} (m : String) :
    s.verify P o authKey n payload ≠ .error (.exSeqNumOverflow m) := by
  unfold verify
  split
  · simp
  · split <;> simp

end SpaceCraft

/-! ### The packet -/

/-- A `Rocket`, a `SpaceCraft` and an encrypted payload, with the integers in host order. -/
structure Packet where
  rocket : Rocket
  spacecraft : SpaceCraft
  payload : Bytes
  deriving DecidableEq

namespace Packet

/-- The packet as it travels. -/
def wire (p : Packet) : Bytes := p.rocket.wire ++ p.spacecraft.wire ++ p.payload

/-- The two byte strings whose tags the packet carries. -/
def macInputs (o : ByteOrder) (p : Packet) : List Bytes :=
  [p.rocket.macInput o, p.spacecraft.macInput o p.payload]

/-- Both tags of the packet are right under a key. -/
def Verified (P : Primitives) (o : ByteOrder) (authKey : Tag) (p : Packet) : Prop :=
  P.hmacSha256 authKey (p.rocket.macInput o) = p.rocket.hmac ∧
    P.hmacSha256 authKey (p.spacecraft.macInput o p.payload) = p.spacecraft.hmac

end Packet

end Cybrg
