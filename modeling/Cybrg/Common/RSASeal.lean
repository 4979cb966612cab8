import Cybrg.Common.Protocol

/-!
# The wire form of a seal

An `RSASeal` is the encrypted key, the payload and the initialisation vector of an OpenSSL
envelope.  `str` writes each of them behind its length; for the vector the length is always
written as `AES128_KEY_LEN`, whatever it is.  `fromString` believes the three lengths it finds and
may read far beyond the string.

* `RSASeal.encode` — what `str` writes;
* `RSASeal.fromString` — the decoder, over a string and the memory around it;
* `RSASeal.encode_append_inj` — a seal whose vector has its proper length is recognised at the
  beginning of a longer string;
* `RSASeal.fromString_encode` — such a seal is decoded to itself.
-/

namespace Cybrg

open Octets

structure RSASeal where
  ek : Bytes
  payload : Bytes
  iv : Bytes
  deriving DecidableEq

namespace RSASeal

/-! ### Encoding -/

/-- The string that `str` builds. -/
def encode (s : RSASeal) : Bytes :=
  bigEndian (UInt32.ofNat s.ek.length) ++ s.ek ++ bigEndian (UInt32.ofNat s.payload.length)
    ++ s.payload ++ bigEndian (UInt32.ofNat aes128KeyLen) ++ s.iv

/-- `RSASeal::str`. -/
def str (s : RSASeal) : Except Ex Bytes :=
  if s.ek = [] ∨ s.payload = [] then .error (.aborted "! ek.empty() && ! payload.empty()")
  else .ok s.encode

theorem str_ok {s : RSASeal} {bs : Bytes} (h : s.str = .ok bs) : bs = s.encode := by
  unfold str at h
  split at h
  · cases h
  · exact (Except.ok.inj h).symm

theorem encode_eq_frame (s : RSASeal) :
    s.encode = frame s.ek ++ (frame s.payload
      ++ (bigEndian (UInt32.ofNat aes128KeyLen) ++ s.iv)) := by
  simp only [encode, frame, List.append_assoc]

/-- The lengths of the first two fields can be written down. -/
def Writable (s : RSASeal) : Prop := s.ek.length < 2 ^ 32 ∧ s.payload.length < 2 ^ 32

/-- **A seal is recognised at the beginning of a string**, if its vector has the length that is
written in front of it. -/
theorem encode_append_inj {s t : RSASeal} {r q : Bytes} (hs : s.Writable) (ht : t.Writable)
    (hsiv : s.iv.length = aes128KeyLen) (htiv : t.iv.length = aes128KeyLen)
    (h : s.encode ++ r = t.encode ++ q) : s = t ∧ r = q := by
  simp only [encode_eq_frame, List.append_assoc] at h
  obtain ⟨hek, h⟩ := frame_append_inj hs.1 ht.1 h
  obtain ⟨hpay, h⟩ := frame_append_inj hs.2 ht.2 h
  obtain ⟨-, h⟩ := List.append_inj h rfl
  obtain ⟨hiv, hrest⟩ := List.append_inj h (hsiv.trans htiv.symm)
  obtain ⟨sek, spay, siv⟩ := s
  simp only at hek hpay hiv
  subst hek hpay hiv
  exact ⟨rfl, hrest⟩

/-! ### Decoding -/

/-- The byte at an offset from the beginning of a string, which may lie beyond its end. -/
def byteAt (junk : ℕ → Byte) (buffer : Bytes) (i : ℕ) : Byte := buffer.getD i (junk i)

/-- `n` bytes of memory from an offset on. -/
def bytesAt (junk : ℕ → Byte) (buffer : Bytes) (off n : ℕ) : Bytes :=
  (List.range n).map fun i => byteAt junk buffer (off + i)

@[simp] theorem bytesAt_length (junk : ℕ → Byte) (buffer : Bytes) (off n : ℕ) :
    (bytesAt junk buffer off n).length = n := by
  simp [bytesAt]

/-- `ntohl(*(uint32_t*)(buffer.data() + off))`. -/
def wordAt (junk : ℕ → Byte) (buffer : Bytes) (off : ℕ) : ℕ :=
  (ofBigEndian (bytesAt junk buffer off 4)).toNat

theorem wordAt_lt (junk : ℕ → Byte) (buffer : Bytes) (off : ℕ) :
    wordAt junk buffer off < 2 ^ 32 :=
  (ofBigEndian _).toNat_lt

/-- `RSASeal::fromString`. -/
def fromString (junk : ℕ → Byte) (buffer : Bytes) : RSASeal :=
  let el := wordAt junk buffer 0
  let pl := wordAt junk buffer (4 + el)
  let ivl := wordAt junk buffer (4 + el + 4 + pl)
  { ek := bytesAt junk buffer 4 el
    payload := bytesAt junk buffer (4 + el + 4) pl
    iv := bytesAt junk buffer (4 + el + 4 + pl + 4) ivl }

theorem fromString_writable (junk : ℕ → Byte) (buffer : Bytes) :
    (fromString junk buffer).Writable := by
  constructor <;> simp only [fromString, bytesAt_length] <;> exact wordAt_lt _ _ _

/-! ### The round trip -/

/-- A stretch of a string is read back. -/
theorem bytesAt_middle (junk : ℕ → Byte) (pre bs post : Bytes) :
    bytesAt junk (pre ++ (bs ++ post)) pre.length bs.length = bs := by
  refine List.ext_getElem (by simp) fun i h _ => ?_
  rw [bytesAt_length] at h
  simp only [bytesAt, List.getElem_map, List.getElem_range, byteAt, List.getD_eq_getElem?_getD]
  rw [List.getElem?_append_right (Nat.le_add_right _ _), Nat.add_sub_cancel_left,
    List.getElem?_append_left h, List.getElem?_eq_getElem h, Option.getD_some]

theorem wordAt_middle (junk : ℕ → Byte) (pre post : Bytes) {n : ℕ} (hn : n < 2 ^ 32) :
    wordAt junk (pre ++ (bigEndian (UInt32.ofNat n) ++ post)) pre.length = n := by
  have h := bytesAt_middle junk pre (bigEndian (UInt32.ofNat n)) post
  rw [bigEndian_length] at h
  rw [wordAt, h, ofBigEndian_bigEndian, UInt32.toNat_ofNat', Nat.mod_eq_of_lt hn]

/-- **A seal is decoded from what `str` writes**, if its vector has the length that is written in
front of it. -/
theorem fromString_encode (junk : ℕ → Byte) {s : RSASeal} (hs : s.Writable)
    (hiv : s.iv.length = aes128KeyLen) : fromString junk s.encode = s := by
  obtain ⟨ek, payload, iv⟩ := s
  obtain ⟨hek, hpay⟩ := hs
  simp only at hek hpay hiv
  have hlen : aes128KeyLen < 2 ^ 32 := by decide
  -- the three places where a length and a field begin
  have h₀ := wordAt_middle junk [] (ek ++ (bigEndian (UInt32.ofNat payload.length)
    ++ (payload ++ (bigEndian (UInt32.ofNat aes128KeyLen) ++ iv)))) hek
  have h₁ := bytesAt_middle junk (bigEndian (UInt32.ofNat ek.length)) ek
    (bigEndian (UInt32.ofNat payload.length)
      ++ (payload ++ (bigEndian (UInt32.ofNat aes128KeyLen) ++ iv)))
  have h₂ := wordAt_middle junk (bigEndian (UInt32.ofNat ek.length) ++ ek)
    (payload ++ (bigEndian (UInt32.ofNat aes128KeyLen) ++ iv)) hpay
  have h₃ := bytesAt_middle junk (bigEndian (UInt32.ofNat ek.length) ++ ek
    ++ bigEndian (UInt32.ofNat payload.length)) payload
    (bigEndian (UInt32.ofNat aes128KeyLen) ++ iv)
  have h₄ := wordAt_middle junk (bigEndian (UInt32.ofNat ek.length) ++ ek
    ++ bigEndian (UInt32.ofNat payload.length) ++ payload) iv hlen
  have h₅ := bytesAt_middle junk (bigEndian (UInt32.ofNat ek.length) ++ ek
    ++ bigEndian (UInt32.ofNat payload.length) ++ payload
    ++ bigEndian (UInt32.ofNat aes128KeyLen)) iv []
  simp only [List.append_assoc, List.nil_append, List.append_nil, List.length_append,
    List.length_nil, bigEndian_length, ← Nat.add_assoc] at h₀ h₁ h₂ h₃ h₄ h₅
  rw [hiv] at h₅
  simp only [fromString, encode, List.append_assoc, h₀, h₁, h₂, h₃, h₄, h₅]

end RSASeal

end Cybrg
