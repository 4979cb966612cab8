import Cybrg.Common.RSASeal
import Cybrg.Library.Fields

/-!
# What the decoder of a seal reads

`RSASeal::fromString` is given a string from the network and believes the three lengths in it.
Here it runs read by read, so that every place it looks at is there to be compared with the
string.

* `RSASeal.fromStringReads` — the decoder with a record of its reads;
* `RSASeal.reads_inside` — its reads stay in the string iff the string begins with three framed
  fields;
* `RSASeal.str_fromString` — when they do, `str` gives the string back iff neither of the first two
  fields is empty, the third has `AES128_KEY_LEN` bytes, and nothing follows it.
-/

namespace Cybrg

open Octets

namespace RSASeal

/-! ### Read by read -/

/-- Read `n` bytes at an offset. -/
def peek (junk : ℕ → Byte) (buffer : Bytes) (off n : ℕ) : StateM (List (ℕ × ℕ)) Bytes := do
  modify (· ++ [(off, n)])
  return bytesAt junk buffer off n

/-- `ntohl(*(uint32_t*)(buffer.data() + off))`. -/
def peekWord (junk : ℕ → Byte) (buffer : Bytes) (off : ℕ) : StateM (List (ℕ × ℕ)) ℕ := do
  let bs ← peek junk buffer off 4
  return (ofBigEndian bs).toNat

/-- `RSASeal::fromString`, with a record of where it reads and how much. -/
def fromStringReads (junk : ℕ → Byte) (buffer : Bytes) : StateM (List (ℕ × ℕ)) RSASeal := do
  let el ← peekWord junk buffer 0
  let ek ← peek junk buffer 4 el
  let pl ← peekWord junk buffer (4 + el)
  let payload ← peek junk buffer (4 + el + 4) pl
  let ivl ← peekWord junk buffer (4 + el + 4 + pl)
  let iv ← peek junk buffer (4 + el + 4 + pl + 4) ivl
  return { ek, payload, iv }

/-- All reads of a run. -/
def reads (junk : ℕ → Byte) (buffer : Bytes) : List (ℕ × ℕ) :=
  ((fromStringReads junk buffer).run []).2

/-- All reads of a run stay in the string. -/
def Safe (junk : ℕ → Byte) (buffer : Bytes) : Prop := Fields.Inside buffer (reads junk buffer)

instance (junk : ℕ → Byte) (buffer : Bytes) : Decidable (Safe junk buffer) :=
  inferInstanceAs (Decidable (Fields.Inside buffer (reads junk buffer)))

/-- The record changes nothing: the seal is that of `fromString`. -/
theorem fromStringReads_run (junk : ℕ → Byte) (buffer : Bytes) :
    (fromStringReads junk buffer).run [] =
      (fromString junk buffer, Fields.places (bytesAt junk buffer) 3 0) := by
  have h₀ : Fields.announced (bytesAt junk buffer) 0 = wordAt junk buffer 0 := rfl
  simp only [Fields.places, Fields.next, h₀, Nat.zero_add]
  rfl

theorem reads_eq (junk : ℕ → Byte) (buffer : Bytes) :
    reads junk buffer = Fields.places (bytesAt junk buffer) 3 0 := by
  rw [reads, fromStringReads_run]

/-- The three fields of the seal, as the general decoder finds them. -/
theorem fields_eq (junk : ℕ → Byte) (buffer : Bytes) :
    [(fromString junk buffer).ek, (fromString junk buffer).payload, (fromString junk buffer).iv]
      = Fields.decode (bytesAt junk buffer) 3 0 := by
  have h₀ : Fields.announced (bytesAt junk buffer) 0 = wordAt junk buffer 0 := rfl
  simp only [Fields.decode, Fields.next, h₀, Nat.zero_add]
  rfl

theorem bytesAt_views (junk : ℕ → Byte) (b : Bytes) : Fields.Views (bytesAt junk b) b := by
  intro off n h
  have hoff : (b.take off).length = off := by
    rw [List.length_take]
    omega
  have hn : ((b.drop off).take n).length = n := by
    rw [List.length_take, List.length_drop]
    omega
  have hb : b.take off ++ ((b.drop off).take n ++ (b.drop off).drop n) = b := by
    rw [List.take_append_drop, List.take_append_drop]
  have hmid := bytesAt_middle junk (b.take off) ((b.drop off).take n) ((b.drop off).drop n)
  rwa [hb, hoff, hn] at hmid

/-! ### Strings that begin with three fields -/

/-- The string begins with three fields, each behind its length. -/
def Framed (b : Bytes) : Prop :=
  ∃ ek payload iv rest : Bytes, ek.length < 2 ^ 32 ∧ payload.length < 2 ^ 32 ∧
    iv.length < 2 ^ 32 ∧ b = frame ek ++ frame payload ++ frame iv ++ rest

/-- What is decoded from such a string. -/
theorem fromString_frames (junk : ℕ → Byte) {ek payload iv rest : Bytes}
    (he : ek.length < 2 ^ 32) (hp : payload.length < 2 ^ 32) (hi : iv.length < 2 ^ 32) :
    fromString junk (frame ek ++ frame payload ++ frame iv ++ rest) = ⟨ek, payload, iv⟩ := by
  have hfs : ∀ f ∈ [ek, payload, iv], f.length < 2 ^ 32 := by
    intro f hf
    simp only [List.mem_cons, List.not_mem_nil, or_false] at hf
    rcases hf with rfl | rfl | rfl
    · exact he
    · exact hp
    · exact hi
  have hdrop : (frame ek ++ frame payload ++ frame iv ++ rest).drop 0
      = ([ek, payload, iv].map frame).flatten ++ rest := by simp
  have hdec := Fields.decode_frames (bytesAt_views junk _) hfs hdrop
  rw [List.length_cons, List.length_cons, List.length_singleton, ← fields_eq] at hdec
  obtain ⟨h₁, hdec⟩ := List.cons.inj hdec
  obtain ⟨h₂, hdec⟩ := List.cons.inj hdec
  obtain ⟨h₃, -⟩ := List.cons.inj hdec
  cases hs : fromString junk (frame ek ++ frame payload ++ frame iv ++ rest)
  simp only [hs] at h₁ h₂ h₃
  rw [h₁, h₂, h₃]

/-- The reads stay in a string iff it begins with three framed fields. -/
theorem safe_iff_framed (junk : ℕ → Byte) (b : Bytes) : Safe junk b ↔ Framed b := by
  rw [Safe, reads_eq, Fields.inside_iff (bytesAt_views junk b), List.drop_zero]
  constructor
  · rintro ⟨fs, rest, hlen, hfs, hb⟩
    obtain ⟨ek, payload, iv, rfl⟩ := List.length_eq_three.mp hlen
    refine ⟨ek, payload, iv, rest, hfs ek (by simp), hfs payload (by simp), hfs iv (by simp), ?_⟩
    rw [hb]
    simp
  · rintro ⟨ek, payload, iv, rest, he, hp, hi, hb⟩
    refine ⟨[ek, payload, iv], rest, rfl, ?_, by simp [hb]⟩
    intro f hf
    simp only [List.mem_cons, List.not_mem_nil, or_false] at hf
    rcases hf with rfl | rfl | rfl
    · exact he
    · exact hp
    · exact hi

/-- **Decoding a seal reads inside the string iff the string begins with three framed fields.**  No
sum of offsets comes near the end of the addresses. -/
theorem reads_inside (junk : ℕ → Byte) (b : Bytes) :
    (Safe junk b ↔ Framed b) ∧ ∀ p ∈ reads junk b, p.1 + p.2 < 2 ^ 64 := by
  refine ⟨safe_iff_framed junk b, ?_⟩
  intro p hp
  rw [reads_eq] at hp
  have hlt := Fields.places_end_lt hp
  omega

/-- Eight bytes are announced, and none are there. -/
theorem reads_outside :
    let b : Bytes := [0, 0, 0, 8]
    0 < b.length ∧ b.length ≤ bufferSize ∧ ¬ Safe (fun _ => 0) b := by
  decide

/-! ### The text that is verified -/

/-- The string says itself to be a seal as `str` writes them: something in each of the first two
fields, `AES128_KEY_LEN` bytes in the third, and nothing behind it. -/
structure Regular (junk : ℕ → Byte) (b : Bytes) : Prop where
  ek : wordAt junk b 0 ≠ 0
  payload : wordAt junk b (4 + wordAt junk b 0) ≠ 0
  iv : wordAt junk b (4 + wordAt junk b 0 + 4 + wordAt junk b (4 + wordAt junk b 0)) = aes128KeyLen
  ends : b.length = 4 + wordAt junk b 0 + 4 + wordAt junk b (4 + wordAt junk b 0) + 4 + aes128KeyLen

theorem fromString_lengths (junk : ℕ → Byte) (b : Bytes) :
    (fromString junk b).ek.length = wordAt junk b 0 ∧
      (fromString junk b).payload.length = wordAt junk b (4 + wordAt junk b 0) ∧
      (fromString junk b).iv.length
        = wordAt junk b (4 + wordAt junk b 0 + 4 + wordAt junk b (4 + wordAt junk b 0)) := by
  refine ⟨?_, ?_, ?_⟩ <;> simp only [fromString, bytesAt_length]

/-- What `str` writes for the seal is the string it came from iff the vector has the length that
is written for it and nothing was behind it. -/
theorem encode_eq_frames {ek payload iv rest : Bytes} (hi : iv.length < 2 ^ 32) :
    encode ⟨ek, payload, iv⟩ = frame ek ++ frame payload ++ frame iv ++ rest ↔
      iv.length = aes128KeyLen ∧ rest = [] := by
  have hlen : aes128KeyLen < 2 ^ 32 := by decide
  simp only [encode_eq_frame, frame, List.append_assoc, List.append_cancel_left_eq]
  constructor
  · intro h
    obtain ⟨hword, htail⟩ := List.append_inj h rfl
    refine ⟨((ofNat_inj hlen hi).mp (bigEndian_injective hword)).symm, ?_⟩
    exact List.append_right_eq_self.mp htail.symm
  · rintro ⟨hiv, rfl⟩
    rw [hiv, List.append_nil]

/-- **The text that the client verifies is the text it received** iff the string is regular, for
every string on which the decoder reads no further than its end. -/
theorem str_fromString (junk : ℕ → Byte) (b : Bytes) (hsafe : Safe junk b) :
    (fromString junk b).str = .ok b ↔ Regular junk b := by
  obtain ⟨ek, payload, iv, rest, he, hp, hi, rfl⟩ := (safe_iff_framed junk b).mp hsafe
  obtain ⟨hel, hpl, hivl⟩ := fromString_lengths junk (frame ek ++ frame payload ++ frame iv ++ rest)
  rw [fromString_frames junk he hp hi] at hel hpl hivl ⊢
  simp only at hel hpl hivl
  have hends : (frame ek ++ frame payload ++ frame iv ++ rest).length
      = 4 + ek.length + 4 + payload.length + 4 + iv.length + rest.length := by
    simp only [List.length_append, frame, bigEndian_length]
    omega
  constructor
  · intro h
    have hne : ¬ (ek = [] ∨ payload = []) := by
      intro hnil
      rw [str, if_pos hnil] at h
      cases h
    obtain ⟨hek, hpay⟩ := not_or.mp hne
    obtain ⟨hiv, hrest⟩ := (encode_eq_frames hi).mp (str_ok h).symm
    refine ⟨?_, ?_, ?_, ?_⟩
    · rw [← hel]
      exact fun h₀ => hek (List.length_eq_zero_iff.mp h₀)
    · rw [← hpl]
      exact fun h₀ => hpay (List.length_eq_zero_iff.mp h₀)
    · rw [← hivl, hiv]
    · rw [← hpl, ← hel, hends, hiv, hrest, List.length_nil, Nat.add_zero]
  · rintro ⟨h₁, h₂, h₃, h₄⟩
    rw [← hivl] at h₃
    rw [← hpl] at h₂ h₄
    rw [← hel] at h₁ h₄
    have hek : ek ≠ [] := fun h₀ => h₁ (List.length_eq_zero_iff.mpr h₀)
    have hpay : payload ≠ [] := fun h₀ => h₂ (List.length_eq_zero_iff.mpr h₀)
    have hrest : rest = [] := List.length_eq_zero_iff.mp (by omega)
    rw [str, if_neg (not_or.mpr ⟨hek, hpay⟩), (encode_eq_frames hi).mpr ⟨h₃, hrest⟩]

/-- A seal as `str` writes it. -/
theorem str_fromString_written :
    (fromString (fun _ => 0) (frame [1] ++ frame [2] ++ frame (List.replicate 16 3))).str
      = .ok (frame [1] ++ frame [2] ++ frame (List.replicate 16 3)) :=
  (str_fromString (fun _ => 0) _ (by decide)).mpr ⟨by decide, by decide, by decide, by decide⟩

/-- A byte behind the seal, a vector of three bytes, an empty key: the first is dropped, the
second gets another length, and the third fails the assertion. -/
theorem str_changes :
    let sealOf (ek iv : Bytes) := frame ek ++ frame [2] ++ frame iv
    let trailing := sealOf [1] (List.replicate 16 3) ++ [4]
    let short := sealOf [1] [3, 3, 3]
    let hollow := sealOf [] (List.replicate 16 3)
    (Safe (fun _ => 0) trailing ∧ Safe (fun _ => 0) short ∧ Safe (fun _ => 0) hollow) ∧
      (fromString (fun _ => 0) trailing).str = .ok (sealOf [1] (List.replicate 16 3)) ∧
      (fromString (fun _ => 0) short).str ≠ .ok short ∧
      (fromString (fun _ => 0) hollow).str
        = .error (.aborted "! ek.empty() && ! payload.empty()") := by
  decide +kernel

end RSASeal

end Cybrg
