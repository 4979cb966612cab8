import Cybrg.Library.Octets

/-!
# Fields behind their lengths, read without a look at the end

A decoder of several fields, each behind its length, that believes every length it finds and
goes on behind the field.  Memory is a function of an offset and a number of bytes; a string
lies at its beginning, and what lies behind the string is not known.

* `Fields.places` — the offsets and lengths of all reads, in order;
* `Fields.decode` — the fields;
* `Fields.inside_iff` — all reads stay in the string iff the string begins with that many framed
  fields;
* `Fields.decode_frames` — these fields are then the ones that are decoded.
-/

namespace Fields

open Octets

variable {peek : ℕ → ℕ → List UInt8} {b : List UInt8}

/-- A memory at whose beginning lies the string `b`. -/
def Views (peek : ℕ → ℕ → List UInt8) (b : List UInt8) : Prop :=
  ∀ off n, off + n ≤ b.length → peek off n = (b.drop off).take n

/-- The length that is found at an offset. -/
def announced (peek : ℕ → ℕ → List UInt8) (off : ℕ) : ℕ := (ofBigEndian (peek off 4)).toNat

theorem announced_lt (peek : ℕ → ℕ → List UInt8) (off : ℕ) : announced peek off < 2 ^ 32 :=
  (ofBigEndian _).toNat_lt

/-- Where the next field begins. -/
def next (peek : ℕ → ℕ → List UInt8) (off : ℕ) : ℕ := off + 4 + announced peek off

/-- The reads for `k` fields from an offset on. -/
def places (peek : ℕ → ℕ → List UInt8) : ℕ → ℕ → List (ℕ × ℕ)
  | 0, _ => []
  | k + 1, off => (off, 4) :: (off + 4, announced peek off) :: places peek k (next peek off)

/-- The `k` fields from an offset on. -/
def decode (peek : ℕ → ℕ → List UInt8) : ℕ → ℕ → List (List UInt8)
  | 0, _ => []
  | k + 1, off => peek (off + 4) (announced peek off) :: decode peek k (next peek off)

/-- All of these reads stay in the string. -/
def Inside (b : List UInt8) (ps : List (ℕ × ℕ)) : Prop := ∀ p ∈ ps, p.1 + p.2 ≤ b.length

instance (b : List UInt8) (ps : List (ℕ × ℕ)) : Decidable (Inside b ps) :=
  inferInstanceAs (Decidable (∀ p ∈ ps, p.1 + p.2 ≤ b.length))

theorem inside_nil (b : List UInt8) : Inside b [] := by
  intro p hp
  cases hp

theorem inside_cons {p : ℕ × ℕ} {ps : List (ℕ × ℕ)} :
    Inside b (p :: ps) ↔ p.1 + p.2 ≤ b.length ∧ Inside b ps :=
  List.forall_mem_cons

/-- No read ends far behind the offset it started from. -/
theorem places_end_lt {k off : ℕ} {p : ℕ × ℕ} (h : p ∈ places peek k off) :
    p.1 + p.2 < off + k * (2 ^ 32 + 4) := by
  induction k generalizing off with
  | zero => cases h
  | succ k ih =>
    have hlt := announced_lt peek off
    rcases List.mem_cons.mp h with rfl | h
    · show off + 4 < off + (k + 1) * (2 ^ 32 + 4)
      omega
    · rcases List.mem_cons.mp h with rfl | h
      · show off + 4 + announced peek off < off + (k + 1) * (2 ^ 32 + 4)
        omega
      · have hnext : next peek off = off + 4 + announced peek off := rfl
        have hp := ih h
        omega

/-! ### One field -/

/-- A framed field at an offset: its length is found, the field is read, and the string goes on
behind it. -/
theorem announced_frame (hv : Views peek b) {off : ℕ} {f rest : List UInt8}
    (hf : f.length < 2 ^ 32) (h : b.drop off = frame f ++ rest) :
    announced peek off = f.length ∧ peek (off + 4) f.length = f ∧
      b.drop (off + 4 + f.length) = rest ∧ off + 4 + f.length ≤ b.length := by
  have hlen := congrArg List.length h
  simp only [List.length_drop, List.length_append, frame, bigEndian_length] at hlen
  have hdrop : b.drop (off + 4) = f ++ rest := by
    rw [← List.drop_drop, h, frame, List.append_assoc, List.drop_left' (bigEndian_length _)]
  refine ⟨?_, ?_, ?_, by omega⟩
  · have hfour : (b.drop off).take 4 = bigEndian (UInt32.ofNat f.length) := by
      rw [h, frame, List.append_assoc, List.take_left' (bigEndian_length _)]
    rw [announced, hv off 4 (by omega), hfour, ofBigEndian_bigEndian, UInt32.toNat_ofNat',
      Nat.mod_eq_of_lt hf]
  · rw [hv (off + 4) f.length (by omega), hdrop, List.take_left]
  · rw [← List.drop_drop, hdrop, List.drop_left]

/-- A length and as many bytes behind it are a framed field. -/
theorem frame_of_inside (hv : Views peek b) {off : ℕ} (h : next peek off ≤ b.length) :
    ∃ f, f.length = announced peek off ∧ b.drop off = frame f ++ b.drop (next peek off) := by
  have hnext : next peek off = off + 4 + announced peek off := rfl
  refine ⟨(b.drop (off + 4)).take (announced peek off), ?_, ?_⟩
  · rw [List.length_take, List.length_drop]
    omega
  · have hfour : ((b.drop off).take 4).length = 4 := by
      rw [List.length_take, List.length_drop]
      omega
    have hword : bigEndian (UInt32.ofNat (announced peek off)) = (b.drop off).take 4 := by
      rw [announced, hv off 4 (by omega), UInt32.ofNat_toNat, bigEndian_ofBigEndian _ hfour]
    have hfield : ((b.drop (off + 4)).take (announced peek off)).length = announced peek off := by
      rw [List.length_take, List.length_drop]
      omega
    calc b.drop off = (b.drop off).take 4 ++ b.drop (off + 4) := by
          rw [← List.drop_drop, List.take_append_drop]
      _ = (b.drop off).take 4 ++ ((b.drop (off + 4)).take (announced peek off)
            ++ b.drop (next peek off)) := by
          rw [hnext, ← List.drop_drop (i := announced peek off), List.take_append_drop]
      _ = frame ((b.drop (off + 4)).take (announced peek off)) ++ b.drop (next peek off) := by
          rw [frame, hfield, hword, List.append_assoc]

/-! ### All fields -/

/-- **All reads stay in the string iff the string goes on with that many framed fields.** -/
theorem inside_iff (hv : Views peek b) {k off : ℕ} :
    Inside b (places peek k off) ↔ ∃ fs rest : List _, fs.length = k ∧
      (∀ f ∈ fs, f.length < 2 ^ 32) ∧ b.drop off = (fs.map frame).flatten ++ rest := by
  induction k generalizing off with
  | zero =>
    refine iff_of_true (inside_nil b) ⟨[], b.drop off, rfl, ?_, rfl⟩
    intro f hf
    cases hf
  | succ k ih =>
    rw [places, inside_cons, inside_cons, ih]
    constructor
    · rintro ⟨-, hle, fs, rest, hlen, hfs, hdrop⟩
      obtain ⟨f, hf, hb⟩ := frame_of_inside hv hle
      refine ⟨f :: fs, rest, by rw [List.length_cons, hlen], ?_, ?_⟩
      · exact List.forall_mem_cons.mpr ⟨hf ▸ announced_lt peek off, hfs⟩
      · rw [hb, hdrop, List.map_cons, List.flatten_cons, List.append_assoc]
    · rintro ⟨fs, rest, hlen, hfs, hdrop⟩
      cases fs with
      | nil => cases hlen
      | cons f fs =>
        obtain ⟨hf, hfs⟩ := List.forall_mem_cons.mp hfs
        rw [List.map_cons, List.flatten_cons, List.append_assoc] at hdrop
        obtain ⟨ha, -, hgo, hle⟩ := announced_frame hv hf hdrop
        refine ⟨by show off + 4 ≤ _; omega, by show off + 4 + _ ≤ _; omega, fs, rest, ?_, hfs, ?_⟩
        · exact Nat.succ.inj hlen
        · rw [next, ha, hgo]

/-- **The framed fields of a string are decoded**, and the reads stop behind the last of them. -/
theorem decode_frames (hv : Views peek b) {fs : List (List UInt8)} {off : ℕ} {rest : List UInt8}
    (hfs : ∀ f ∈ fs, f.length < 2 ^ 32) (h : b.drop off = (fs.map frame).flatten ++ rest) :
    decode peek fs.length off = fs := by
  induction fs generalizing off with
  | nil => rfl
  | cons f fs ih =>
    obtain ⟨hf, hfs⟩ := List.forall_mem_cons.mp hfs
    rw [List.map_cons, List.flatten_cons, List.append_assoc] at h
    obtain ⟨ha, hp, hgo, -⟩ := announced_frame hv hf h
    show peek (off + 4) (announced peek off) :: decode peek fs.length (next peek off) = f :: fs
    rw [next, ha, hp, ih hfs hgo]

end Fields
