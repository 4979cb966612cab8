import Mathlib.Data.Vector.Basic
import Mathlib.Data.List.Basic
import Mathlib.Tactic.Ring

/-!
# Words, byte orders and fixed-length byte strings

A 32-bit word has one image on the network, most significant byte first, and one image in
the memory of a host, which depends on the byte order of that host.  This file relates the
two, for either order:

* `bigEndian` / `ofBigEndian` — the network image and its inverse;
* `ByteOrder.store` / `ByteOrder.load` — the image of a word in memory and its inverse;
* `hton` / `ntoh` — the conversions of a word, with `store_hton`: whatever the order, the
  memory image of a converted word is the network image of the word;
* `frame` — a string behind its length, with `frame_append_inj`: a sequence of framed strings can
  be cut in one way only;
* `fixed` — the first `n` bytes of a string as a string of length exactly `n`.
-/

namespace Octets

/-- The byte order of a host. -/
inductive ByteOrder where
  | little
  | big
  deriving DecidableEq, Repr

/-! ### The network image of a word -/

/-- The four bytes of a word, most significant first. -/
def bigEndian (x : UInt32) : List UInt8 :=
  [UInt8.ofNat (x.toNat / 2 ^ 24), UInt8.ofNat (x.toNat / 2 ^ 16),
    UInt8.ofNat (x.toNat / 2 ^ 8), UInt8.ofNat x.toNat]

/-- The word with the given four bytes, most significant first. -/
def ofBigEndian : List UInt8 → UInt32
  | [a, b, c, d] =>
      UInt32.ofNat (((a.toNat * 256 + b.toNat) * 256 + c.toNat) * 256 + d.toNat)
  | _ => 0

@[simp] theorem bigEndian_length (x : UInt32) : (bigEndian x).length = 4 := rfl

@[simp] theorem ofBigEndian_bigEndian (x : UInt32) : ofBigEndian (bigEndian x) = x := by
  apply UInt32.toNat_inj.mp
  have hx := x.toNat_lt
  simp only [bigEndian, ofBigEndian, UInt32.toNat_ofNat', UInt8.toNat_ofNat']
  omega

/-- The bytes of a number of four base-256 digits, most significant first. -/
theorem bigEndian_digits (a b c d : UInt8) :
    bigEndian (UInt32.ofNat (((a.toNat * 256 + b.toNat) * 256 + c.toNat) * 256 + d.toNat))
      = [a, b, c, d] := by
  have ha := a.toNat_lt
  have hb := b.toNat_lt
  have hc := c.toNat_lt
  have hd := d.toNat_lt
  simp only [bigEndian, List.cons.injEq, and_true, ← UInt8.toNat_inj, UInt8.toNat_ofNat',
    UInt32.toNat_ofNat']
  omega

theorem bigEndian_ofBigEndian (bs : List UInt8) (h : bs.length = 4) :
    bigEndian (ofBigEndian bs) = bs := by
  match bs, h with
  | [a, b, c, d], _ => exact bigEndian_digits a b c d

theorem bigEndian_injective : Function.Injective bigEndian :=
  Function.LeftInverse.injective ofBigEndian_bigEndian

/-! ### The image of a word in memory -/

namespace ByteOrder

/-- The four bytes of a word in the memory of a host. -/
def store : ByteOrder → UInt32 → List UInt8
  | little, x => (bigEndian x).reverse
  | big, x => bigEndian x

/-- The word held by four bytes of the memory of a host. -/
def load : ByteOrder → List UInt8 → UInt32
  | little, bs => ofBigEndian bs.reverse
  | big, bs => ofBigEndian bs

@[simp] theorem store_length (o : ByteOrder) (x : UInt32) : (o.store x).length = 4 := by
  cases o <;> simp [store]

@[simp] theorem load_store (o : ByteOrder) (x : UInt32) : o.load (o.store x) = x := by
  cases o <;> simp [store, load]

theorem store_load (o : ByteOrder) (bs : List UInt8) (h : bs.length = 4) :
    o.store (o.load bs) = bs := by
  cases o
  · rw [store, load, bigEndian_ofBigEndian _ (by simpa using h), List.reverse_reverse]
  · exact bigEndian_ofBigEndian bs h

theorem store_injective (o : ByteOrder) : Function.Injective o.store :=
  Function.LeftInverse.injective o.load_store

/-- Host to network: the word whose memory image is the network image of `x`. -/
def hton (o : ByteOrder) (x : UInt32) : UInt32 := o.load (bigEndian x)

/-- Network to host: the word whose network image is the memory image of `x`. -/
def ntoh (o : ByteOrder) (x : UInt32) : UInt32 := ofBigEndian (o.store x)

/-- **The memory image of a converted word does not depend on the host.** -/
@[simp] theorem store_hton (o : ByteOrder) (x : UInt32) : o.store (o.hton x) = bigEndian x :=
  o.store_load _ (bigEndian_length x)

/-- A word read from memory that holds a network image. -/
theorem ntoh_load (o : ByteOrder) (bs : List UInt8) (h : bs.length = 4) :
    o.ntoh (o.load bs) = ofBigEndian bs := by
  rw [ntoh, o.store_load bs h]

end ByteOrder

/-- Two hosts of different byte orders: a small word in the memory of one is no odd word and no
small word in the memory of the other. -/
theorem ByteOrder.store_cross {o o' : ByteOrder} (h : o ≠ o') {x y : UInt32}
    (hx : x.toNat < 2 ^ 16) (he : o.store x = o'.store y) :
    y.toNat % 2 = 0 ∧ (y.toNat < 2 ^ 16 → x = 0) := by
  have hrev : bigEndian x = (bigEndian y).reverse := by
    cases o <;> cases o' <;> simp only [store] at he
    · exact absurd rfl h
    · rw [← he, List.reverse_reverse]
    · exact he
    · exact absurd rfl h
  have hy := y.toNat_lt
  simp only [bigEndian, List.reverse_cons, List.reverse_nil, List.nil_append, List.cons_append,
    List.cons.injEq, and_true, ← UInt8.toNat_inj, UInt8.toNat_ofNat'] at hrev
  obtain ⟨h₁, h₂, h₃, h₄⟩ := hrev
  have hx₃ : x.toNat / 2 ^ 24 = 0 := by omega
  have hx₂ : x.toNat / 2 ^ 16 = 0 := by omega
  rw [hx₃] at h₁
  rw [hx₂] at h₂
  refine ⟨by omega, fun hsmall => ?_⟩
  have hy₁ : y.toNat / 2 ^ 24 = 0 := by omega
  have hy₂ : y.toNat / 2 ^ 16 = 0 := by omega
  rw [hy₂] at h₃
  rw [hy₁] at h₄
  rw [← UInt32.toNat_inj]
  show x.toNat = 0
  omega

/-! ### Small words -/

/-- Words of small numbers are equal only when the numbers are. -/
theorem ofNat_inj {a b : ℕ} (ha : a < 2 ^ 32) (hb : b < 2 ^ 32) :
    UInt32.ofNat a = UInt32.ofNat b ↔ a = b := by
  rw [← UInt32.toNat_inj, UInt32.toNat_ofNat', UInt32.toNat_ofNat', Nat.mod_eq_of_lt ha,
    Nat.mod_eq_of_lt hb]

/-! ### Length-prefixed strings -/

/-- A string with its length in front, as a word in network order. -/
def frame (bs : List UInt8) : List UInt8 := bigEndian (UInt32.ofNat bs.length) ++ bs

/-- **A framed string is recognised at the beginning of a longer one.** -/
theorem frame_append_inj {a b r s : List UInt8} (ha : a.length < 2 ^ 32)
    (hb : b.length < 2 ^ 32) (h : frame a ++ r = frame b ++ s) : a = b ∧ r = s := by
  simp only [frame, List.append_assoc] at h
  obtain ⟨hlen, h⟩ := List.append_inj h (by simp)
  have hab : a.length = b.length := (ofNat_inj ha hb).mp (bigEndian_injective hlen)
  exact List.append_inj h hab

/-! ### Byte strings of a fixed length -/

/-- The first `n` bytes of a string, filled up with zeros where the string is shorter. -/
def fixed (n : ℕ) (bs : List UInt8) : List.Vector UInt8 n :=
  ⟨(bs ++ List.replicate n 0).take n, by simp⟩

theorem toList_fixed {n : ℕ} (bs : List UInt8) (h : bs.length = n) :
    (fixed n bs).toList = bs := by
  subst h
  exact List.take_left

@[simp] theorem fixed_toList {n : ℕ} (v : List.Vector UInt8 n) : fixed n v.toList = v :=
  List.Vector.eq _ _ (toList_fixed v.toList v.toList_length)

end Octets
