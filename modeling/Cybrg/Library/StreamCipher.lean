import Mathlib.Data.List.Basic

/-!
# Byte-wise cipher feedback

A cipher in one-byte feedback mode keeps a register.  The register gives one keystream byte;
the ciphertext byte is the plaintext byte combined with it, and is then shifted into the
register.  Since the ciphertext drives the register on both sides, the receiver's register
follows the sender's.

The mode is developed for any register type `R`, any keystream function `ks : R → UInt8` and
any shift `sh : R → UInt8 → R`:

* `encrypt` / `decrypt` — a context run over a string, with the register it ends in;
* `decrypt_encrypt`, `encrypt_decrypt` — started from one register, the two invert each other byte
  by byte and both sides end in the same register;
* `encrypt_append` — a context goes on where it stopped;
* `decrypt_getElem?` — a byte is masked with the keystream of the ciphertext before it.
-/

namespace StreamCipher

section

variable {R : Type} (ks : R → UInt8) (sh : R → UInt8 → R)

/-- Run an encryption context over a plaintext. -/
def encrypt : R → List UInt8 → List UInt8 × R
  | r, [] => ([], r)
  | r, p :: ps =>
      let c := p ^^^ ks r
      let rest := encrypt (sh r c) ps
      (c :: rest.1, rest.2)

/-- Run a decryption context over a ciphertext. -/
def decrypt : R → List UInt8 → List UInt8 × R
  | r, [] => ([], r)
  | r, c :: cs =>
      let rest := decrypt (sh r c) cs
      ((c ^^^ ks r) :: rest.1, rest.2)

@[simp] theorem encrypt_length (r : R) (ps : List UInt8) :
    (encrypt ks sh r ps).1.length = ps.length := by
  induction ps generalizing r with
  | nil => rfl
  | cons p ps ih => simp [encrypt, ih]

@[simp] theorem decrypt_length (r : R) (cs : List UInt8) :
    (decrypt ks sh r cs).1.length = cs.length := by
  induction cs generalizing r with
  | nil => rfl
  | cons c cs ih => simp [decrypt, ih]

/-- **Decryption inverts encryption**, and leaves the register where encryption left it. -/
theorem decrypt_encrypt (r : R) (ps : List UInt8) :
    decrypt ks sh r (encrypt ks sh r ps).1 = (ps, (encrypt ks sh r ps).2) := by
  induction ps generalizing r with
  | nil => rfl
  | cons p ps ih =>
    simp only [encrypt, decrypt, ih]
    rw [UInt8.xor_assoc, UInt8.xor_self, UInt8.xor_zero]

/-- **Encryption inverts decryption**, and leaves the register where decryption left it. -/
theorem encrypt_decrypt (r : R) (cs : List UInt8) :
    encrypt ks sh r (decrypt ks sh r cs).1 = (cs, (decrypt ks sh r cs).2) := by
  induction cs generalizing r with
  | nil => rfl
  | cons c cs ih =>
    have hc : c ^^^ ks r ^^^ ks r = c := by
      rw [UInt8.xor_assoc, UInt8.xor_self, UInt8.xor_zero]
    simp only [encrypt, decrypt, hc, ih]

/-- A context goes on where it stopped. -/
theorem encrypt_append (r : R) (ps qs : List UInt8) :
    encrypt ks sh r (ps ++ qs)
      = ((encrypt ks sh r ps).1 ++ (encrypt ks sh (encrypt ks sh r ps).2 qs).1,
          (encrypt ks sh (encrypt ks sh r ps).2 qs).2) := by
  induction ps generalizing r with
  | nil => rfl
  | cons p ps ih => simp only [List.cons_append, encrypt, ih]

theorem decrypt_append (r : R) (cs ds : List UInt8) :
    decrypt ks sh r (cs ++ ds)
      = ((decrypt ks sh r cs).1 ++ (decrypt ks sh (decrypt ks sh r cs).2 ds).1,
          (decrypt ks sh (decrypt ks sh r cs).2 ds).2) := by
  induction cs generalizing r with
  | nil => rfl
  | cons c cs ih => simp only [List.cons_append, decrypt, ih]

/-- **A byte is masked with the keystream of the ciphertext before it.** -/
theorem decrypt_getElem? (r : R) (cs : List UInt8) (i : ℕ) :
    (decrypt ks sh r cs).1[i]? = cs[i]?.map (· ^^^ ks ((cs.take i).foldl sh r)) := by
  induction cs generalizing r i with
  | nil => rfl
  | cons c cs ih =>
    cases i with
    | zero => rfl
    | succ i => simpa [decrypt] using ih (sh r c) i

end

/-! ### A constant keystream -/

section

variable {R : Type} (sh : R → UInt8 → R)

/-- Under a constant keystream byte every plaintext byte is masked with that byte. -/
theorem encrypt_const (b : UInt8) (r : R) (ps : List UInt8) :
    (encrypt (fun _ => b) sh r ps).1 = ps.map (· ^^^ b) := by
  induction ps generalizing r with
  | nil => rfl
  | cons p ps ih => simp [encrypt, ih]

end

end StreamCipher
