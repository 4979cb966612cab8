import Cybrg.Library.Octets

/-!
# Constants, exceptions and byte strings of the protocol

The constants of `protocol.h` and `rsacrypto.cpp`, the exception classes of `exception.h` with
the message each one is thrown with, and the types of the byte strings that the rest of the
development passes around: `Bytes` for strings of any length, `Block` and `Tag` for the strings
whose length OpenSSL fixes.
-/

namespace Cybrg

abbrev Byte := UInt8

abbrev Bytes := List Byte

/-- A string constant of the program. -/
def text (s : String) : Bytes := s.toList.map fun c => UInt8.ofNat c.toNat

/-! ### `protocol.h` -/

/-- `BUFFER_SIZE`, 4 KiB: every buffer of the program, and the largest secure packet. -/
def bufferSize : ℕ := 4096

/-- `MAX_FILE_SIZE`, 4 GiB. -/
def maxFileSize : ℤ := 4294967296

/-- `HMAC_KEY_LEN`. -/
def hmacKeyLen : ℕ := 32

/-- `AES128_KEY_LEN`, used for initialisation vectors too. -/
def aes128KeyLen : ℕ := 16

/-- The status numbers of a reply. -/
inductive Status where
  | ok
  | badFile
  | serverError
  | syntaxError
  | commandNotImplemented
  | badSequenceOfCommands
  deriving DecidableEq, Repr

/-- `OK`, `BAD_FILE`, ..., as numbers. -/
def Status.code : Status → ℕ
  | ok => 200
  | badFile => 452
  | serverError => 500
  | syntaxError => 501
  | commandNotImplemented => 502
  | badSequenceOfCommands => 503

/-! ### `exception.h` -/

/-- The exceptions that the modelled functions throw, with their messages. -/
inductive Ex where
  | exSend (msg : String)
  | exRecv (msg : String)
  | exTooBig (msg : String)
  | exNonce (msg : String)
  | exBadHMAC (msg : String)
  | exBadProtocol (msg : String)
  | exBadSeqNum (msg : String)
  | exSeqNumOverflow (msg : String)
  | exCertificate (msg : String)
  | exSignature (msg : String)
  | exCrypto (msg : String)
  | exCryptoComputation (msg : String)
  | exRandom (msg : String)
  /-- No exception: a failed `assert` ends the process, and nothing catches it. -/
  | aborted (msg : String)
  deriving DecidableEq, Repr

/-! ### Strings of a length that OpenSSL fixes -/

/-- An AES-128 key, register or block. -/
abbrev Block := List.Vector Byte 16

/-- An HMAC-SHA256 tag; the authentication key has the same length. -/
abbrev Tag := List.Vector Byte 32

/-- The four bytes of a `Nonce`. -/
abbrev Nonce := List.Vector Byte 4

/-! ### Memory that the program did not write -/

/-- What lies in memory where the program has not written: next to the bytes of a string and in
variables that are not initialised.  The first argument tells the places apart. -/
abbrev Memory := ℕ → ℕ → Byte

end Cybrg
