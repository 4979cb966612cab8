import Mathlib.Algebra.Group.Int.Defs
import Mathlib.Algebra.Group.Nat.Defs
import Mathlib.Data.List.DropRight
import Mathlib.Data.List.TakeWhile

/-!
# Formatted input and output

The streams of the C++ library, as far as programs use them that read words and numbers from a
string and write numbers into one, in the classic locale.

* `IStream` — an `istringstream`: what is left of its string, and its two failure flags;
* `IStream.word`, `IStream.integer` — the extractions `is >> string` and `is >> integer`; when
  the stream is not good on entry, the variable keeps its old value;
* `IStream.getline` — a line up to a delimiter, and `IStream.getlines_eq`, what a loop of such calls
  leaves;
* `decimal` — what `os << integer` writes, with a bound on its length;
* `IStream.word_of`, `IStream.integer_of` — what was written is read back;
* `IStream.words_all`, `IStream.words_unwords` — the words of a string, and of one word a line.
-/

namespace Streams

/-- `isspace`. -/
def isSpace (b : UInt8) : Bool := b == 32 || (9 ≤ b && b ≤ 13)

/-- `isdigit`. -/
def isDigit (b : UInt8) : Bool := 48 ≤ b && b ≤ 57

/-- An input stream over a string.  `badbit` is never set here. -/
structure IStream where
  rest : List UInt8 := []
  eof : Bool := false
  fail : Bool := false
  deriving DecidableEq

namespace IStream

/-- `is.good()`. -/
def good (s : IStream) : Bool := !s.eof && !s.fail

/-- `is.clear()`. -/
def clear (s : IStream) : IStream := { s with eof := false, fail := false }

/-- `is.str(bs)`: the flags stay as they are. -/
def str (s : IStream) (bs : List UInt8) : IStream := { s with rest := bs }

/-- `is.ignore(n)`. -/
def ignore (s : IStream) (n : ℕ) : IStream :=
  if s.good then { s with rest := s.rest.drop n, eof := decide (s.rest.length < n) }
  else { s with fail := true }

/-- Skip white space; extraction fails if nothing else is left. -/
def skipSpace (s : IStream) : IStream :=
  let rest := s.rest.dropWhile isSpace
  { rest, eof := rest.isEmpty, fail := rest.isEmpty }

/-- `is >> word`, where the variable holds `old`. -/
def word (s : IStream) (old : List UInt8) : List UInt8 × IStream :=
  if s.good then
    let t := s.skipSpace
    if t.good then
      let rest := t.rest.dropWhile (!isSpace ·)
      (t.rest.takeWhile (!isSpace ·), { rest, eof := rest.isEmpty })
    else (old, t)
  else (old, { s with fail := true })

/-- The sign and the digits at the beginning of a string, and what follows them. -/
def splitNumber (bs : List UInt8) : Bool × List UInt8 × List UInt8 :=
  let negative := bs.head? = some 45
  let unsigned := if bs.head? = some 43 ∨ bs.head? = some 45 then bs.tail else bs
  (negative, unsigned.takeWhile isDigit, unsigned.dropWhile isDigit)

/-- The value of a string of digits. -/
def ofDigits (ds : List UInt8) : ℕ := ds.foldl (fun n d => 10 * n + (d.toNat - 48)) 0

/-- `is >> n`, where `n` is a signed integer between `lo` and `hi` and holds `old`.  Without
digits it becomes zero, and a number out of range becomes the bound it lies beyond. -/
def integer (lo hi : ℤ) (s : IStream) (old : ℤ) : ℤ × IStream :=
  if s.good then
    let t := s.skipSpace
    if t.good then
      let (negative, ds, rest) := splitNumber t.rest
      let value : ℤ := if negative then -ofDigits ds else ofDigits ds
      (max lo (min hi value),
        { rest, eof := rest.isEmpty, fail := decide (ds = [] ∨ value < lo ∨ hi < value) })
    else (old, t)
  else (old, { s with fail := true })

/-- `is >> n` for an `int64_t`. -/
def int64 (s : IStream) (old : ℤ) : ℤ × IStream := s.integer (-2 ^ 63) (2 ^ 63 - 1) old

/-- `is >> n` for an `int`. -/
def int32 (s : IStream) (old : ℤ) : ℤ × IStream := s.integer (-2 ^ 31) (2 ^ 31 - 1) old

/-- `while (is >> word)`, for at most `n` words: the words, and the stream at the end. -/
def words : ℕ → IStream → List (List UInt8) × IStream
  | 0, s => ([], s)
  | n + 1, s =>
      let (w, s) := s.word []
      if s.fail then ([], s)
      else
        let (ws, s) := words n s
        (w :: ws, s)

/-- `getline(is, line, delim)`, where the variable holds `old`. -/
def getline (s : IStream) (delim : UInt8) (old : List UInt8) : List UInt8 × IStream :=
  if s.good then
    let line := s.rest.takeWhile (· ≠ delim)
    match s.rest.dropWhile (· ≠ delim) with
    | [] => (line, { rest := [], eof := true, fail := line.isEmpty })
    | _ :: rest => (line, { rest })
  else (old, { s with fail := true })

/-- `while (getline(is, line, delim));`, for at most `n` calls: what the variable holds then. -/
def getlines (delim : UInt8) : ℕ → IStream → List UInt8 → List UInt8
  | 0, _, old => old
  | n + 1, s, old =>
      let (line, s) := s.getline delim old
      if s.fail then line else getlines delim n s line

/-- `while (getline(is, line, delim))`, for at most `n` calls: the lines. -/
def readLines (delim : UInt8) : ℕ → IStream → List UInt8 → List (List UInt8)
  | 0, _, _ => []
  | n + 1, s, old =>
      let (line, s) := s.getline delim old
      if s.fail then [] else line :: readLines delim n s line

end IStream

/-- What `os << z` writes. -/
def decimal (z : ℤ) : List UInt8 :=
  (if z < 0 then [45] else []) ++ (Nat.toDigits 10 z.natAbs).map fun c => UInt8.ofNat c.toNat

theorem decimal_length_le {z : ℤ} {k : ℕ} (hk : 0 < k) (h : z.natAbs < 10 ^ k) :
    (decimal z).length ≤ k + 1 := by
  have hdigits : (Nat.toDigits 10 z.natAbs).length ≤ k :=
    (Nat.length_toDigits_le_iff (by decide) hk).mpr h
  simp only [decimal, List.length_append, List.length_map]
  split
  · simp only [List.length_singleton]
    omega
  · simp only [List.length_nil]
    omega

/-! ### Reading back what was written -/

theorem dropWhile_append_stop {α : Type} {p : α → Bool} {xs ys : List α} (hxs : ∀ x ∈ xs, p x)
    (hys : ∀ y ∈ ys.head?, p y = false) : (xs ++ ys).dropWhile p = ys := by
  rw [List.dropWhile_append_of_pos hxs]
  cases ys with
  | nil => rfl
  | cons y ys => rw [List.dropWhile_cons_of_neg (by rw [hys y rfl]; decide)]

theorem takeWhile_append_stop {α : Type} {p : α → Bool} {xs ys : List α} (hxs : ∀ x ∈ xs, p x)
    (hys : ∀ y ∈ ys.head?, p y = false) : (xs ++ ys).takeWhile p = xs := by
  rw [List.takeWhile_append_of_pos hxs]
  cases ys with
  | nil => exact List.append_nil xs
  | cons y ys =>
    rw [List.takeWhile_cons_of_neg (by rw [hys y rfl]; decide)]
    exact List.append_nil xs

theorem mem_of_mem_head?_append {α : Type} {xs ys : List α} (h : xs ≠ []) {x : α}
    (hx : x ∈ (xs ++ ys).head?) : x ∈ xs := by
  cases xs with
  | nil => exact absurd rfl h
  | cons y xs =>
    cases hx
    exact List.mem_cons_self

namespace IStream

/-- White space before something else is skipped. -/
theorem skipSpace_of {s : IStream} {spaces x : List UInt8} (h : s.rest = spaces ++ x)
    (hspaces : ∀ b ∈ spaces, isSpace b) (hx : x ≠ []) (hhead : ∀ b ∈ x.head?, isSpace b = false) :
    s.skipSpace = { rest := x } := by
  have hempty : x.isEmpty = false := by
    cases x with
    | nil => exact absurd rfl hx
    | cons b x => rfl
  rw [skipSpace, h, dropWhile_append_stop hspaces hhead, hempty]

/-- **A word** that is followed by white space or by nothing. -/
theorem word_of {s : IStream} (hgood : s.good) {spaces w tail : List UInt8}
    (h : s.rest = spaces ++ (w ++ tail)) (hspaces : ∀ b ∈ spaces, isSpace b) (hne : w ≠ [])
    (hw : ∀ b ∈ w, isSpace b = false) (htail : ∀ b ∈ tail.head?, isSpace b) (old : List UInt8) :
    s.word old = (w, { rest := tail, eof := tail.isEmpty }) := by
  have hskip : s.skipSpace = { rest := w ++ tail } := by
    refine skipSpace_of h hspaces (List.append_ne_nil_of_left_ne_nil hne tail) fun b hb => ?_
    exact hw b (mem_of_mem_head?_append hne hb)
  have hstop : ∀ b ∈ tail.head?, (!isSpace b) = false := fun b hb => by rw [htail b hb]; rfl
  have hgo : ∀ b ∈ w, (!isSpace b) = true := fun b hb => by rw [hw b hb]; rfl
  rw [word, if_pos hgood, hskip, if_pos (by rfl)]
  dsimp only
  rw [dropWhile_append_stop hgo hstop, takeWhile_append_stop hgo hstop]

/-- Nothing but white space. -/
theorem word_none {s : IStream} (h : ∀ b ∈ s.rest, isSpace b) (old : List UInt8) :
    (s.word old).1 = old ∧ (s.word old).2.fail = true := by
  by_cases hgood : s.good
  · have hskip : s.skipSpace = { rest := [], eof := true, fail := true } := by
      have hdrop : s.rest.dropWhile isSpace = [] := List.dropWhile_eq_nil_iff.mpr h
      rw [skipSpace, hdrop]
      rfl
    rw [word, if_pos hgood, hskip]
    exact ⟨rfl, rfl⟩
  · rw [word, if_neg hgood]
    exact ⟨rfl, rfl⟩

end IStream

/-- What `os << n` writes for a natural number. -/
def digits (n : ℕ) : List UInt8 := (Nat.toDigits 10 n).map fun c => UInt8.ofNat c.toNat

theorem toNat_digit {c : Char} (h : c.isDigit) : (UInt8.ofNat c.toNat).toNat = c.toNat := by
  have hle : c.toNat ≤ 57 := (Char.isDigit_iff_toNat.mp h).2
  rw [UInt8.toNat_ofNat']
  omega

theorem isDigit_of_mem_digits {n : ℕ} {b : UInt8} (h : b ∈ digits n) : isDigit b = true := by
  obtain ⟨c, hc, rfl⟩ := List.mem_map.mp h
  have hdigit := Nat.isDigit_of_mem_toDigits (by decide) (by decide) hc
  have hval := toNat_digit hdigit
  have hbounds := Char.isDigit_iff_toNat.mp hdigit
  rw [isDigit, Bool.and_eq_true, decide_eq_true_iff, decide_eq_true_iff, UInt8.le_iff_toNat_le,
    UInt8.le_iff_toNat_le, hval]
  exact hbounds

theorem digits_ne_nil (n : ℕ) : digits n ≠ [] := by
  rw [digits, Ne, List.map_eq_nil_iff]
  exact Nat.toDigits_ne_nil

/-- **The digits of a number have its value.** -/
theorem ofDigits_digits (n : ℕ) : IStream.ofDigits (digits n) = n := by
  have hfold : ∀ (cs : List Char) (m : ℕ), (∀ c ∈ cs, c.isDigit) →
      (cs.map fun c => UInt8.ofNat c.toNat).foldl (fun n d => 10 * n + (d.toNat - 48)) m
        = Nat.ofDigitChars 10 cs m := by
    intro cs
    induction cs with
    | nil => exact fun m _ => rfl
    | cons c cs ih =>
      intro m hcs
      rw [List.map_cons, List.foldl_cons, Nat.ofDigitChars_cons,
        toNat_digit (hcs c List.mem_cons_self)]
      exact ih _ fun d hd => hcs d (List.mem_cons_of_mem c hd)
  rw [IStream.ofDigits, digits,
    hfold _ _ fun c hc => Nat.isDigit_of_mem_toDigits (by decide) (by decide) hc]
  exact Nat.ofDigitChars_ten_toDigits

theorem decimal_eq (z : ℤ) : decimal z = (if z < 0 then [45] else []) ++ digits z.natAbs := rfl

theorem decimal_ne_nil (z : ℤ) : decimal z ≠ [] := by
  rw [decimal_eq]
  exact List.append_ne_nil_of_right_ne_nil _ (digits_ne_nil _)

/-- A sign or a digit. -/
theorem mem_decimal {z : ℤ} {b : UInt8} (h : b ∈ decimal z) : b = 45 ∨ isDigit b = true := by
  rw [decimal_eq, List.mem_append] at h
  rcases h with h | h
  · split at h
    · exact .inl (List.mem_singleton.mp h)
    · cases h
  · exact .inr (isDigit_of_mem_digits h)

theorem isSpace_of_isDigit {b : UInt8} (h : isDigit b = true) : isSpace b = false := by
  simp only [isDigit, Bool.and_eq_true, decide_eq_true_iff, UInt8.le_iff_toNat_le] at h
  have hlow : 48 ≤ b.toNat := h.1
  have h32 : (b == 32) = false := by
    rw [beq_eq_false_iff_ne]
    rintro rfl
    exact absurd hlow (by decide)
  have h13 : decide (b ≤ 13) = false := by
    rw [decide_eq_false_iff_not, UInt8.le_iff_toNat_le]
    exact fun hle => absurd (le_trans hlow hle) (by decide)
  rw [isSpace, h32, h13, Bool.and_false, Bool.or_false]

/-- What is written for a number is one word. -/
theorem isSpace_of_mem_decimal {z : ℤ} {b : UInt8} (h : b ∈ decimal z) : isSpace b = false := by
  rcases mem_decimal h with rfl | h
  · rfl
  · exact isSpace_of_isDigit h

namespace IStream

theorem splitNumber_decimal (z : ℤ) {tail : List UInt8}
    (htail : ∀ b ∈ tail.head?, isDigit b = false) :
    splitNumber (decimal z ++ tail) = (decide (z < 0), digits z.natAbs, tail) := by
  have htake : (digits z.natAbs ++ tail).takeWhile isDigit = digits z.natAbs :=
    takeWhile_append_stop (fun b hb => isDigit_of_mem_digits hb) htail
  have hdrop : (digits z.natAbs ++ tail).dropWhile isDigit = tail :=
    dropWhile_append_stop (fun b hb => isDigit_of_mem_digits hb) htail
  by_cases hz : z < 0
  · have hd : decimal z ++ tail = 45 :: (digits z.natAbs ++ tail) := by
      rw [decimal_eq, if_pos hz]
      rfl
    rw [hd, splitNumber]
    simp only [List.head?_cons, List.tail_cons, or_true, if_true, htake, hdrop, decide_true, hz]
  · obtain ⟨b, ds, hds⟩ := List.exists_cons_of_ne_nil (digits_ne_nil z.natAbs)
    have hd : decimal z ++ tail = digits z.natAbs ++ tail := by
      rw [decimal_eq, if_neg hz]
      rfl
    have hb : isDigit b = true := isDigit_of_mem_digits (by rw [hds]; exact List.mem_cons_self)
    have hplus : b ≠ 43 := by rintro rfl; cases hb
    have hminus : b ≠ 45 := by rintro rfl; cases hb
    have hhead : (digits z.natAbs ++ tail).head? = some b := by rw [hds]; rfl
    rw [hd, splitNumber]
    simp only [hhead, Option.some.injEq, hplus, hminus, or_self, if_false, htake, hdrop, hz,
      decide_false]

/-- **A number that was written is read back.** -/
theorem integer_of {lo hi z : ℤ} (hlo : lo ≤ z) (hhi : z ≤ hi) {s : IStream} (hgood : s.good)
    {spaces tail : List UInt8} (h : s.rest = spaces ++ (decimal z ++ tail))
    (hspaces : ∀ b ∈ spaces, isSpace b) (htail : ∀ b ∈ tail.head?, isDigit b = false) (old : ℤ) :
    s.integer lo hi old = (z, { rest := tail, eof := tail.isEmpty }) := by
  have hskip : s.skipSpace = { rest := decimal z ++ tail } := by
    refine skipSpace_of h hspaces (List.append_ne_nil_of_left_ne_nil (decimal_ne_nil z) tail)
      fun b hb => ?_
    exact isSpace_of_mem_decimal (mem_of_mem_head?_append (decimal_ne_nil z) hb)
  have hvalue : (if decide (z < 0) = true then -(z.natAbs : ℤ) else z.natAbs) = z := by
    by_cases hz : z < 0
    · rw [if_pos (decide_eq_true hz)]
      omega
    · rw [if_neg (by simpa using hz)]
      omega
  have hfail : decide (digits z.natAbs = [] ∨ z < lo ∨ hi < z) = false := by
    rw [decide_eq_false_iff_not]
    rintro (hnil | hlow | hhigh)
    · exact digits_ne_nil _ hnil
    · omega
    · omega
  rw [integer, if_pos hgood, hskip, if_pos (by rfl)]
  dsimp only
  rw [splitNumber_decimal z htail]
  dsimp only
  rw [ofDigits_digits, hvalue, hfail, Int.min_eq_right hhi, Int.max_eq_right hlo]

end IStream

/-! ### All words of a string -/

/-- The bytes of a string that are not white space. -/
def printable (bs : List UInt8) : List UInt8 := bs.filter (!isSpace ·)

theorem printable_append (a b : List UInt8) : printable (a ++ b) = printable a ++ printable b :=
  List.filter_append a b

theorem printable_of_word {w : List UInt8} (h : ∀ b ∈ w, isSpace b = false) : printable w = w :=
  List.filter_eq_self.mpr fun b hb => by rw [h b hb]; rfl

theorem printable_eq_nil {bs : List UInt8} : printable bs = [] ↔ ∀ b ∈ bs, isSpace b := by
  rw [printable, List.filter_eq_nil_iff]
  refine forall₂_congr fun b _ => ?_
  cases isSpace b <;> decide

/-- A word, as it is tested. -/
theorem word_iff_all {bs : List UInt8} :
    bs.all (!isSpace ·) = true ↔ ∀ b ∈ bs, isSpace b = false := by
  simp only [List.all_eq_true, Bool.not_eq_true']

/-- The text that puts each word on a line of its own. -/
def unwords (ws : List (List UInt8)) : List UInt8 := ws.flatMap fun w => w ++ [10]

/-- **A text begins with a word**, or has none. -/
theorem text_cases (s : List UInt8) :
    (∀ b ∈ s, isSpace b) ∨
      ∃ spaces w tail, s = spaces ++ (w ++ tail) ∧ (∀ b ∈ spaces, isSpace b) ∧ w ≠ [] ∧
        (∀ b ∈ w, isSpace b = false) ∧ ∀ b ∈ tail.head?, isSpace b := by
  by_cases hnil : s.dropWhile isSpace = []
  · exact .inl (List.dropWhile_eq_nil_iff.mp hnil)
  · right
    obtain ⟨b, rest, hb⟩ := List.exists_cons_of_ne_nil hnil
    have hstop : isSpace b = false := by
      have h := List.head?_dropWhile_not isSpace s
      rw [hb] at h
      exact Bool.eq_false_iff.mpr (by simpa using h)
    refine ⟨s.takeWhile isSpace, (b :: rest).takeWhile (!isSpace ·),
      (b :: rest).dropWhile (!isSpace ·), ?_, fun x hx => List.mem_takeWhile_imp hx, ?_, ?_, ?_⟩
    · rw [List.takeWhile_append_dropWhile, ← hb, List.takeWhile_append_dropWhile]
    · rw [List.takeWhile_cons_of_pos (by rw [hstop]; rfl)]
      exact List.cons_ne_nil _ _
    · intro x hx
      have h := List.mem_takeWhile_imp hx
      exact Bool.eq_false_iff.mpr (by simpa using h)
    · intro x hx
      have h := List.head?_dropWhile_not (!isSpace ·) (b :: rest)
      rw [hx] at h
      simpa using h

namespace IStream

/-- **One extraction**: it fails where only white space is left, and takes a word otherwise. -/
theorem word_cases {s : IStream} (hgood : s.good) (old : List UInt8) :
    ((∀ b ∈ s.rest, isSpace b) ∧ (s.word old).2.fail = true) ∨
      ∃ spaces w tail, s.rest = spaces ++ (w ++ tail) ∧ (∀ b ∈ spaces, isSpace b) ∧ w ≠ [] ∧
        (∀ b ∈ w, isSpace b = false) ∧
        s.word old = (w, { rest := tail, eof := tail.isEmpty }) := by
  rcases text_cases s.rest with hall | ⟨spaces, w, tail, hsplit, hspaces, hne, hw, htail⟩
  · exact .inl ⟨hall, (word_none hall old).2⟩
  · exact .inr ⟨spaces, w, tail, hsplit, hspaces, hne, hw,
      word_of hgood hsplit hspaces hne hw htail old⟩

/-- A stream that is not good has no words. -/
theorem words_of_not_good {s : IStream} (h : s.good = false) (n : ℕ) :
    (s.words n).1 = [] ∧ (s.words n).2.good = false := by
  cases n with
  | zero => exact ⟨rfl, h⟩
  | succ n =>
    have hword : s.word [] = ([], { s with fail := true }) := by
      rw [word, if_neg (by rw [h]; decide)]
    rw [words, hword]
    exact ⟨rfl, Bool.and_false _⟩

/-- A word first, and then the others. -/
theorem words_succ {s t : IStream} {w : List UInt8} (h : s.word [] = (w, t)) (hfail : t.fail = false)
    (n : ℕ) : s.words (n + 1) = (w :: (t.words n).1, (t.words n).2) := by
  rw [words, h]
  dsimp only
  rw [hfail]
  rfl

theorem words_stop {s : IStream} (h : (s.word []).2.fail = true) (n : ℕ) :
    s.words (n + 1) = ([], (s.word []).2) := by
  rw [words]
  dsimp only
  rw [if_pos h]

/-- **All words** of a string together are its bytes without white space, and the stream is not good
any more. -/
theorem words_all {s : IStream} (h : s.good ∨ s.rest = []) {n : ℕ} (hn : s.rest.length < n) :
    (s.words n).1.flatten = printable s.rest ∧ (s.words n).2.good = false := by
  induction n generalizing s with
  | zero => omega
  | succ n ih =>
    by_cases hgood : s.good
    · rcases word_cases hgood [] with
        ⟨hspaces, hfail⟩ | ⟨spaces, w, tail, hrest, hspaces, hne, hw, hword⟩
      · rw [words_stop hfail, printable_eq_nil.mpr hspaces]
        refine ⟨rfl, ?_⟩
        rw [good, hfail]
        exact Bool.and_false _
      · have hlen : tail.length < n := by
          have hpos := List.length_pos_iff.mpr hne
          rw [hrest, List.length_append, List.length_append] at hn
          omega
        have hnext : ({ rest := tail, eof := tail.isEmpty } : IStream).good ∨ tail = [] := by
          cases tail with
          | nil => exact .inr rfl
          | cons b tail => exact .inl rfl
        obtain ⟨hflat, hend⟩ := ih hnext hlen
        rw [words_succ hword rfl, hrest, printable_append, printable_append,
          printable_eq_nil.mpr hspaces, printable_of_word hw]
        exact ⟨congrArg (w ++ ·) hflat, hend⟩
    · have hbad : s.good = false := Bool.eq_false_iff.mpr hgood
      obtain ⟨hnil, hend⟩ := words_of_not_good hbad (n + 1)
      rw [hnil, h.resolve_left hgood]
      exact ⟨rfl, hend⟩

end IStream

theorem printable_unwords {ws : List (List UInt8)} (h : ∀ w ∈ ws, ∀ b ∈ w, isSpace b = false) :
    printable (unwords ws) = ws.flatten := by
  induction ws with
  | nil => rfl
  | cons w ws ih =>
    have hrest := ih fun w' hw' => h w' (List.mem_cons_of_mem w hw')
    have hsplit : unwords (w :: ws) = w ++ ([10] ++ unwords ws) := by
      rw [unwords, List.flatMap_cons, List.append_assoc]
      rfl
    rw [hsplit, printable_append, printable_append, hrest,
      printable_of_word (h w List.mem_cons_self)]
    rfl

/-- The lines of a text can be put together from their other ends. -/
theorem newline_unwords (ws : List (List UInt8)) :
    [10] ++ unwords ws = (ws.flatMap fun w => 10 :: w) ++ [10] := by
  induction ws with
  | nil => rfl
  | cons w ws ih =>
    have hsplit : unwords (w :: ws) = w ++ ([10] ++ unwords ws) := by
      rw [unwords, List.flatMap_cons, List.append_assoc]
      rfl
    rw [hsplit, ih, List.flatMap_cons]
    simp only [List.append_assoc, List.cons_append, List.nil_append]

/-- **The words of such a text**, also without its last newline. -/
theorem IStream.words_unwords {ws : List (List UInt8)} (hne : ∀ w ∈ ws, w ≠ [])
    (hws : ∀ w ∈ ws, ∀ b ∈ w, isSpace b = false) {spaces e : List UInt8}
    (hspaces : ∀ b ∈ spaces, isSpace b) (he : e = [] ∨ e = [10]) {s : IStream} (hgood : s.good)
    (h : s.rest ++ e = spaces ++ unwords ws) {n : ℕ} (hn : s.rest.length < n) :
    (s.words n).1 = ws := by
  induction ws generalizing spaces s n with
  | nil =>
    obtain ⟨n, rfl⟩ := Nat.exists_eq_add_of_lt hn
    have hrest : ∀ b ∈ s.rest, isSpace b := by
      intro b hb
      have hmem : b ∈ spaces ++ unwords [] := h ▸ List.mem_append_left e hb
      rcases List.mem_append.mp hmem with hb | hb
      · exact hspaces b hb
      · cases hb
    rw [words_stop (word_none hrest []).2]
  | cons w ws ih =>
    have hw : w ≠ [] := hne w List.mem_cons_self
    have hword : ∀ b ∈ w, isSpace b = false := hws w List.mem_cons_self
    -- what is left of the text behind its first word
    obtain ⟨tail, hrest, htail⟩ : ∃ tail, s.rest = spaces ++ (w ++ tail) ∧
        tail ++ e = [10] ++ unwords ws := by
      have hsplit : s.rest ++ e = spaces ++ (w ++ ([10] ++ unwords ws)) := by
        rw [h, unwords, List.flatMap_cons, List.append_assoc w]
        rfl
      rcases he with rfl | rfl
      · exact ⟨_, (List.append_nil _).symm.trans hsplit, List.append_nil _⟩
      · rw [newline_unwords, ← List.append_assoc, ← List.append_assoc] at hsplit
        refine ⟨ws.flatMap fun w => 10 :: w, ?_, (newline_unwords ws).symm⟩
        rw [List.append_cancel_right hsplit, List.append_assoc]
    have hhead : ∀ b ∈ tail.head?, isSpace b := by
      cases tail with
      | nil => exact fun b hb => nomatch hb
      | cons x tail =>
        obtain ⟨rfl, -⟩ := List.cons.inj htail
        intro b hb
        cases hb
        rfl
    have hfirst := word_of hgood hrest hspaces hw hword hhead []
    obtain ⟨n, rfl⟩ := Nat.exists_eq_succ_of_ne_zero (Nat.ne_zero_of_lt hn)
    have hlen : tail.length < n := by
      have hpos := List.length_pos_iff.mpr hw
      rw [hrest, List.length_append, List.length_append] at hn
      omega
    rw [words_succ hfirst rfl]
    refine congrArg (w :: ·) ?_
    cases tail with
    | nil =>
      -- the last newline is missing
      have hnil : ws = [] := by
        cases ws with
        | nil => rfl
        | cons w' ws =>
          have hlen' := congrArg List.length htail
          have hlt : e.length ≤ 1 := by rcases he with rfl | rfl <;> decide
          rw [unwords, List.flatMap_cons] at hlen'
          simp only [List.length_append, List.length_cons, List.length_nil] at hlen' hlt
          omega
      rw [hnil]
      have hend : ({ rest := [], eof := true } : IStream).good = false := rfl
      exact (words_of_not_good hend n).1
    | cons x tail =>
      have hspace : ∀ b ∈ [(10 : UInt8)], isSpace b := List.all_eq_true.mp rfl
      have hgo : ({ rest := x :: tail } : IStream).good = true := rfl
      exact ih (fun w' hw' => hne w' (List.mem_cons_of_mem w hw'))
        (fun w' hw' => hws w' (List.mem_cons_of_mem w hw')) hspace hgo htail hlen

theorem unwords_append (ws vs : List (List UInt8)) : unwords (ws ++ vs) = unwords ws ++ unwords vs :=
  List.flatMap_append

/-- White space at the end of such a text is its last newline. -/
theorem spaces_of_unwords {ws : List (List UInt8)} (hne : ∀ w ∈ ws, w ≠ [])
    (hws : ∀ w ∈ ws, ∀ b ∈ w, isSpace b = false) {p rest : List UInt8}
    (h : p ++ rest = unwords ws) (hrest : ∀ b ∈ rest, isSpace b) : rest = [] ∨ rest = [10] := by
  rcases List.eq_nil_or_concat ws with rfl | ⟨vs, w, rfl⟩
  · exact .inl (List.append_eq_nil_iff.mp h).2
  · have hmem : w ∈ vs.concat w := by simp
    have hsplit : unwords (vs.concat w) = (unwords vs ++ w) ++ [10] := by
      rw [List.concat_eq_append, unwords_append, List.append_assoc]
      simp [unwords]
    rcases List.eq_nil_or_concat rest with rfl | ⟨rest', b, rfl⟩
    · exact .inl rfl
    · right
      rw [hsplit, List.concat_eq_append, ← List.append_assoc] at h
      obtain ⟨hinit, hlast⟩ := List.append_inj' h rfl
      rcases List.eq_nil_or_concat rest' with rfl | ⟨rest'', b', rfl⟩
      · exact hlast
      · -- the byte before would be the last one of a word
        exfalso
        obtain ⟨v, x, hw⟩ := (List.eq_nil_or_concat w).resolve_left (hne w hmem)
        rw [hw, List.concat_eq_append, List.concat_eq_append, ← List.append_assoc,
          ← List.append_assoc] at hinit
        obtain ⟨-, hx⟩ := List.append_inj' hinit rfl
        have hspace : isSpace b' = true := hrest b' (by simp)
        have hword : isSpace x = false := hws w hmem x (by rw [hw]; simp)
        rw [List.singleton_inj.mp hx, hword] at hspace
        cases hspace

/-! ### Lines -/

namespace IStream

/-- A line with its delimiter. -/
theorem getline_of_mem {delim : UInt8} {line : List UInt8} (h : delim ∉ line) (rest old : List UInt8) :
    ({ rest := line ++ delim :: rest } : IStream).getline delim old = (line, { rest }) := by
  have hgo : ∀ b ∈ line, decide (b ≠ delim) = true :=
    fun b hb => decide_eq_true fun heq => h (heq ▸ hb)
  have hstop : ∀ b ∈ (delim :: rest).head?, decide (b ≠ delim) = false := by
    intro b hb
    cases hb
    exact decide_eq_false (not_not.mpr rfl)
  rw [getline, if_pos (by rfl)]
  dsimp only
  rw [takeWhile_append_stop hgo hstop, dropWhile_append_stop hgo hstop]

/-- The last line. -/
theorem getline_of_not_mem {delim : UInt8} {line : List UInt8} (h : delim ∉ line)
    (old : List UInt8) : ({ rest := line } : IStream).getline delim old
      = (line, { rest := [], eof := true, fail := line.isEmpty }) := by
  have hgo : ∀ b ∈ line, decide (b ≠ delim) = true :=
    fun b hb => decide_eq_true fun heq => h (heq ▸ hb)
  rw [getline, if_pos (by rfl)]
  dsimp only
  rw [List.takeWhile_eq_self_iff.mpr hgo, List.dropWhile_eq_nil_iff.mpr hgo]

/-- The text behind the last delimiter stands behind every one. -/
theorem rtakeWhile_append_cons (delim : UInt8) (line rest : List UInt8) :
    (line ++ delim :: rest).rtakeWhile (· ≠ delim) = rest.rtakeWhile (· ≠ delim) := by
  have hstop : (delim :: line.reverse).takeWhile (fun b => decide (b ≠ delim)) = [] :=
    List.takeWhile_cons_of_neg (by simp)
  rw [List.rtakeWhile, List.rtakeWhile, List.reverse_append, List.reverse_cons, List.append_assoc,
    List.singleton_append, List.takeWhile_append, hstop, List.append_nil]
  refine congrArg List.reverse ?_
  split
  · rename_i hall
    exact ((List.takeWhile_prefix _).eq_of_length hall).symm
  · rfl

/-- **A call that fails at its entry leaves the variable as it is**: what the loop leaves there is the
text behind the last delimiter. -/
theorem getlines_eq (delim : UInt8) {n : ℕ} {bs : List UInt8} (hn : bs.length + 2 ≤ n)
    (old : List UInt8) :
    getlines delim n { rest := bs } old = bs.rtakeWhile (· ≠ delim) := by
  induction n generalizing bs old with
  | zero => exact absurd hn (Nat.not_succ_le_zero _)
  | succ n ih =>
    rw [getlines]
    by_cases hmem : delim ∈ bs
    · obtain ⟨line, rest, rfl, hline⟩ := List.eq_append_cons_of_mem hmem
      have hlen : rest.length + 2 ≤ n := by
        rw [List.length_append, List.length_cons] at hn
        omega
      rw [getline_of_mem hline, rtakeWhile_append_cons]
      exact ih hlen line
    · have hall : bs.rtakeWhile (· ≠ delim) = bs := by
        rw [List.rtakeWhile_eq_self_iff]
        exact fun b hb => decide_eq_true fun heq => hmem (heq ▸ hb)
      rw [getline_of_not_mem hmem, hall]
      dsimp only
      split
      · rfl
      · -- the next call finds the end of the string
        obtain ⟨n, rfl⟩ := Nat.exists_eq_add_of_le' (show 1 ≤ n by omega)
        rfl

end IStream

example : decimal (-120) = [45, 49, 50, 48] := by decide

example : (IStream.word { rest := [32, 65, 66, 10, 67] } []).1 = [65, 66] := by decide

example : IStream.getlines 47 9 { rest := [47, 65, 47, 66] } [] = [66] := by decide

end Streams
