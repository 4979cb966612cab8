import Cybrg.Library.Streams

/-!
# The tokens of a text

A text as its grammar sees it: the words between its white space, and the numbers among them.  The
extractions of a stream are told in these terms, whatever the text looks like.

* `tokens` — the words of a text;
* `Numeral`, `leading` — a word that is a number, and the number that any word begins with;
* `IStream.word_cons` — one extraction takes one token;
* `IStream.integer_nil`, `IStream.integer_cons` — what is read into an integer, from the tokens;
* `firstWord` — a first word with something behind it.
-/

namespace Streams

/-! ### Words -/

/-- The words of a text: what stands between its white space. -/
def tokens (s : List UInt8) : List (List UInt8) := (s.splitOnP isSpace).filter (· ≠ [])

theorem tokens_space {b : UInt8} (hb : isSpace b) (s : List UInt8) : tokens (b :: s) = tokens s := by
  rw [tokens, List.splitOnP_cons_eq_if_modifyHead, if_pos hb]
  rfl

theorem tokens_spaces {spaces : List UInt8} (h : ∀ b ∈ spaces, isSpace b) (s : List UInt8) :
    tokens (spaces ++ s) = tokens s := by
  induction spaces with
  | nil => rfl
  | cons b spaces ih =>
    rw [List.cons_append, tokens_space (h b List.mem_cons_self),
      ih fun b' hb' => h b' (List.mem_cons_of_mem b hb')]

theorem tokens_of_spaces {spaces : List UInt8} (h : ∀ b ∈ spaces, isSpace b) :
    tokens spaces = [] := by
  have hsplit := tokens_spaces h []
  rwa [List.append_nil] at hsplit

/-- A word, and what follows it. -/
theorem tokens_word {w tail : List UInt8} (hne : w ≠ []) (hw : ∀ b ∈ w, isSpace b = false)
    (htail : ∀ b ∈ tail.head?, isSpace b) : tokens (w ++ tail) = w :: tokens tail := by
  have hkeep : ∀ ws : List (List UInt8), (w :: ws).filter (· ≠ []) = w :: ws.filter (· ≠ []) :=
    fun ws => List.filter_cons_of_pos (decide_eq_true hne)
  cases tail with
  | nil =>
    rw [List.append_nil, tokens, List.splitOnP_eq_singleton hw, hkeep]
    rfl
  | cons b tail =>
    rw [tokens_space (htail b rfl), tokens, List.splitOnP_append_cons_of_forall_mem hw b (htail b rfl),
      hkeep]
    rfl

/-! ### Numbers -/

/-- A word that is a number, in the decimal system: digits, with a sign before them or without. -/
inductive Numeral : List UInt8 → ℤ → Prop
  | plain {ds : List UInt8} (hne : ds ≠ []) (hds : ∀ d ∈ ds, isDigit d) :
      Numeral ds (IStream.ofDigits ds)
  | plus {ds : List UInt8} (hne : ds ≠ []) (hds : ∀ d ∈ ds, isDigit d) :
      Numeral (43 :: ds) (IStream.ofDigits ds)
  | minus {ds : List UInt8} (hne : ds ≠ []) (hds : ∀ d ∈ ds, isDigit d) :
      Numeral (45 :: ds) (-IStream.ofDigits ds)

/-- The number that a word begins with; zero if it begins with none. -/
def leading (w : List UInt8) : ℤ :=
  if (IStream.splitNumber w).1 then -IStream.ofDigits (IStream.splitNumber w).2.1
  else IStream.ofDigits (IStream.splitNumber w).2.1

theorem takeWhile_of_digits {ds : List UInt8} (hds : ∀ d ∈ ds, isDigit d) :
    ds.takeWhile isDigit = ds := List.takeWhile_eq_self_iff.mpr hds

/-- A number begins with itself. -/
theorem leading_of_numeral {w : List UInt8} {n : ℤ} (h : Numeral w n) : leading w = n := by
  cases h with
  | plain hne hds =>
    obtain ⟨d, ds, rfl⟩ := List.exists_cons_of_ne_nil hne
    have hd : isDigit d = true := hds d List.mem_cons_self
    have hplus : d ≠ 43 := by
      rintro rfl
      cases hd
    have hminus : d ≠ 45 := by
      rintro rfl
      cases hd
    simp only [leading, IStream.splitNumber, List.head?_cons, Option.some.injEq, hplus, hminus,
      decide_false, or_self, if_false, takeWhile_of_digits hds, Bool.false_eq_true]
  | plus hne hds =>
    simp only [leading, IStream.splitNumber, List.head?_cons, List.tail_cons, true_or, if_true,
      takeWhile_of_digits hds]
    rfl
  | minus hne hds =>
    simp only [leading, IStream.splitNumber, List.head?_cons, List.tail_cons, or_true, if_true,
      takeWhile_of_digits hds, decide_true]

/-- A sign stands at the beginning only. -/
theorem Numeral.digits {w : List UInt8} {n : ℤ} (h : Numeral w n) : ∀ b ∈ w.tail, isDigit b := by
  cases h with
  | plain hne hds => exact fun b hb => hds b (List.mem_of_mem_tail hb)
  | plus hne hds => exact hds
  | minus hne hds => exact hds

/-- What follows a word does not belong to its number. -/
theorem leading_append {w tail : List UInt8} (hne : w ≠ []) (htail : ∀ b ∈ tail.head?, isSpace b) :
    leading (w ++ tail) = leading w := by
  have hstop : tail.takeWhile isDigit = [] := by
    cases tail with
    | nil => rfl
    | cons b tail =>
      refine List.takeWhile_cons_of_neg fun hb => ?_
      have hspace := htail b rfl
      rw [isSpace_of_isDigit hb] at hspace
      cases hspace
  have htake : ∀ x : List UInt8, (x ++ tail).takeWhile isDigit = x.takeWhile isDigit := by
    intro x
    rw [List.takeWhile_append, hstop, List.append_nil]
    split
    · rename_i hlen
      exact ((List.takeWhile_prefix _).eq_of_length hlen).symm
    · rfl
  obtain ⟨b, w, rfl⟩ := List.exists_cons_of_ne_nil hne
  have hsign : (IStream.splitNumber (b :: w ++ tail)).1 = (IStream.splitNumber (b :: w)).1 := rfl
  have hdigits : (IStream.splitNumber (b :: w ++ tail)).2.1
      = (IStream.splitNumber (b :: w)).2.1 := by
    show (if some b = some 43 ∨ some b = some 45 then w ++ tail else b :: w ++ tail).takeWhile isDigit
      = (if some b = some 43 ∨ some b = some 45 then w else b :: w).takeWhile isDigit
    split
    · exact htake w
    · exact htake (b :: w)
  unfold leading
  rw [hsign, hdigits]

/-! ### Extractions -/

theorem spaces_of_tokens {s : List UInt8} (h : tokens s = []) : ∀ b ∈ s, isSpace b := by
  rcases text_cases s with hall | ⟨spaces, w, tail, rfl, hspaces, hne, hw, htail⟩
  · exact hall
  · rw [tokens_spaces hspaces, tokens_word hne hw htail] at h
    cases h

/-- The first token of a text in it. -/
theorem split_of_tokens {s w : List UInt8} {ws : List (List UInt8)} (h : tokens s = w :: ws) :
    ∃ spaces tail, s = spaces ++ (w ++ tail) ∧ (∀ b ∈ spaces, isSpace b) ∧ w ≠ [] ∧
      (∀ b ∈ w, isSpace b = false) ∧ (∀ b ∈ tail.head?, isSpace b) ∧ tokens tail = ws := by
  rcases text_cases s with hall | ⟨spaces, w', tail, rfl, hspaces, hne, hw, htail⟩
  · rw [tokens_of_spaces hall] at h
    cases h
  · rw [tokens_spaces hspaces, tokens_word hne hw htail] at h
    obtain ⟨rfl, rfl⟩ := List.cons.inj h
    exact ⟨spaces, tail, rfl, hspaces, hne, hw, htail, rfl⟩

namespace IStream

/-- The stream is good unless its end was reached. -/
def Ready (s : IStream) : Prop := s.good ∨ s.rest = []

theorem Ready.good {s : IStream} (h : s.Ready) {w : List UInt8} {ws : List (List UInt8)}
    (htokens : tokens s.rest = w :: ws) : s.good := by
  refine h.resolve_right fun hnil => ?_
  rw [hnil] at htokens
  cases htokens

/-- **A word is extracted**: the first token. -/
theorem word_cons {s : IStream} (h : s.Ready) {w : List UInt8} {ws : List (List UInt8)}
    (htokens : tokens s.rest = w :: ws) (old : List UInt8) :
    ∃ t, s.word old = (w, t) ∧ t.Ready ∧ tokens t.rest = ws := by
  obtain ⟨spaces, tail, hsplit, hspaces, hne, hw, htail, hws⟩ := split_of_tokens htokens
  refine ⟨_, word_of (h.good htokens) hsplit hspaces hne hw htail old, ?_, hws⟩
  cases tail with
  | nil => exact .inr rfl
  | cons b tail => exact .inl rfl

/-- Without a token the word stays as it was. -/
theorem word_nil {s : IStream} (htokens : tokens s.rest = []) (old : List UInt8) :
    (s.word old).1 = old ∧ (s.word old).2.fail = true :=
  word_none (spaces_of_tokens htokens) old

/-- After a failure nothing is extracted. -/
theorem word_of_fail {s : IStream} (h : s.fail = true) (old : List UInt8) :
    s.word old = (old, { s with fail := true }) := by
  have hgood : ¬ s.good = true := by
    rw [good, h, Bool.not_true, Bool.and_false]
    decide
  rw [word, if_neg hgood]

/-- **An integer is extracted**: what the first token begins with, as far as it is in range. -/
theorem integer_cons {s : IStream} (h : s.Ready) {w : List UInt8} {ws : List (List UInt8)}
    (htokens : tokens s.rest = w :: ws) (lo hi old : ℤ) :
    (s.integer lo hi old).1 = max lo (min hi (leading w)) := by
  obtain ⟨spaces, tail, hsplit, hspaces, hne, hw, htail, -⟩ := split_of_tokens htokens
  have hskip : s.skipSpace = { rest := w ++ tail } := by
    refine skipSpace_of hsplit hspaces (List.append_ne_nil_of_left_ne_nil hne tail) fun b hb => ?_
    exact hw b (mem_of_mem_head?_append hne hb)
  rw [← leading_append hne htail, integer, if_pos (h.good htokens), hskip, if_pos (by rfl)]
  rfl

/-- Without a token, or after a failure, the integer stays as it was. -/
theorem integer_nil {s : IStream} (htokens : s.good = false ∨ tokens s.rest = [])
    (lo hi old : ℤ) : (s.integer lo hi old).1 = old := by
  by_cases hgood : s.good
  · have hall := spaces_of_tokens (htokens.resolve_left fun h => Bool.false_ne_true (h.symm.trans hgood))
    have hskip : s.skipSpace = { rest := [], eof := true, fail := true } := by
      have hdrop : s.rest.dropWhile isSpace = [] := List.dropWhile_eq_nil_iff.mpr hall
      rw [skipSpace, hdrop]
      rfl
    rw [integer, if_pos hgood, hskip]
    rfl
  · rw [integer, if_neg hgood]

theorem word_headD {s : IStream} (h : s.Ready) : (s.word []).1 = (tokens s.rest).headD [] := by
  cases htokens : tokens s.rest with
  | nil => exact (word_nil htokens []).1
  | cons w ws =>
    obtain ⟨t, hword, -, -⟩ := word_cons h htokens []
    rw [hword]
    rfl

end IStream

/-! ### The first word -/

/-- The first word of a text, and what follows it; nothing if no white space does. -/
def firstWord (s : List UInt8) : Option (List UInt8 × List UInt8) :=
  let t := s.dropWhile isSpace
  if t.dropWhile (!isSpace ·) = [] then none
  else some (t.takeWhile (!isSpace ·), t.dropWhile (!isSpace ·))

/-- **The first extraction** from a text: the stream is good behind it if the text has a first word
with white space behind it. -/
theorem IStream.word_firstWord (s old : List UInt8) : match firstWord s with
    | some (w, tail) => ({ rest := s } : IStream).word old = (w, { rest := tail })
    | none => (({ rest := s } : IStream).word old).2.good = false := by
  have hgood : ({ rest := s } : IStream).good = true := rfl
  have hskip : ({ rest := s } : IStream).skipSpace = ⟨s.dropWhile isSpace,
    (s.dropWhile isSpace).isEmpty, (s.dropWhile isSpace).isEmpty⟩ := rfl
  unfold firstWord
  rw [word, if_pos hgood, hskip]
  generalize s.dropWhile isSpace = t
  cases t with
  | nil => rfl
  | cons b t =>
    have hgo : (⟨b :: t, (b :: t).isEmpty, (b :: t).isEmpty⟩ : IStream).good = true := rfl
    dsimp only
    rw [if_pos hgo]
    by_cases htail : (b :: t).dropWhile (!isSpace ·) = []
    · rw [if_pos htail, htail]
      rfl
    · rw [if_neg htail]
      dsimp only
      rw [List.isEmpty_eq_false_iff.mpr htail]

theorem firstWord_append {w tail : List UInt8} (hne : w ≠ []) (hw : ∀ b ∈ w, isSpace b = false)
    (htail : ∀ b ∈ tail.head?, isSpace b) (hmore : tail ≠ []) :
    firstWord (w ++ tail) = some (w, tail) := by
  obtain ⟨b, w, rfl⟩ := List.exists_cons_of_ne_nil hne
  obtain ⟨x, tail, rfl⟩ := List.exists_cons_of_ne_nil hmore
  have hgo : ∀ y ∈ b :: w, (!isSpace y) = true := fun y hy => by rw [hw y hy]; rfl
  have hstop : (!isSpace x) = false := by rw [htail x rfl]; rfl
  have hstart : (b :: w ++ x :: tail).dropWhile isSpace = b :: w ++ x :: tail :=
    List.dropWhile_cons_of_neg (by rw [hw b List.mem_cons_self]; decide)
  have hdrop : (b :: w ++ x :: tail).dropWhile (!isSpace ·) = x :: tail := by
    rw [List.dropWhile_append_of_pos hgo, List.dropWhile_cons_of_neg (by rw [hstop]; decide)]
  have htake : (b :: w ++ x :: tail).takeWhile (!isSpace ·) = b :: w := by
    rw [List.takeWhile_append_of_pos hgo, List.takeWhile_cons_of_neg (by rw [hstop]; decide),
      List.append_nil]
  unfold firstWord
  rw [hstart]
  dsimp only
  rw [hdrop, htake, if_neg (List.cons_ne_nil x tail)]

example : tokens [32, 97, 98, 10, 10, 99, 32] = [[97, 98], [99]] := by decide

end Streams
