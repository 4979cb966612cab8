import Cybrg.Common.Carrier
import Cybrg.Library.FileStore

/-!
# Headers

Requests and replies begin with a header: some lines, and an empty line.

* `headerText` — the text of a header;
* `scanHeader_headerText` — such a text is read as it was written;
* `upToZero_append` — what is left of it as a string.
-/

namespace Cybrg

open Streams Files

/-- Some lines, and an empty line. -/
def headerText (lines : List Bytes) : Bytes := (lines.flatMap fun l => l ++ newline) ++ newline

/-- A line with something on it. -/
def Line (l : Bytes) : Prop := l ≠ [] ∧ 10 ∉ l

instance (l : Bytes) : Decidable (Line l) := inferInstanceAs (Decidable (l ≠ [] ∧ 10 ∉ l))

theorem headerText_cons (l : Bytes) (lines : List Bytes) :
    headerText (l :: lines) = l ++ 10 :: headerText lines := by
  simp only [headerText, newline, List.flatMap_cons, List.append_assoc, List.cons_append,
    List.nil_append]

namespace Transport

/-- A part of a header without a newline. -/
theorem scan_line {l : Bytes} (hl : 10 ∉ l) (n : ℕ) (r : Byte × Byte) (s : Bytes) :
    scan (l.length + n) r (l ++ s)
      = (scan n (l.foldl (fun r b => (r.2, b)) r) s).map fun x => (l ++ x.1, x.2) := by
  induction l generalizing r with
  | nil =>
    rw [List.length_nil, Nat.zero_add]
    exact Option.map_id'.symm
  | cons b l ih =>
    rw [List.mem_cons, not_or] at hl
    have hb : (r.2, b) ≠ (10, 10) := fun h => hl.1 (congrArg Prod.snd h).symm
    rw [List.length_cons, show l.length + 1 + n = (l.length + n) + 1 by omega, List.cons_append, scan,
      if_neg hb, ih hl.2, Option.map_map]
    rfl

/-- The last byte of a line is in the shift register. -/
theorem shifted_ne {l : Bytes} (hl : Line l) (r : Byte × Byte) :
    (l.foldl (fun r b => (r.2, b)) r).2 ≠ 10 := by
  obtain ⟨hne, hnot⟩ := hl
  rw [← List.dropLast_concat_getLast hne, List.foldl_append]
  exact fun h => hnot (h ▸ List.getLast_mem hne)

/-- **The text of a header is read up to its empty line.** -/
theorem scan_headerText {lines : List Bytes} (hlines : ∀ l ∈ lines, Line l) {r : Byte × Byte}
    (hr : lines = [] → r.2 = 10) (n : ℕ) (s : Bytes) :
    scan ((headerText lines).length + n) r (headerText lines ++ s)
      = some (headerText lines, s) := by
  induction lines generalizing r with
  | nil =>
    have hend : (r.2, (10 : Byte)) = (10, 10) := by rw [hr rfl]
    show scan (1 + n) r (10 :: s) = some ([10], s)
    rw [Nat.add_comm, scan, if_pos hend]
  | cons l lines ih =>
    have hl : Line l := hlines l List.mem_cons_self
    have hgo : ((l.foldl (fun r b => (r.2, b)) r).2, (10 : Byte)) ≠ (10, 10) :=
      fun h => shifted_ne hl r (congrArg Prod.fst h)
    have hrest := ih (fun l' hl' => hlines l' (List.mem_cons_of_mem l hl'))
      (r := ((l.foldl (fun r b => (r.2, b)) r).2, 10)) fun _ => rfl
    rw [headerText_cons, List.length_append, List.length_cons, List.append_assoc,
      show l.length + ((headerText lines).length + 1) + n
        = l.length + (((headerText lines).length + n) + 1) by omega, scan_line hl.2,
      List.cons_append, scan, if_neg hgo, hrest]
    rfl

/-- **A header that fits into the buffer is read as it was written.** -/
theorem scanHeader_headerText {lines : List Bytes} (hlines : ∀ l ∈ lines, Line l)
    (hne : lines ≠ []) (hfits : (headerText lines).length < bufferSize) (s : Bytes) :
    scanHeader (headerText lines ++ s) = some (upToZero (headerText lines), s) := by
  obtain ⟨n, hn⟩ := Nat.exists_eq_add_of_le (Nat.le_sub_one_of_lt hfits)
  rw [scanHeader, hn, scan_headerText hlines fun h => absurd h hne]
  rfl

end Transport

/-- A zero ends the string. -/
theorem upToZero_append {a : Bytes} (h : 0 ∉ a) (b : Bytes) :
    upToZero (a ++ b) = a ++ upToZero b := by
  have hgo : ∀ x ∈ a, decide (x ≠ 0) = true := fun x hx => decide_eq_true fun h0 => h (h0 ▸ hx)
  rw [upToZero, List.takeWhile_append_of_pos hgo]
  rfl

end Cybrg
