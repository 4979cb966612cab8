import Cybrg.Library.FileStore
import Mathlib.Logic.Function.Basic

/-!
# Files that are open more than once

Regular files as several programs have them open at the same time.  A name leads to a file, and an
open file stays what it is when its name is removed or given to another one.  Every program reads
and writes at positions of its own.

* `overwrite` — a write at a position, with `byte_overwrite` and `length_overwrite_le`;
* `Disk` — names, files and their contents, with `truncates`, `unlink`, `read`, `write`;
* `Disk.Single` — no file has two names; then `find_truncate`, `find_unlink` and `find_write` say what
  becomes of the files by their names.
-/

namespace Files

/-! ### Writing at a position -/

/-- `content` after a write of `bs` at `pos`.  What lies between its end and `pos` reads as zeros;
a write of nothing changes nothing. -/
def overwrite (content : List UInt8) (pos : ℕ) (bs : List UInt8) : List UInt8 :=
  if bs = [] then content
  else content.take pos ++ List.replicate (pos - content.length) 0 ++ bs
    ++ content.drop (pos + bs.length)

theorem overwrite_nil (content : List UInt8) (pos : ℕ) : overwrite content pos [] = content :=
  if_pos rfl

/-- A write at the end appends. -/
theorem overwrite_length (content bs : List UInt8) :
    overwrite content content.length bs = content ++ bs := by
  by_cases hbs : bs = []
  · rw [hbs, overwrite_nil, List.append_nil]
  · rw [overwrite, if_neg hbs, List.take_length, Nat.sub_self, List.replicate_zero, List.append_nil,
      List.drop_eq_nil_of_le (Nat.le_add_right _ _), List.append_nil]

/-- A byte of the result comes from the string, from a gap or from what was there. -/
theorem byte_overwrite {content bs : List UInt8} {pos i : ℕ} {b : UInt8}
    (h : (overwrite content pos bs)[i]? = some b) :
    content[i]? = some b ∨ b = 0 ∨ ∃ j, i = pos + j ∧ bs[j]? = some b := by
  by_cases hbs : bs = []
  · rw [hbs, overwrite_nil] at h
    exact .inl h
  rw [overwrite, if_neg hbs] at h
  -- the part of the result in which the position lies
  have hlen : (content.take pos ++ List.replicate (pos - content.length) 0).length = pos := by
    rw [List.length_append, List.length_take, List.length_replicate]
    omega
  rcases Nat.lt_or_ge i pos with hi | hi
  · rw [List.append_assoc, List.getElem?_append_left (by rw [hlen]; exact hi)] at h
    rcases Nat.lt_or_ge i content.length with hc | hc
    · rw [List.getElem?_append_left (by rw [List.length_take]; omega),
        List.getElem?_take_of_lt hi] at h
      exact .inl h
    · rw [List.getElem?_append_right (by rw [List.length_take]; omega)] at h
      exact .inr (.inl (List.eq_of_mem_replicate (List.mem_of_getElem? h)))
  · rcases Nat.lt_or_ge i (pos + bs.length) with hj | hj
    · rw [List.getElem?_append_left (by rw [List.length_append, hlen]; exact hj),
        List.getElem?_append_right (by rw [hlen]; exact hi), hlen] at h
      exact .inr (.inr ⟨i - pos, by omega, h⟩)
    · rw [List.getElem?_append_right (by rw [List.length_append, hlen]; exact hj),
        List.length_append, hlen, List.getElem?_drop] at h
      rw [show pos + bs.length + (i - (pos + bs.length)) = i by omega] at h
      exact .inl h

theorem length_overwrite_le (content : List UInt8) (pos : ℕ) (bs : List UInt8) :
    (overwrite content pos bs).length ≤ max content.length (pos + bs.length) := by
  by_cases hbs : bs = []
  · rw [hbs, overwrite_nil]
    exact le_max_left _ _
  · rw [overwrite, if_neg hbs]
    simp only [List.length_append, List.length_take, List.length_replicate, List.length_drop]
    omega

/-! ### The disk -/

/-- Files by number, and the names that lead to them.  All numbers from `next` on are free. -/
structure Disk where
  names : Path → Option ℕ
  contents : ℕ → List UInt8
  next : ℕ
  allocated : ∀ p k, names p = some k → k < next

namespace Disk

variable (d : Disk)

/-- The content of the file with this name. -/
def find (p : Path) : Option (List UInt8) := (d.names p).map d.contents

/-- The file that opening a name with truncation opens. -/
def truncates (p : Path) : ℕ := (d.names p).getD d.next

/-- The disk after this: the file is there and empty. -/
def truncate (p : Path) : Disk where
  names := Function.update d.names p (some (d.truncates p))
  contents := Function.update d.contents (d.truncates p) []
  next := d.next + 1
  allocated := by
    intro q k hk
    by_cases hq : q = p
    · rw [hq, Function.update_self] at hk
      cases hk
      unfold truncates
      cases hp : d.names p with
      | none => exact Nat.lt_succ_self _
      | some k => exact Nat.lt_succ_of_lt (d.allocated p k hp)
    · rw [Function.update_of_ne hq] at hk
      exact Nat.lt_succ_of_lt (d.allocated q k hk)

/-- Remove a name.  Whoever has the file open keeps it. -/
def unlink (p : Path) : Disk where
  names := Function.update d.names p none
  contents := d.contents
  next := d.next
  allocated := by
    intro q k hk
    by_cases hq : q = p
    · rw [hq, Function.update_self] at hk
      cases hk
    · rw [Function.update_of_ne hq] at hk
      exact d.allocated q k hk

/-- At most `n` bytes of a file, from a position on. -/
def read (k pos n : ℕ) : List UInt8 := ((d.contents k).drop pos).take n

/-- Write a string at a position. -/
def write (k pos : ℕ) (bs : List UInt8) : Disk :=
  { d with contents := Function.update d.contents k (overwrite (d.contents k) pos bs) }

theorem contents_truncate (p : Path) (k : ℕ) :
    (d.truncate p).contents k = if k = d.truncates p then [] else d.contents k := by
  simp only [truncate, Function.update_apply]

theorem contents_write (k pos : ℕ) (bs : List UInt8) (k' : ℕ) :
    (d.write k pos bs).contents k'
      = if k' = k then overwrite (d.contents k) pos bs else d.contents k' := by
  simp only [write, Function.update_apply]

theorem length_read_eq (k pos n : ℕ) :
    (d.read k pos n).length = min n ((d.contents k).length - pos) := by
  rw [read, List.length_take, List.length_drop]

/-! ### Files with one name each -/

/-- No file has two names. -/
def Single : Prop := ∀ p q k, d.names p = some k → d.names q = some k → p = q

variable {d}

/-- The file that is opened has no other name. -/
theorem Single.truncates_ne (h : d.Single) {p q : Path} (hq : q ≠ p) {k : ℕ}
    (hk : d.names q = some k) : k ≠ d.truncates p := by
  intro heq
  unfold truncates at heq
  cases hp : d.names p with
  | none =>
    rw [hp] at heq
    -- a new file has a number that no name has led to
    exact absurd (d.allocated q k hk) (heq ▸ lt_irrefl _)
  | some k' =>
    rw [hp] at heq
    exact hq (h q p k hk (heq.symm ▸ hp))

theorem names_truncate (d : Disk) (p q : Path) :
    (d.truncate p).names q = if q = p then some (d.truncates p) else d.names q := by
  simp only [truncate, Function.update_apply]

theorem names_unlink (d : Disk) (p q : Path) :
    (d.unlink p).names q = if q = p then none else d.names q := by
  simp only [unlink, Function.update_apply]

theorem Single.truncate (h : d.Single) (p : Path) : (d.truncate p).Single := by
  intro a b k ha hb
  rw [names_truncate] at ha hb
  by_cases hap : a = p <;> by_cases hbp : b = p
  · rw [hap, hbp]
  · rw [if_pos hap] at ha
    rw [if_neg hbp] at hb
    exact absurd (Option.some.inj ha).symm (h.truncates_ne hbp hb)
  · rw [if_neg hap] at ha
    rw [if_pos hbp] at hb
    exact absurd (Option.some.inj hb).symm (h.truncates_ne hap ha)
  · rw [if_neg hap] at ha
    rw [if_neg hbp] at hb
    exact h a b k ha hb

theorem Single.unlink (h : d.Single) (p : Path) : (d.unlink p).Single := by
  intro a b k ha hb
  rw [names_unlink] at ha hb
  split at ha
  · cases ha
  · split at hb
    · cases hb
    · exact h a b k ha hb

theorem find_unlink (d : Disk) (p q : Path) :
    (d.unlink p).find q = if q = p then none else d.find q := by
  unfold find
  rw [names_unlink]
  split <;> rfl

/-- A file that was opened with truncation is empty, and no other file has changed. -/
theorem Single.find_truncate (h : d.Single) (p q : Path) :
    (d.truncate p).find q = if q = p then some [] else d.find q := by
  unfold find
  rw [names_truncate]
  by_cases hq : q = p
  · rw [if_pos hq, if_pos hq, Option.map_some, contents_truncate, if_pos rfl]
  · rw [if_neg hq, if_neg hq]
    cases hk : d.names q with
    | none => rfl
    | some k => rw [Option.map_some, contents_truncate, if_neg (h.truncates_ne hq hk), Option.map_some]

/-- A write changes the file with one name. -/
theorem Single.find_write (h : d.Single) {p : Path} {k : ℕ} (hk : d.names p = some k) (pos : ℕ)
    (bs : List UInt8) (q : Path) :
    (d.write k pos bs).find q
      = if q = p then some (overwrite (d.contents k) pos bs) else d.find q := by
  show (d.names q).map (d.write k pos bs).contents = _
  by_cases hq : q = p
  · rw [if_pos hq, hq, hk, Option.map_some, contents_write, if_pos rfl]
  · rw [if_neg hq, find]
    cases hk' : d.names q with
    | none => rfl
    | some k' =>
      have hne : k' ≠ k := fun heq => hq (h q p k (heq ▸ hk') hk)
      rw [Option.map_some, contents_write, if_neg hne, Option.map_some]

end Disk

end Files
