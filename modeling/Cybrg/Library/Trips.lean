import Mathlib.Data.List.Infix

/-!
# Two parties on a network that loses

Each of two parties reads a string and writes one, and what it writes depends on what it has read.  The
network hands each of them a part of what the other has written, and then nothing.

* `Party` — what one of them writes;
* `Trip` — a request, its reply, and a body that follows the reply;
* `Trip.cut` — where such an exchange can stop.
-/

namespace Trips

variable {α : Type}

/-- A party at some time. -/
structure Party (α : Type) where
  /-- What it has written until now. -/
  said : List α
  /-- What it has written in the end, if this is all that it reads. -/
  wrote : List α → List α

/-- The first party writes a request, and when it has read the whole reply it writes a body.  The
second one replies when it has read the whole request, and goes on when it has read the whole body. -/
structure Trip (a b : Party α) (request reply body : List α) : Prop where
  asks : ∀ u, u <+: reply → u ≠ reply → a.wrote u = a.said ++ request
  sends : ∀ u, a.said ++ (request ++ body) <+: a.wrote (reply ++ u)
  replies : ∀ y, b.said ++ reply <+: b.wrote (request ++ y)
  waits : ∀ y, y <+: body → y ≠ body → b.wrote (request ++ y) = b.said ++ reply

variable {a b : Party α} {request reply body u y : List α}

/-- What begins like a string is a proper part of it, or goes on behind it. -/
theorem part_or_rest {s t whole : List α} (hs : s <+: whole) (ht : t <+: whole) :
    (s <+: t ∧ s ≠ t) ∨ ∃ rest, s = t ++ rest := by
  rcases List.prefix_or_prefix_of_prefix hs ht with hpart | ⟨rest, rfl⟩
  · by_cases heq : s = t
    · exact .inr ⟨[], by rw [heq, List.append_nil]⟩
    · exact .inl ⟨hpart, heq⟩
  · exact .inr ⟨rest, rfl⟩

/-- **Where an exchange can stop**, when the second party has read the request: before the whole reply
has come, or before the whole body has; else both go on. -/
theorem Trip.cut (h : Trip a b request reply body)
    (hy : a.said ++ (request ++ y) <+: a.wrote u) (hu : b.said ++ u <+: b.wrote (request ++ y)) :
    (u <+: reply ∧ u ≠ reply ∧ y = []) ∨ (u = reply ∧ y <+: body ∧ y ≠ body) ∨
      ∃ u' y', u = reply ++ u' ∧ y = body ++ y' := by
  -- the reply is there, whatever the second party reads behind the request
  have hreply : u <+: reply ∧ u ≠ reply ∨ ∃ u', u = reply ++ u' := by
    rcases part_or_rest hu (h.replies y) with ⟨hpart, hne⟩ | ⟨u', heq⟩
    · exact .inl ⟨(List.prefix_append_right_inj _).mp hpart, fun heq => hne (by rw [heq])⟩
    · rw [List.append_assoc] at heq
      exact .inr ⟨u', List.append_cancel_left heq⟩
  rcases hreply with ⟨hpart, hne⟩ | ⟨u', rfl⟩
  · rw [h.asks u hpart hne, List.prefix_append_right_inj] at hy
    have hlen := hy.length_le
    rw [List.length_append] at hlen
    exact .inl ⟨hpart, hne, List.length_eq_zero_iff.mp (by omega)⟩
  · rcases part_or_rest hy (h.sends u') with ⟨hpart, hne⟩ | ⟨y', heq⟩
    · rw [List.prefix_append_right_inj, List.prefix_append_right_inj] at hpart
      have hyne : y ≠ body := fun heq => hne (by rw [heq])
      rw [h.waits y hpart hyne, List.prefix_append_right_inj] at hu
      have hlen := hu.length_le
      rw [List.length_append] at hlen
      have hnil : u' = [] := List.length_eq_zero_iff.mp (by omega)
      rw [hnil, List.append_nil]
      exact .inr (.inl ⟨rfl, hpart, hyne⟩)
    · rw [List.append_assoc, List.append_assoc] at heq
      exact .inr (.inr ⟨u', y', rfl, List.append_cancel_left (List.append_cancel_left heq)⟩)

end Trips
