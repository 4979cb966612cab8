import Cybrg.Library.PathWalk

/-!
# Stores that differ out of sight

Some paths of a store can be seen, and what else there is cannot.

* `visible` — the entries that can be seen, with `visible_set` and `visible_erase`;
* `Alike` — two stores with the same visible entries: `Alike.removes`, `Alike.reads`,
  `Alike.truncates` and `Alike.lists` say which system calls come to the same on both.
-/

namespace Files

namespace Store

variable {V : Path → Bool} {s s' : Store} {p : Path}

/-- The entries that can be seen, in their order. -/
def visible (V : Path → Bool) (s : Store) : List (Path × Node) := s.entries.filter fun e => V e.1

/-! ### What is left of a store -/

theorem get_visible (hp : V p = true) (s : Store) : (s.visible V).lookup p = s.get p := by
  show (s.entries.filter fun e => V e.1).lookup p = s.entries.lookup p
  induction s.entries with
  | nil => rfl
  | cons e l ih =>
    rw [List.lookup_cons]
    by_cases hV : V e.1 = true
    · rw [List.filter_cons_of_pos (p := fun e : Path × Node => V e.1) hV, List.lookup_cons, ih]
    · have hne : (p == e.1) = false := by
        rw [beq_eq_false_iff_ne]
        rintro rfl
        exact hV hp
      rw [List.filter_cons_of_neg (p := fun e : Path × Node => V e.1) hV, ih, hne]

theorem children_visible (hp : ∀ name, V (p ++ [name]) = true) (s : Store) :
    (s.visible V).filterMap (childOf p) = s.entries.filterMap (childOf p) := by
  show (s.entries.filter fun e => V e.1).filterMap (childOf p) = s.entries.filterMap (childOf p)
  induction s.entries with
  | nil => rfl
  | cons e l ih =>
    by_cases hV : V e.1 = true
    · rw [List.filter_cons_of_pos (p := fun e : Path × Node => V e.1) hV, List.filterMap_cons,
        List.filterMap_cons, ih]
    · have hnone : childOf p e = none := by
        cases h : childOf p e with
        | none => rfl
        | some name => exact absurd ((childOf_eq_some.mp h).1 ▸ hp name) hV
      rw [List.filter_cons_of_neg (p := fun e : Path × Node => V e.1) hV, List.filterMap_cons, hnone,
        ih]

theorem visible_erase (V : Path → Bool) (s : Store) (p : Path) :
    (s.erase p).visible V = (s.visible V).filter fun e => e.1 ≠ p := by
  simp only [visible, erase, List.filter_filter, Bool.and_comm]

theorem mem_visible (hp : V p = true) :
    p ∈ (s.visible V).map Prod.fst ↔ p ∈ s.entries.map Prod.fst := by
  simp only [visible, List.mem_map, List.mem_filter]
  constructor
  · rintro ⟨e, he, rfl⟩
    exact ⟨e, he.1, rfl⟩
  · rintro ⟨e, he, rfl⟩
    exact ⟨e, ⟨he, hp⟩, rfl⟩

theorem visible_set (hp : V p = true) (s : Store) (n : Node) :
    (s.set p n).visible V =
      if p ∈ (s.visible V).map Prod.fst then
        (s.visible V).map fun e => if e.1 = p then (e.1, n) else e
      else s.visible V ++ [(p, n)] := by
  by_cases hmem : p ∈ s.entries.map Prod.fst
  · rw [if_pos ((mem_visible hp).mpr hmem), visible, entries_set_of_mem hmem, visible,
      List.filter_map]
    have hsame : (fun e : Path × Node => V e.1) ∘ (fun e => if e.1 = p then (e.1, n) else e)
        = fun e => V e.1 := by
      funext e
      simp only [Function.comp_apply]
      split <;> rfl
    rw [hsame]
  · rw [if_neg (fun h => hmem ((mem_visible hp).mp h)), visible, entries_set_of_new hmem, visible,
      List.filter_append, List.filter_cons_of_pos (p := fun e : Path × Node => V e.1) hp,
      List.filter_nil]

/-! ### Stores that look alike -/

/-- Nothing that can be seen tells the stores apart. -/
structure Alike (V : Path → Bool) (s s' : Store) : Prop where
  visible : s.visible V = s'.visible V
  above : s.above = s'.above

namespace Alike

variable (h : Alike V s s')

include h

theorem get (hp : V p = true) : s.get p = s'.get p := by
  rw [← get_visible hp s, ← get_visible hp s', h.visible]

theorem children (hp : ∀ name, V (p ++ [name]) = true) : s.children p = s'.children p := by
  rw [Store.children, Store.children, wayBack, wayBack, h.above, ← children_visible hp s,
    ← children_visible hp s', h.visible]

theorem erase (p : Path) : Alike V (s.erase p) (s'.erase p) :=
  ⟨by rw [visible_erase, visible_erase, h.visible], h.above⟩

theorem set (hp : V p = true) (n : Node) : Alike V (s.set p n) (s'.set p n) :=
  ⟨by rw [visible_set hp, visible_set hp, h.visible], h.above⟩

theorem truncate (hp : V p = true) : Alike V (s.truncate p) (s'.truncate p) := by
  unfold Store.truncate
  rw [h.get hp]
  split
  · exact h
  · exact h.set hp _

theorem append (hp : V p = true) (bs : List UInt8) : Alike V (s.append p bs) (s'.append p bs) := by
  unfold Store.append
  rw [h.get hp]
  split
  · exact h.set hp _
  · exact h

theorem follow (hp : V p = true) : s.follow p = s'.follow p := by
  unfold Store.follow
  rw [h.get hp]

theorem stepInto (p : Path) (c : Name) : s.stepInto p c = s'.stepInto p c :=
  (stepInto_congr h.above.symm p c).symm

variable {path : List UInt8} (hplace : s.place path = s'.place path)

include hplace

/-- An empty directory in sight is one on both. -/
theorem removes (hp : ∀ p, s.place path = some p →
      V p = true ∧ (s.children p = [] ↔ s'.children p = [])) : s.removes path = s'.removes path := by
  unfold Store.removes
  rw [← hplace]
  cases hq : s.place path with
  | none => rfl
  | some p =>
    obtain ⟨hV, hempty⟩ := hp p hq
    simp only [Option.bind_some, h.get hV, hempty]

/-- What is opened on one of them is opened on the other one. -/
theorem opened (hp : ∀ p, s.place path = some p → V p = true) :
    (s.place path).map s.follow = (s'.place path).map s'.follow := by
  rw [← hplace]
  cases hq : s.place path with
  | none => rfl
  | some p => rw [Option.map_some, Option.map_some, h.follow (hp p hq)]

theorem reads (hp : ∀ p, s.place path = some p → V p = true ∧ V (s.follow p) = true) :
    s.reads path = s'.reads path := by
  unfold Store.reads
  rw [← h.opened hplace fun p hq => (hp p hq).1]
  cases hq : s.place path with
  | none => rfl
  | some p => simp only [Option.map_some, Option.bind_some, h.get (hp p hq).2]

theorem truncates (hp : ∀ p, s.place path = some p →
      V p = true ∧ V (s.follow p) = true ∧ V (s.follow p).dropLast = true) :
    s.truncates path = s'.truncates path := by
  unfold Store.truncates
  rw [← h.opened hplace fun p hq => (hp p hq).1]
  cases hq : s.place path with
  | none => rfl
  | some p =>
    simp only [Option.map_some, Option.bind_some, h.get (hp p hq).2.1, h.get (hp p hq).2.2]

theorem lists (hp : ∀ p, s.place path = some p →
      V p = true ∧ V (s.follow p) = true ∧ ∀ name, V (s.follow p ++ [name]) = true) :
    s.lists path = s'.lists path := by
  unfold Store.lists
  rw [← h.reads hplace fun p hq => ⟨(hp p hq).1, (hp p hq).2.1⟩]
  cases hreads : s.reads path with
  | none => rfl
  | some x =>
    obtain ⟨q, n⟩ := x
    obtain ⟨p, hq, rfl⟩ := Option.map_eq_some_iff.mp (place_of_reads hreads).1
    cases n with
    | dir => exact congrArg some (h.children (hp p hq).2.2)
    | _ => rfl

end Alike

end Store

end Files
