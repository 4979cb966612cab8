import Mathlib.Data.List.Nodup
import Mathlib.Data.List.Infix
import Mathlib.Data.List.TakeWhile

/-!
# A file store

A small model of a POSIX file system, for programs that open, list and remove files by paths they
have put together from strings.

* `components`, `names` — the parts of a string between its slashes;
* `Store` — the nodes of the file system as they lie from the working directory, each path at most
  once;
* `get_set`, `get_set_ne`, `get_erase_ne`, `get_truncate_ne`, `get_append_ne` — the store as a map;
* `Reworked` — a store that differs from another one at some paths only, and in what way;
* `append_truncate` — a file that is written anew, in pieces or at once.
-/

namespace Files

abbrev Name := List UInt8

/-- From the working directory, outermost directory first.  In front stands a `..` for each directory
that the path goes up. -/
abbrev Path := List Name

def slash : UInt8 := 47

/-- `.` -/
def dot : Name := [46]

/-- `..` -/
def dotDot : Name := [46, 46]

/-! ### Paths -/

/-- The components of a string between its slashes. -/
def components : List UInt8 → List Name
  | [] => [[]]
  | b :: bs =>
      if b = slash then [] :: components bs
      else match components bs with
        | c :: cs => (b :: c) :: cs
        | [] => [[b]]

theorem components_of_plain {bs : List UInt8} (h : slash ∉ bs) : components bs = [bs] := by
  induction bs with
  | nil => rfl
  | cons b bs ih =>
    rw [List.mem_cons, not_or] at h
    rw [components, if_neg (Ne.symm h.1), ih h.2]

theorem components_append_slash {a : List UInt8} (ha : slash ∉ a) (b : List UInt8) :
    components (a ++ slash :: b) = a :: components b := by
  induction a with
  | nil => rfl
  | cons x a ih =>
    rw [List.mem_cons, not_or] at ha
    rw [List.cons_append, components, if_neg (Ne.symm ha.1), ih ha.2]

/-- What is left of a string that is read as a C string: it ends before the first zero byte. -/
def upToZero (bs : List UInt8) : List UInt8 := bs.takeWhile (· ≠ 0)

theorem upToZero_of_nonzero {bs : List UInt8} (h : 0 ∉ bs) : upToZero bs = bs := by
  rw [upToZero, List.takeWhile_eq_self_iff]
  exact fun b hb => decide_eq_true fun h0 => h (h0 ▸ hb)

/-- The components of a path as the system takes it, without the empty ones. -/
def names (path : List UInt8) : List Name := (components (upToZero path)).filter (· ≠ [])

theorem names_child {c name : Name} (hc : slash ∉ c) (hname : slash ∉ name) (hzero : (0 : UInt8) ∉ c)
    (hzero' : (0 : UInt8) ∉ name) (hne : c ≠ []) :
    names (c ++ slash :: name) = c :: if name = [] then [] else [name] := by
  have hcut : upToZero (c ++ slash :: name) = c ++ slash :: name := by
    refine upToZero_of_nonzero ?_
    simp [hzero, hzero', slash]
  rw [names, hcut, components_append_slash hc, components_of_plain hname,
    List.filter_cons_of_pos (by simpa using hne)]
  split
  · rename_i hnil
    rw [hnil]
    rfl
  · rename_i hname
    rw [List.filter_cons_of_pos (by simpa using hname)]
    rfl

/-- The last component is a name, and not empty, `.` or `..`. -/
def Proper (path : List UInt8) : Prop :=
  ∃ c, (components (upToZero path)).getLast? = some c ∧ c ≠ [] ∧ c ≠ dot ∧ c ≠ dotDot

instance (path : List UInt8) : Decidable (Proper path) :=
  match h : (components (upToZero path)).getLast? with
  | some c => decidable_of_iff (c ≠ [] ∧ c ≠ dot ∧ c ≠ dotDot)
      ⟨fun hc => ⟨c, h, hc⟩, fun ⟨_, hc, hne⟩ => Option.some.inj (h.symm.trans hc) ▸ hne⟩
  | none => .isFalse fun ⟨_, hc, _⟩ => nomatch h.symm.trans hc

/-! ### Nodes -/

inductive Node where
  | file (content : List UInt8)
  | dir
  /-- A symbolic link, with the path it finally leads to.  The links on the way there stay. -/
  | link (target : Path)
  /-- A device, a pipe or a socket, with the bytes that can be read from it. -/
  | special (reads : List UInt8)
  deriving DecidableEq

/-- A regular file. -/
def Node.IsFile : Node → Prop
  | .file _ => True
  | _ => False

/-- Each path is there once, and a file has one name.  The order is that in which directories are
listed. -/
structure Store where
  entries : List (Path × Node)
  nodup : (entries.map Prod.fst).Nodup
  /-- The names of the working directory and of those above it, from the inside out; none if it
  is `/`. -/
  above : List Name := []

namespace Store

def get (s : Store) (p : Path) : Option Node := s.entries.lookup p

/-- Put a node at a path, behind all others if it is new. -/
def set (s : Store) (p : Path) (n : Node) : Store where
  above := s.above
  entries :=
    if p ∈ s.entries.map Prod.fst then
      s.entries.map fun e => if e.1 = p then (e.1, n) else e
    else s.entries ++ [(p, n)]
  nodup := by
    split
    · have hfst : (Prod.fst ∘ fun e : Path × Node => if e.1 = p then (e.1, n) else e)
          = Prod.fst := by
        funext e
        simp only [Function.comp_apply]
        split <;> rfl
      rw [List.map_map, hfst]
      exact s.nodup
    · rename_i hp
      rw [List.map_append, List.nodup_append]
      refine ⟨s.nodup, by simp, ?_⟩
      intro a ha b hb hab
      simp only [List.map_cons, List.map_nil, List.mem_singleton] at hb
      exact hp (hb ▸ hab ▸ ha)

def erase (s : Store) (p : Path) : Store where
  entries := s.entries.filter fun e => e.1 ≠ p
  nodup := s.nodup.sublist (List.filter_sublist.map Prod.fst)
  above := s.above

theorem lookup_map_replace (l : List (Path × Node)) (p q : Path) (n : Node) :
    (l.map fun e => if e.1 = p then (e.1, n) else e).lookup q
      = if q = p then (l.lookup q).map fun _ => n else l.lookup q := by
  induction l with
  | nil => simp
  | cons e l ih =>
    rw [List.map_cons, List.lookup_cons, List.lookup_cons, ih]
    by_cases he : e.1 = p <;> by_cases hq : q = e.1 <;> grind

theorem get_set (s : Store) (p q : Path) (n : Node) :
    (s.set p n).get q = if q = p then some n else s.get q := by
  simp only [get, set]
  by_cases hp : p ∈ s.entries.map Prod.fst
  · rw [if_pos hp, lookup_map_replace]
    by_cases hq : q = p
    · subst hq
      rw [if_pos rfl, if_pos rfl]
      cases h : s.entries.lookup q with
      | some m => rfl
      | none =>
        rw [List.lookup_eq_none_iff] at h
        obtain ⟨e, he, heq⟩ := List.mem_map.mp hp
        have hne := h e he
        simp [heq] at hne
    · rw [if_neg hq, if_neg hq]
  · rw [if_neg hp, List.lookup_append]
    by_cases hq : q = p
    · subst hq
      have hnone : s.entries.lookup q = none := by
        rw [List.lookup_eq_none_iff]
        intro e he
        by_contra hne
        exact hp (List.mem_map.mpr ⟨e, he, by simpa using Eq.symm (by simpa using hne)⟩)
      simp [hnone]
    · have hne : (q == p) = false := by simpa using hq
      simp [List.lookup_cons, hne, hq]

theorem get_set_ne (s : Store) {p q : Path} (n : Node) (h : q ≠ p) :
    (s.set p n).get q = s.get q := by
  rw [get_set, if_neg h]

theorem get_erase_ne (s : Store) {p q : Path} (h : q ≠ p) : (s.erase p).get q = s.get q := by
  unfold get erase
  simp only
  generalize s.entries = l
  induction l with
  | nil => rfl
  | cons e l ih =>
    by_cases he : e.1 = p
    · have hne : (q == e.1) = false := by simpa [he] using h
      rw [List.filter_cons_of_neg (by simpa using he), ih, List.lookup_cons, hne]
    · rw [List.filter_cons_of_pos (by simpa using he), List.lookup_cons, List.lookup_cons, ih]

theorem get_erase_self (s : Store) (p : Path) : (s.erase p).get p = none := by
  unfold get erase
  rw [List.lookup_eq_none_iff]
  intro e he
  have hne : e.1 ≠ p := by simpa using (List.mem_filter.mp he).2
  simpa using Ne.symm hne

/-! ### Opening and writing -/

/-- The store after a path was opened with truncation, if it can be opened. -/
def truncate (s : Store) (p : Path) : Store :=
  match s.get p with
  | some (.special _) => s
  | _ => s.set p (.file [])

/-- Write at the end of an open file. -/
def append (s : Store) (p : Path) (bs : List UInt8) : Store :=
  match s.get p with
  | some (.file content) => s.set p (.file (content ++ bs))
  | _ => s

/-! ### What stays -/

theorem get_truncate_ne (s : Store) {p q : Path} (h : q ≠ p) : (s.truncate p).get q = s.get q := by
  unfold truncate
  split
  · rfl
  · exact s.get_set_ne _ h

theorem get_append_ne (s : Store) {p q : Path} (h : q ≠ p) (bs : List UInt8) :
    (s.append p bs).get q = s.get q := by
  unfold append
  split
  · exact s.get_set_ne _ h
  · rfl

/-- A file that was just opened with truncation has nothing in it. -/
theorem get_truncate_self {s : Store} {p : Path} {content : List UInt8}
    (h : (s.truncate p).get p = some (.file content)) : content = [] := by
  unfold truncate at h
  split at h
  · rename_i reads hget
    cases hget.symm.trans h
  · rw [get_set, if_pos rfl] at h
    cases h
    rfl

/-- What is written to a file stands behind what was there. -/
theorem get_append_self {s : Store} {p : Path} {bs content : List UInt8}
    (h : (s.append p bs).get p = some (.file content)) :
    ∃ was, s.get p = some (.file was) ∧ content = was ++ bs := by
  unfold append at h
  split at h
  · rename_i was hget
    rw [get_set, if_pos rfl] at h
    cases h
    exact ⟨was, hget, rfl⟩
  · rename_i hno
    exact absurd h (hno content)

/-- The store `s` has become `s'`: a path keeps its node, or it is in `T` and has one with `F`. -/
structure Reworked (T : Path → Prop) (F : Option Node → Prop) (s s' : Store) : Prop where
  nodes : ∀ p, s'.get p = s.get p ∨ T p ∧ F (s'.get p)
  above : s'.above = s.above

namespace Reworked

variable {T : Path → Prop} {F : Option Node → Prop} {s s' s'' : Store}

theorem refl (T : Path → Prop) (F : Option Node → Prop) (s : Store) : Reworked T F s s :=
  ⟨fun _ => .inl rfl, rfl⟩

/-- One more path has changed. -/
theorem change (h : Reworked T F s s') {p : Path} (hne : ∀ q, q ≠ p → s''.get q = s'.get q)
    (habove : s''.above = s'.above) (hT : T p) (hF : F (s''.get p)) : Reworked T F s s'' := by
  refine ⟨fun q => ?_, habove.trans h.above⟩
  by_cases hq : q = p
  · rw [hq]
    exact .inr ⟨hT, hF⟩
  · rw [hne q hq]
    exact h.nodes q

theorem erase (h : Reworked T F s s') {p : Path} (hT : T p) (hF : F none) :
    Reworked T F s (s'.erase p) :=
  h.change (fun _ hq => s'.get_erase_ne hq) rfl hT ((s'.get_erase_self p).symm ▸ hF)

theorem truncate (h : Reworked T F s s') {p : Path} (hT : T p) (hF : F (some (.file []))) :
    Reworked T F s (s'.truncate p) := by
  unfold Store.truncate
  split
  · exact h
  · refine h.change (fun _ hq => s'.get_set_ne _ hq) rfl hT ?_
    rw [get_set, if_pos rfl]
    exact hF

theorem append (h : Reworked T F s s') {p : Path} {bs : List UInt8} (hT : T p)
    (hF : ∀ was, s'.get p = some (.file was) → F (some (.file (was ++ bs)))) :
    Reworked T F s (s'.append p bs) := by
  unfold Store.append
  split
  · rename_i was hget
    refine h.change (fun _ hq => s'.get_set_ne _ hq) rfl hT ?_
    rw [get_set, if_pos rfl]
    exact hF was hget
  · exact h

/-- A node that does not come from a change was there before. -/
theorem get_of_not (h : Reworked T F s s') {p : Path} (hF : ¬ F (s'.get p)) :
    s'.get p = s.get p :=
  (h.nodes p).resolve_right fun hchanged => hF hchanged.2

/-- A path that no change is about keeps its node. -/
theorem get_of_kept (h : Reworked T F s s') {p : Path} (hT : ¬ T p) : s'.get p = s.get p :=
  (h.nodes p).resolve_right fun hchanged => hT hchanged.1

end Reworked

/-! ### Writing in pieces -/

@[ext] theorem ext {s s' : Store} (h : s.entries = s'.entries) (habove : s.above = s'.above) :
    s = s' := by
  cases s
  cases s'
  cases h
  cases habove
  rfl

theorem entries_set_of_mem {s : Store} {p : Path} (h : p ∈ s.entries.map Prod.fst) (n : Node) :
    (s.set p n).entries = s.entries.map fun e => if e.1 = p then (e.1, n) else e :=
  if_pos h

theorem entries_set_of_new {s : Store} {p : Path} (h : p ∉ s.entries.map Prod.fst) (n : Node) :
    (s.set p n).entries = s.entries ++ [(p, n)] :=
  if_neg h

theorem mem_of_get {s : Store} {p : Path} {n : Node} (h : s.get p = some n) : (p, n) ∈ s.entries := by
  obtain ⟨l, r, hsplit, -⟩ := List.lookup_eq_some_iff.mp h
  rw [hsplit]
  exact List.mem_append_right _ List.mem_cons_self

/-- Putting a node where it is already. -/
theorem set_get {s : Store} {p : Path} {n : Node} (h : s.get p = some n) : s.set p n = s := by
  have hmem := mem_of_get h
  refine ext ?_ rfl
  rw [entries_set_of_mem (List.mem_map.mpr ⟨_, hmem, rfl⟩)]
  refine (List.map_congr_left fun e he => ?_).trans s.entries.map_id
  split
  · rename_i hp
    -- each path is there once
    have hsame : e = (p, n) := List.inj_on_of_nodup_map s.nodup he hmem hp
    rw [hsame]
    rfl
  · rfl

/-- The last node that is put counts. -/
theorem set_set (s : Store) (p : Path) (n n' : Node) : (s.set p n).set p n' = s.set p n' := by
  have hmem : p ∈ (s.set p n).entries.map Prod.fst := by
    have hget : (s.set p n).get p = some n := by rw [get_set, if_pos rfl]
    obtain ⟨l, r, hsplit, -⟩ := List.lookup_eq_some_iff.mp hget
    rw [hsplit]
    simp
  refine ext ?_ rfl
  rw [entries_set_of_mem hmem]
  by_cases h : p ∈ s.entries.map Prod.fst
  · rw [entries_set_of_mem h, entries_set_of_mem h, List.map_map]
    refine List.map_congr_left fun e _ => ?_
    simp only [Function.comp_apply]
    split <;> rfl
  · rw [entries_set_of_new h, entries_set_of_new h, List.map_append]
    congr 1
    · refine (List.map_congr_left fun e he => ?_).trans s.entries.map_id
      rw [if_neg fun hp => h (List.mem_map.mpr ⟨e, he, hp⟩)]
      rfl
    · simp

theorem append_nil (s : Store) (p : Path) : s.append p [] = s := by
  unfold append
  split
  · rename_i content hget
    rw [List.append_nil]
    exact set_get hget
  · rfl

theorem append_append (s : Store) (p : Path) (a b : List UInt8) :
    (s.append p a).append p b = s.append p (a ++ b) := by
  cases hget : s.get p with
  | none => simp only [append, hget]
  | some n =>
    cases n with
    | file content =>
      have hset : s.append p a = s.set p (.file (content ++ a)) := by simp only [append, hget]
      rw [hset]
      simp only [append, get_set, if_true, hget, set_set, List.append_assoc]
    | _ => simp only [append, hget]

/-! ### A file that is written anew -/

theorem append_truncate_of_special {s : Store} {p : Path} {reads : List UInt8}
    (h : s.get p = some (.special reads)) (bs : List UInt8) : (s.truncate p).append p bs = s := by
  have htruncate : s.truncate p = s := by simp only [truncate, h]
  rw [htruncate]
  simp only [append, h]

theorem append_truncate {s : Store} {p : Path} (h : ∀ reads, s.get p ≠ some (.special reads))
    (bs : List UInt8) : (s.truncate p).append p bs = s.set p (.file bs) := by
  have htruncate : s.truncate p = s.set p (.file []) := by
    unfold truncate
    split
    · rename_i reads hget
      exact absurd hget (h reads)
    · rfl
  have hget : (s.set p (.file [])).get p = some (.file []) := by rw [get_set, if_pos rfl]
  rw [htruncate]
  simp only [append, hget, set_set, List.nil_append]

end Store

end Files
