import Cybrg.Library.FileStore

/-!
# The way of a path

The system goes from component to component.  Each but the last must lead to a directory, or to a
symbolic link to one.

* `Store.walk`, `Store.place` — where a path leads;
* `Store.removes`, `Store.reads`, `Store.truncates`, `Store.lists` — what `remove`, opening for
  reading, opening with truncation and `opendir` act on, if they succeed;
* `Routes` — every way through one store is one through the other;
* `held_set` — a path whose file was written anew leads to what was written;
* `trail`, `reads_of_trail` — the nodes that opening for reading looks at;
* `Direct` — paths that only go down from the working directory, with `place_of_direct`.
-/

namespace Files

namespace Store

/-! ### Where a path leads -/

/-- In a directory above the working directory, the name of the next one on the way back. -/
def wayBack (s : Store) (p : Path) : Option Name :=
  if p.getLast? = some dotDot then s.above[p.length - 1]? else none

/-- The directory above; that of `/` is `/`. -/
def climb (s : Store) (p : Path) : Path :=
  if p = [] ∨ p.getLast? = some dotDot then
    if p.length < s.above.length then p ++ [dotDot] else p
  else p.dropLast

/-- Where a component leads from a directory. -/
def stepInto (s : Store) (p : Path) (c : Name) : Path :=
  if c = dot then p
  else if c = dotDot then s.climb p
  else if s.wayBack p = some c then p.dropLast
  else p ++ [c]

/-- Where a symbolic link leads, and anything else. -/
def follow (s : Store) (p : Path) : Path :=
  match s.get p with
  | some (.link q) => q
  | _ => p

/-- Where some components lead from a directory.  Only the last one may be no directory, and it is
not followed if it is a link. -/
def walk (s : Store) : Path → List Name → Option Path
  | p, [] => some p
  | p, [c] => some (s.stepInto p c)
  | p, c :: c' :: cs =>
      if s.get (s.follow (s.stepInto p c)) = some .dir
      then walk s (s.follow (s.stepInto p c)) (c' :: cs) else none

/-- Where a path begins: at `/`, or in the working directory. -/
def start (s : Store) (path : List UInt8) : Path :=
  if path.head? = some slash then List.replicate s.above.length dotDot else []

/-- Where a path leads. -/
def place (s : Store) (path : List UInt8) : Option Path :=
  if upToZero path = [] then none else s.walk (s.start path) (names path)

/-! ### System calls -/

/-- The name of an entry in a directory. -/
def childOf (p : Path) (e : Path × Node) : Option Name :=
  if e.1.dropLast = p ∧ e.1.getLast? ≠ some dotDot then e.1.getLast? else none

/-- The names in a directory. -/
def children (s : Store) (p : Path) : List Name :=
  s.entries.filterMap (childOf p) ++ (s.wayBack p).toList

/-- The node that `remove` deletes, if it succeeds: `unlink` for anything but a directory, `rmdir`
for an empty directory that is not called `.`. -/
def removes (s : Store) (path : List UInt8) : Option (Path × Node) :=
  (s.place path).bind fun p =>
    match s.get p with
    | none => none
    | some .dir =>
        if s.children p = [] ∧ (names path).getLast? ≠ some dot then some (p, .dir) else none
    | some n => if Proper path then some (p, n) else none

/-- What opening for reading opens, if it succeeds.  A directory can be opened. -/
def reads (s : Store) (path : List UInt8) : Option (Path × Node) :=
  ((s.place path).map s.follow).bind fun p =>
    match s.get p with
    | none => none
    | some (.link _) => none
    | some .dir => some (p, .dir)
    | some n => if Proper path then some (p, n) else none

/-- What opening with truncation opens, if it succeeds, and what was there: a file is created if
there was nothing and the directory is there. -/
def truncates (s : Store) (path : List UInt8) : Option (Path × Option Node) :=
  ((s.place path).map s.follow).bind fun p =>
    if Proper path then
      match s.get p with
      | none => if p ≠ [] ∧ s.get p.dropLast = some .dir then some (p, none) else none
      | some (.link _) => none
      | some .dir => none
      | some n => some (p, some n)
    else none

/-- What `opendir` and `readdir` list, if they succeed, without `.` and `..`. -/
def lists (s : Store) (path : List UInt8) : Option (List Name) :=
  match s.reads path with
  | some (p, .dir) => some (s.children p)
  | _ => none

/-- The node that a path leads to. -/
def held (s : Store) (path : List UInt8) : Option Node :=
  ((s.place path).map s.follow).bind s.get

section Calls

variable {s : Store} {path : List UInt8} {p : Path}

theorem childOf_eq_some {e : Path × Node} {name : Name} :
    childOf p e = some name ↔ e.1 = p ++ [name] ∧ name ≠ dotDot := by
  unfold childOf
  constructor
  · intro h
    split at h
    · rename_i hp
      have hne : e.1 ≠ [] := by
        intro hnil
        rw [hnil] at h
        cases h
      refine ⟨?_, fun hname => hp.2 (hname ▸ h)⟩
      rw [List.getLast?_eq_getLast_of_ne_nil hne] at h
      rw [← hp.1, ← Option.some.inj h, List.dropLast_append_getLast hne]
    · cases h
  · rintro ⟨h, hname⟩
    rw [h]
    simp [hname]

/-- What lies in a directory is listed there. -/
theorem mem_children {name : Name} {n : Node} (h : s.get (p ++ [name]) = some n)
    (hname : name ≠ dotDot) : name ∈ s.children p :=
  List.mem_append_left _
    (List.mem_filterMap.mpr ⟨_, mem_of_get h, childOf_eq_some.mpr ⟨rfl, hname⟩⟩)

/-- What is removed is what the path leads to. -/
theorem place_of_removes {x : Path × Node} (h : s.removes path = some x) :
    s.place path = some x.1 ∧ s.get x.1 = some x.2 := by
  obtain ⟨q, hq, h⟩ := Option.bind_eq_some_iff.mp h
  split at h
  · cases h
  · rename_i hget
    obtain ⟨-, hpair⟩ := Option.ite_none_right_eq_some.mp h
    cases hpair
    exact ⟨hq, hget⟩
  · rename_i hget
    obtain ⟨-, hpair⟩ := Option.ite_none_right_eq_some.mp h
    cases hpair
    exact ⟨hq, hget⟩

/-- A directory is removed if it is empty. -/
theorem children_of_removes (h : s.removes path = some (p, .dir)) : s.children p = [] := by
  obtain ⟨q, -, h⟩ := Option.bind_eq_some_iff.mp h
  split at h
  · cases h
  · obtain ⟨hempty, hpair⟩ := Option.ite_none_right_eq_some.mp h
    cases hpair
    exact hempty.1
  · rename_i hdir _
    obtain ⟨-, hpair⟩ := Option.ite_none_right_eq_some.mp h
    cases hpair
    exact absurd rfl hdir

/-- What is opened for reading is what the path leads to. -/
theorem place_of_reads {n : Node} (h : s.reads path = some (p, n)) :
    (s.place path).map s.follow = some p ∧ s.get p = some n := by
  obtain ⟨q, hq, h⟩ := Option.bind_eq_some_iff.mp h
  split at h
  · cases h
  · cases h
  · rename_i hget
    cases h
    exact ⟨hq, hget⟩
  · rename_i hget
    obtain ⟨-, hpair⟩ := Option.ite_none_right_eq_some.mp h
    cases hpair
    exact ⟨hq, hget⟩

theorem held_of_place (h : (s.place path).map s.follow = some p) : s.held path = s.get p := by
  rw [held, h]
  rfl

/-- What is opened with truncation is what the path leads to, and never a link or a directory. -/
theorem place_of_truncates {was : Option Node} (h : s.truncates path = some (p, was)) :
    (s.place path).map s.follow = some p ∧ s.get p = was ∧ was ≠ some .dir ∧
      ∀ q, was ≠ some (.link q) := by
  obtain ⟨q, hq, h⟩ := Option.bind_eq_some_iff.mp h
  obtain ⟨-, h⟩ := Option.ite_none_right_eq_some.mp h
  split at h
  · rename_i hget
    obtain ⟨-, hpair⟩ := Option.ite_none_right_eq_some.mp h
    cases hpair
    exact ⟨hq, hget, by simp, by simp⟩
  · cases h
  · cases h
  · rename_i n hlink hdir hget
    cases h
    exact ⟨hq, hget, fun heq => hdir (Option.some.inj heq),
      fun q heq => hlink q (Option.some.inj heq)⟩

theorem follow_of_ne_link (h : ∀ q, s.get p ≠ some (.link q)) : s.follow p = p := by
  unfold follow
  split
  · rename_i q hlink
    exact absurd hlink (h q)
  · rfl

theorem follow_of_dir (h : s.get p = some .dir) : s.follow p = p :=
  follow_of_ne_link fun q hlink => by cases h.symm.trans hlink

/-- Where a path leads, as its node tells. -/
theorem follow_cases (s : Store) (p : Path) : s.follow p = p ∨ s.get p = some (.link (s.follow p)) := by
  unfold follow
  split
  · rename_i q hlink
    exact .inr hlink
  · exact .inl rfl

end Calls

/-! ### Names in a directory -/

section Child

variable {s : Store} {p : Path} {c : Name}

theorem wayBack_of_ne (h : p.getLast? ≠ some dotDot) : s.wayBack p = none := if_neg h

theorem stepInto_name (hdot : c ≠ dot) (hdotDot : c ≠ dotDot) (hp : p.getLast? ≠ some dotDot) :
    s.stepInto p c = p ++ [c] := by
  rw [stepInto, if_neg hdot, if_neg hdotDot, wayBack_of_ne hp]
  rfl

variable {name : Name}

/-- Where a name leads. -/
theorem place_name (s : Store) (hc : slash ∉ c) (hzero : (0 : UInt8) ∉ c) (hne : c ≠ [])
    (hdot : c ≠ dot) (hdotDot : c ≠ dotDot) : s.place c = some [c] := by
  have hstart : s.start c = [] := if_neg fun hhead => hc (List.mem_of_head? hhead)
  have hnames : names c = [c] := by
    rw [names, upToZero_of_nonzero hzero, components_of_plain hc,
      List.filter_cons_of_pos (by simpa using hne), List.filter_nil]
  rw [place, if_neg (by rw [upToZero_of_nonzero hzero]; exact hne), hstart, hnames, walk,
    stepInto_name hdot hdotDot (by decide)]
  rfl

/-- **Where a name in a directory leads.** -/
theorem place_child (s : Store) (hc : slash ∉ c) (hname : slash ∉ name) (hzero : (0 : UInt8) ∉ c)
    (hzero' : (0 : UInt8) ∉ name) (hne : c ≠ []) (hdot : c ≠ dot) (hdotDot : c ≠ dotDot) :
    s.place (c ++ slash :: name) =
      if name = [] then some [c]
      else if s.get (s.follow [c]) = some .dir then some (s.stepInto (s.follow [c]) name)
      else none := by
  have hfirst : ∃ b c', c = b :: c' := List.exists_cons_of_ne_nil hne
  obtain ⟨b, c', rfl⟩ := hfirst
  have hstart : s.start (b :: c' ++ slash :: name) = [] := by
    refine if_neg fun hhead => hc ?_
    rw [← Option.some.inj hhead]
    exact List.mem_cons_self
  have hcut : upToZero (b :: c' ++ slash :: name) ≠ [] := by
    have hb : b ≠ 0 := fun hb => hzero (hb ▸ List.mem_cons_self)
    rw [upToZero, List.cons_append, List.takeWhile_cons_of_pos (by simpa using hb)]
    exact List.cons_ne_nil _ _
  have hstep : s.stepInto [] (b :: c') = [b :: c'] :=
    stepInto_name hdot hdotDot (by decide)
  rw [place, if_neg hcut, hstart, names_child hc hname hzero hzero' hne]
  split
  · rw [walk, hstep]
  · rw [walk, hstep, walk]

end Child

/-! ### The same ways -/

/-- Every directory and every link of `s` is there in `s'`. -/
structure Routes (s s' : Store) : Prop where
  above : s'.above = s.above
  dirs : ∀ p, s.get p = some .dir → s'.get p = some .dir
  links : ∀ p q, s.get p = some (.link q) → s'.get p = some (.link q)

theorem stepInto_congr {s s' : Store} (h : s'.above = s.above) (p : Path) (c : Name) :
    s'.stepInto p c = s.stepInto p c := by
  unfold stepInto climb wayBack
  rw [h]

theorem start_congr {s s' : Store} (h : s'.above = s.above) (path : List UInt8) :
    s'.start path = s.start path := by
  simp only [start, h]

namespace Routes

variable {s s' : Store} (h : Routes s s')

include h

theorem follow_dir {p : Path} (hdir : s.get (s.follow p) = some .dir) : s'.follow p = s.follow p := by
  rcases s.follow_cases p with hsame | hlink
  · rw [hsame] at hdir ⊢
    exact follow_of_dir (h.dirs p hdir)
  · have hlink' := h.links _ _ hlink
    unfold follow at hlink' ⊢
    rw [hlink']

/-- A way through `s` is one through `s'`. -/
theorem walk {p q : Path} {cs : List Name} (hq : s.walk p cs = some q) : s'.walk p cs = some q := by
  induction cs generalizing p with
  | nil => exact hq
  | cons c cs ih =>
    cases cs with
    | nil =>
      rw [Store.walk, stepInto_congr h.above]
      exact hq
    | cons c' cs =>
      obtain ⟨hdir, hrest⟩ := Option.ite_none_right_eq_some.mp hq
      rw [Store.walk, stepInto_congr h.above, h.follow_dir hdir, if_pos (h.dirs _ hdir)]
      exact ih hrest

theorem place {path : List UInt8} {p : Path} (hp : s.place path = some p) :
    s'.place path = some p := by
  obtain ⟨hne, hwalk⟩ := Option.ite_none_left_eq_some.mp hp
  rw [Store.place, if_neg hne, start_congr h.above]
  exact h.walk hwalk

end Routes

/-- A store with another node at a path that was no directory and no link. -/
theorem routes_set {s : Store} {p : Path} (hdir : s.get p ≠ some .dir)
    (hlink : ∀ q, s.get p ≠ some (.link q)) (n : Node) : Routes s (s.set p n) := by
  refine ⟨rfl, fun q hq => ?_, fun q r hq => ?_⟩
  · have hne : q ≠ p := by
      rintro rfl
      exact hdir hq
    rw [get_set_ne _ _ hne, hq]
  · have hne : q ≠ p := by
      rintro rfl
      exact hlink r hq
    rw [get_set_ne _ _ hne, hq]

/-- A change that makes no directory and no link opens no new way. -/
theorem Reworked.routes {T : Path → Prop} {F : Option Node → Prop} {s s' : Store}
    (h : Reworked T F s s') (hdir : ¬ F (some .dir)) (hlink : ∀ q, ¬ F (some (.link q))) :
    Routes s' s := by
  refine ⟨h.above.symm, fun p hp => ?_, fun p q hp => ?_⟩
  · exact (h.get_of_not (hp.symm ▸ hdir)).symm.trans hp
  · exact (h.get_of_not (hp.symm ▸ hlink q)).symm.trans hp

/-- What a path leads to, perhaps by a link, it has led to before. -/
theorem Routes.leads {s s' : Store} (h : Routes s s') {path : List UInt8} {p : Path}
    (hp : (s.place path).map s.follow = some p) :
    ∃ q, s'.place path = some q ∧ (q = p ∨ s'.get q = some (.link p)) := by
  obtain ⟨q, hq, rfl⟩ := Option.map_eq_some_iff.mp hp
  refine ⟨q, h.place hq, ?_⟩
  rcases s.follow_cases q with hself | hlink
  · exact .inl hself.symm
  · exact .inr (h.links _ _ hlink)

/-- **What was written to a file that was opened with truncation** is what its path then holds. -/
theorem held_set {s : Store} {path : List UInt8} {p : Path} {was : Option Node}
    (h : s.truncates path = some (p, was)) (bs : List UInt8) :
    (s.set p (.file bs)).held path = some (.file bs) := by
  obtain ⟨hp, rfl, hdir, hlink⟩ := place_of_truncates h
  obtain ⟨q, hq, hfollow⟩ := Option.map_eq_some_iff.mp hp
  have hroutes := routes_set hdir hlink (.file bs)
  have hset : (s.set p (.file bs)).get p = some (.file bs) := by rw [get_set, if_pos rfl]
  have hsame : (s.set p (.file bs)).follow q = p := by
    rcases s.follow_cases q with hself | hq'
    · have hqp : q = p := hself.symm.trans hfollow
      rw [hqp, follow, hset]
    · -- a link that leads there
      rw [hfollow] at hq'
      rw [follow, hroutes.links q p hq']
  rw [held, hroutes.place hq, Option.map_some, hsame]
  exact hset

/-! ### What is looked at -/

/-- The nodes that are looked at on a way and behind its end. -/
def trailFrom (s : Store) : Path → List Name → List Path
  | p, [] => [p, s.follow p]
  | p, [c] => [s.stepInto p c, s.follow (s.stepInto p c)]
  | p, c :: c' :: cs =>
      s.stepInto p c :: s.follow (s.stepInto p c) ::
        trailFrom s (s.follow (s.stepInto p c)) (c' :: cs)

/-- The nodes that opening a path for reading looks at. -/
def trail (s : Store) (path : List UInt8) : List Path := s.trailFrom (s.start path) (names path)

section Trail

variable {s s' : Store}

theorem follow_congr {p : Path} (h : s'.get p = s.get p) : s'.follow p = s.follow p := by
  rw [follow, follow, h]

theorem walk_of_trailFrom (habove : s'.above = s.above) {p : Path} {cs : List Name}
    (h : ∀ q ∈ s.trailFrom p cs, s'.get q = s.get q) :
    s'.trailFrom p cs = s.trailFrom p cs ∧ s'.walk p cs = s.walk p cs ∧
      ∀ q, s.walk p cs = some q → s'.get q = s.get q ∧ s'.get (s.follow q) = s.get (s.follow q) := by
  induction cs generalizing p with
  | nil =>
    have hp := h p List.mem_cons_self
    have hfollow := h (s.follow p) (List.mem_cons_of_mem _ List.mem_cons_self)
    refine ⟨?_, rfl, fun q hq => ?_⟩
    · rw [trailFrom, trailFrom, follow_congr hp]
    · cases hq
      exact ⟨hp, hfollow⟩
  | cons c cs ih =>
    have hstep := stepInto_congr habove p c
    cases cs with
    | nil =>
      have hp := h (s.stepInto p c) List.mem_cons_self
      have hfollow := h (s.follow (s.stepInto p c)) (List.mem_cons_of_mem _ List.mem_cons_self)
      refine ⟨?_, ?_, fun q hq => ?_⟩
      · rw [trailFrom, trailFrom, hstep, follow_congr hp]
      · rw [walk, walk, hstep]
      · cases hq
        exact ⟨hp, hfollow⟩
    | cons c' cs =>
      rw [trailFrom] at h
      have hp := h (s.stepInto p c) List.mem_cons_self
      have hfollow := h (s.follow (s.stepInto p c)) (List.mem_cons_of_mem _ List.mem_cons_self)
      obtain ⟨htrail, hwalk, hend⟩ := ih fun q hq =>
        h q (List.mem_cons_of_mem _ (List.mem_cons_of_mem _ hq))
      refine ⟨?_, ?_, fun q hq => ?_⟩
      · rw [trailFrom, trailFrom, hstep, follow_congr hp, htrail]
      · rw [walk, walk, hstep, follow_congr hp, hfollow, hwalk]
      · exact hend q (Option.ite_none_right_eq_some.mp hq).2

/-- **What is read depends on the nodes that are looked at.** -/
theorem reads_of_trail (habove : s'.above = s.above) {path : List UInt8}
    (h : ∀ q ∈ s.trail path, s'.get q = s.get q) :
    s'.trail path = s.trail path ∧ s'.reads path = s.reads path := by
  obtain ⟨htrail, hwalk, hend⟩ := walk_of_trailFrom habove h
  have hstart := start_congr habove path
  refine ⟨by rw [trail, hstart, htrail, trail], ?_⟩
  have hplace : s'.place path = s.place path := by rw [place, place, hstart, hwalk]
  unfold reads
  rw [hplace]
  cases hp : s.place path with
  | none => rfl
  | some p =>
    obtain ⟨hnode, htarget⟩ := hend p (Option.ite_none_left_eq_some.mp hp).2
    rw [Option.map_some, Option.map_some, follow_congr hnode, Option.bind_some, Option.bind_some,
      htarget]

end Trail

end Store

/-! ### Paths that only go down -/

/-- Where a path leads that only goes down. -/
def below (path : List UInt8) : Path := (names path).filter (· ≠ dot)

/-- A path begins in the working directory and does not go up. -/
structure Direct (path : List UInt8) : Prop where
  relative : path.head? ≠ some slash
  down : dotDot ∉ names path

instance (path : List UInt8) : Decidable (Direct path) :=
  decidable_of_iff (path.head? ≠ some slash ∧ dotDot ∉ names path)
    ⟨fun h => ⟨h.1, h.2⟩, fun h => ⟨h.relative, h.down⟩⟩

namespace Store

section Direct

variable {s : Store}

theorem stepInto_down {p : Path} {c : Name} (hp : dotDot ∉ p) (hc : c ≠ dotDot) :
    s.stepInto p c = p ++ [c].filter (· ≠ dot) := by
  by_cases hdot : c = dot
  · rw [stepInto, if_pos hdot, hdot]
    exact (List.append_nil p).symm
  · have hlast : p.getLast? ≠ some dotDot := fun hlast => hp (List.mem_of_getLast? hlast)
    rw [stepInto_name hdot hc hlast, List.filter_cons_of_pos (by simpa using hdot), List.filter_nil]

theorem down_append {p : Path} {c : Name} (hp : dotDot ∉ p) (hc : c ≠ dotDot) :
    dotDot ∉ p ++ [c].filter (· ≠ dot) := by
  simp only [List.mem_append, List.mem_filter, List.mem_singleton, not_or]
  exact ⟨hp, fun h => hc h.1.symm⟩

/-- Where no link is, components lead down. -/
theorem walk_down (hlinks : ∀ p q, s.get p ≠ some (.link q)) {p q : Path} {cs : List Name}
    (hp : dotDot ∉ p) (hcs : dotDot ∉ cs) (hq : s.walk p cs = some q) :
    q = p ++ cs.filter (· ≠ dot) := by
  induction cs generalizing p with
  | nil =>
    cases hq
    exact (List.append_nil _).symm
  | cons c cs ih =>
    rw [List.mem_cons, not_or] at hcs
    have hstep := stepInto_down (s := s) hp (Ne.symm hcs.1)
    cases cs with
    | nil =>
      cases hq
      exact hstep
    | cons c' cs =>
      obtain ⟨-, hrest⟩ := Option.ite_none_right_eq_some.mp hq
      rw [follow_of_ne_link (hlinks _), hstep] at hrest
      rw [ih (down_append hp (Ne.symm hcs.1)) hcs.2 hrest, List.append_assoc, ← List.filter_append]
      rfl

/-- Everything lies in a directory, and so does what it lies in. -/
theorem dir_of_get (hparents : ∀ p c n, s.get (p ++ [c]) = some n → s.get p = some .dir)
    {p q : Path} {n : Node} (h : s.get (p ++ q) = some n) (hq : q ≠ []) : s.get p = some .dir := by
  induction q using List.reverseRecOn generalizing n with
  | nil => exact absurd rfl hq
  | append_singleton q c ih =>
    rw [← List.append_assoc] at h
    have hdir := hparents _ _ _ h
    by_cases hnil : q = []
    · rw [hnil, List.append_nil] at hdir
      exact hdir
    · exact ih hdir hnil

/-- Components whose last one is a name lead down to what is there. -/
theorem walk_of_get (hparents : ∀ p c n, s.get (p ++ [c]) = some n → s.get p = some .dir) {p : Path}
    {cs : List Name} {n : Node} (hp : dotDot ∉ p) (hcs : dotDot ∉ cs)
    (hlast : ∀ c, cs.getLast? = some c → c ≠ dot) (h : s.get (p ++ cs.filter (· ≠ dot)) = some n) :
    s.walk p cs = some (p ++ cs.filter (· ≠ dot)) := by
  induction cs generalizing p with
  | nil => rw [walk, List.filter_nil, List.append_nil]
  | cons c cs ih =>
    rw [List.mem_cons, not_or] at hcs
    have hstep := stepInto_down (s := s) hp (Ne.symm hcs.1)
    cases cs with
    | nil => rw [walk, hstep]
    | cons c' cs =>
      have hsplit : p ++ (c :: c' :: cs).filter (· ≠ dot)
          = (p ++ [c].filter (· ≠ dot)) ++ (c' :: cs).filter (· ≠ dot) := by
        rw [List.append_assoc, ← List.filter_append]
        rfl
      have hrest : (c' :: cs).filter (· ≠ dot) ≠ [] := by
        -- the last component is a name
        have hmem : (c' :: cs).getLast (List.cons_ne_nil _ _) ∈ (c' :: cs).filter (· ≠ dot) := by
          refine List.mem_filter.mpr ⟨List.getLast_mem _, ?_⟩
          have hname := hlast ((c' :: cs).getLast (List.cons_ne_nil _ _)) (by
            rw [List.getLast?_cons_cons, List.getLast?_eq_getLast_of_ne_nil (List.cons_ne_nil _ _)])
          simpa using hname
        exact List.ne_nil_of_mem hmem
      rw [hsplit] at h ⊢
      have hdir := dir_of_get hparents h hrest
      rw [walk, hstep, follow_of_dir hdir, if_pos hdir]
      exact ih (down_append hp (Ne.symm hcs.1)) hcs.2
        (fun d hd => hlast d (by rw [List.getLast?_cons_cons]; exact hd)) h

variable {path : List UInt8}

theorem start_of_direct (h : Direct path) : s.start path = [] := if_neg h.relative

/-- A path that only goes down leads down, where there is no link. -/
theorem place_of_direct (h : Direct path) (hlinks : ∀ p q, s.get p ≠ some (.link q)) {p : Path}
    (hp : s.place path = some p) : p = below path := by
  obtain ⟨-, hwalk⟩ := Option.ite_none_left_eq_some.mp hp
  rw [start_of_direct h] at hwalk
  exact walk_down hlinks List.not_mem_nil h.down hwalk

/-- The last name of a path with a proper last component. -/
theorem last_of_proper (h : Proper path) : ∀ c, (names path).getLast? = some c → c ≠ dot := by
  obtain ⟨c, hc, hne, hdot, -⟩ := h
  intro d hd
  obtain ⟨l, hl⟩ := List.getLast?_eq_some_iff.mp hc
  rw [names, hl, List.filter_append, List.filter_cons_of_pos (by simpa using hne), List.filter_nil,
    List.getLast?_concat] at hd
  exact Option.some.inj hd ▸ hdot

/-- It leads to what is there. -/
theorem place_of_get (h : Direct path) (hproper : Proper path)
    (hparents : ∀ p c n, s.get (p ++ [c]) = some n → s.get p = some .dir) {n : Node}
    (hget : s.get (below path) = some n) : s.place path = some (below path) := by
  have hne : upToZero path ≠ [] := by
    intro hnil
    obtain ⟨c, hc, hne, -, -⟩ := hproper
    rw [hnil] at hc
    cases hc
    exact hne rfl
  rw [place, if_neg hne, start_of_direct h]
  exact walk_of_get hparents List.not_mem_nil h.down (last_of_proper hproper) hget

end Direct

end Store

end Files
