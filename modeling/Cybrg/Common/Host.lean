import Cybrg.Common.Protocol
import Cybrg.Library.Exec
import Cybrg.Library.PathWalk

/-!
# The operating system under a program

Both programs work on files by the paths they are given.  The files are a `Files.Store`; what the
system decides by itself (which calls fail, how far a file can be read or written, what lies in a
variable that was not written) is data.  The calls on paths that succeeded are recorded in `ops`,
which no program reads.

* `Host.call` — a call on a path, with `remove`, `openIn`, `openOut` as its instances;
* `Host.readDir`, `Host.contents`, `Host.append` — directories and open files;
* `Host.isFile` — `stat`;
* `Host.limit`, `Host.uninitialised` — how far a file goes, and what was not written;
* `Host.Since` — the system decides its calls one after the other.
-/

namespace Cybrg

open Files

/-- The system calls on a path. -/
inductive Action where
  | remove
  | openIn
  | openOut
  deriving DecidableEq

/-- A system call that succeeded: where it led and what was there. -/
structure FileOp where
  action : Action
  path : Path
  node : Option Node
  deriving DecidableEq

structure Host where
  store : Store
  /-- Whether the next system calls on paths fail, whatever they are asked for; none fails past
  the end. -/
  faults : List Bool := []
  /-- How many bytes the next files can be read, or written, before the system refuses; all past
  the end. -/
  limits : List ℕ := []
  /-- What the next variables hold that are read without having been written. -/
  stale : List ℤ := []
  /-- What lies in an array that was not initialised. -/
  junk : ℕ → Byte := fun _ => 0
  /-- Where the end of an open directory or device is, for `tellg`. -/
  otherEnd : ℤ := 0
  ops : List FileOp := []

/-- A number as an `int64_t` holds it. -/
def toInt64 (z : ℤ) : ℤ := Int.bmod z (2 ^ 64)

namespace Host

/-- What a system call does that could do `x`, if it does not fail for another reason. -/
def tries {α : Type} (h : Host) (x : Option α) : Option α :=
  if h.faults.headD false then none else x

/-- The host after a system call that did nothing, or acted on a path and left a store. -/
def called (h : Host) (action : Action) : Option (Path × Option Node × Store) → Host
  | none => { h with faults := h.faults.tail }
  | some (p, n, s) =>
      { h with faults := h.faults.tail, store := s, ops := h.ops ++ [⟨action, p, n⟩] }

/-- A system call on the file store; where it led and what was there, if it succeeded. -/
def call (action : Action) (effect : Store → Option (Path × Option Node × Store)) :
    EStateM Ex Host (Option (Path × Option Node)) := do
  let h ← get
  let hit := h.tries (effect h.store)
  set (h.called action hit)
  return hit.map fun x => (x.1, x.2.1)

/-- `remove(path)`, and whether it returned zero. -/
def remove (path : Bytes) : EStateM Ex Host Bool := do
  let hit ← call .remove fun s => (s.removes path).map fun x => (x.1, some x.2, s.erase x.1)
  return hit.isSome

/-- Open for reading: what was opened, or nothing if `! file`. -/
def openIn (path : Bytes) : EStateM Ex Host (Option Node) := do
  let hit ← call .openIn fun s => (s.reads path).map fun x => (x.1, some x.2, s)
  return hit.bind (·.2)

/-- Open for writing, with truncation: where the file is, or nothing if `! file`. -/
def openOut (path : Bytes) : EStateM Ex Host (Option Path) := do
  let hit ← call .openOut fun s => (s.truncates path).map fun x => (x.1, x.2, s.truncate x.1)
  return hit.map (·.1)

/-- `opendir(path)` and every `readdir`, without `.` and `..`. -/
def readDir (path : Bytes) : EStateM Ex Host (Option (List Name)) := do
  let h ← get
  modify fun h => { h with faults := h.faults.tail }
  return h.tries (h.store.lists path)

/-- How many bytes of a file of `size` bytes can be read or written. -/
def limit (size : ℕ) : EStateM Ex Host ℕ := do
  let h ← get
  modify fun h => { h with limits := h.limits.tail }
  return h.limits.headD size

/-- A variable that was not initialised. -/
def uninitialised : EStateM Ex Host ℤ := do
  let h ← get
  modify fun h => { h with stale := h.stale.tail }
  return toInt64 (h.stale.headD 0)

/-- What can be read from an open node, and the position of its end.  Reading a directory
fails. -/
def contents (h : Host) : Node → Bytes × ℤ
  | .file content => (content, toInt64 content.length)
  | .special reads => (reads, toInt64 h.otherEnd)
  | .dir | .link _ => ([], toInt64 h.otherEnd)

/-- `S_ISREG` of what `stat` reports, which is what opening for reading would find; if `stat` fails, of
what lies in the structure. -/
def isFile (path : Bytes) : EStateM Ex Host Bool := do
  let h ← get
  modify fun h => { h with faults := h.faults.tail }
  match h.tries ((h.store.reads path).map Prod.snd) with
  | some (.file _) => return true
  | some _ => return false
  | none =>
      let mode ← uninitialised
      return mode ≠ 0

/-- Write at the end of an open file. -/
def append (path : Path) (bs : Bytes) : EStateM Ex Host Unit :=
  modify fun h => { h with store := h.store.append path bs }

/-- The host after this. -/
def appended (h : Host) (path : Path) (bs : Bytes) : Host :=
  { h with store := h.store.append path bs }

/-! ### What the calls do -/

theorem called_faults (h : Host) (action : Action) (x : Option (Path × Option Node × Store)) :
    (h.called action x).faults = h.faults.tail := by
  cases x <;> rfl

theorem called_limits (h : Host) (action : Action) (x : Option (Path × Option Node × Store)) :
    (h.called action x).limits = h.limits := by
  cases x <;> rfl

theorem of_tries {α : Type} {h : Host} {x : Option α} {a : α} (ht : h.tries x = some a) :
    x = some a := by
  unfold tries at ht
  split at ht
  · cases ht
  · exact ht

theorem tries_map {α β : Type} (h : Host) (x : Option α) (f : α → β) :
    h.tries (x.map f) = (h.tries x).map f := by
  unfold tries
  split <;> rfl

theorem run_remove (path : Bytes) (h : Host) :
    (remove path).run h = .ok (h.tries (h.store.removes path)).isSome
      (h.called .remove ((h.tries (h.store.removes path)).map fun x =>
        (x.1, some x.2, h.store.erase x.1))) := by
  have hcall : (remove path).run h = .ok
      ((h.tries ((h.store.removes path).map fun x =>
        (x.1, some x.2, h.store.erase x.1))).map fun x => (x.1, x.2.1)).isSome
      (h.called .remove (h.tries ((h.store.removes path).map fun x =>
        (x.1, some x.2, h.store.erase x.1)))) := rfl
  rw [hcall, tries_map]
  cases h.tries (h.store.removes path) <;> rfl

theorem run_openIn (path : Bytes) (h : Host) :
    (openIn path).run h = .ok ((h.tries (h.store.reads path)).map Prod.snd)
      (h.called .openIn ((h.tries (h.store.reads path)).map fun x =>
        (x.1, some x.2, h.store))) := by
  have hcall : (openIn path).run h = .ok
      (((h.tries ((h.store.reads path).map fun x =>
        (x.1, some x.2, h.store))).map fun x => (x.1, x.2.1)).bind (·.2))
      (h.called .openIn (h.tries ((h.store.reads path).map fun x =>
        (x.1, some x.2, h.store)))) := rfl
  rw [hcall, tries_map]
  cases h.tries (h.store.reads path) <;> rfl

theorem run_openOut (path : Bytes) (h : Host) :
    (openOut path).run h = .ok ((h.tries (h.store.truncates path)).map Prod.fst)
      (h.called .openOut ((h.tries (h.store.truncates path)).map fun x =>
        (x.1, x.2, h.store.truncate x.1))) := by
  have hcall : (openOut path).run h = .ok
      (((h.tries ((h.store.truncates path).map fun x =>
        (x.1, x.2, h.store.truncate x.1))).map fun x => (x.1, x.2.1)).map (·.1))
      (h.called .openOut (h.tries ((h.store.truncates path).map fun x =>
        (x.1, x.2, h.store.truncate x.1)))) := rfl
  rw [hcall, tries_map]
  cases h.tries (h.store.truncates path) <;> rfl

/-- The host after a call that took no path. -/
def passed (h : Host) : Host := { h with faults := h.faults.tail }

theorem run_readDir (path : Bytes) (h : Host) :
    (readDir path).run h = .ok (h.tries (h.store.lists path)) h.passed := rfl

/-- The host after it has told how far a file goes. -/
def limited (h : Host) : Host := { h with limits := h.limits.tail }

theorem run_limit (size : ℕ) (h : Host) :
    (limit size).run h = .ok (h.limits.headD size) h.limited := rfl

/-- The host after a variable was read that was not written. -/
def recalled (h : Host) : Host := { h with stale := h.stale.tail }

theorem run_uninitialised (h : Host) :
    uninitialised.run h = .ok (toInt64 (h.stale.headD 0)) h.recalled := rfl

/-! ### Later hosts -/

/-- The system has decided some more calls. -/
structure Since (h h' : Host) : Prop where
  faults : h'.faults <:+ h.faults
  limits : h'.limits <:+ h.limits

theorem since_path : Exec.Path Since where
  refl _ := ⟨List.suffix_rfl, List.suffix_rfl⟩
  trans _ _ _ h g := ⟨g.faults.trans h.faults, g.limits.trans h.limits⟩

theorem since_call (action : Action) (effect : Store → Option (Path × Option Node × Store)) :
    Exec.Within Since (call action effect) := by
  intro h
  show h.Since (h.called action (h.tries (effect h.store)))
  refine ⟨?_, ?_⟩
  · rw [called_faults]
    exact List.tail_suffix _
  · rw [called_limits]

theorem since_openIn (path : Bytes) : Exec.Within Since (openIn path) :=
  .bind since_path (since_call _ _) fun _ => .pure since_path _

theorem since_openOut (path : Bytes) : Exec.Within Since (openOut path) :=
  .bind since_path (since_call _ _) fun _ => .pure since_path _

theorem since_remove (path : Bytes) : Exec.Within Since (remove path) :=
  .bind since_path (since_call _ _) fun _ => .pure since_path _

theorem since_readDir (path : Bytes) : Exec.Within Since (readDir path) :=
  fun _ => ⟨List.tail_suffix _, List.suffix_rfl⟩

theorem since_limit (size : ℕ) : Exec.Within Since (limit size) :=
  fun _ => ⟨List.suffix_rfl, List.tail_suffix _⟩

theorem since_uninitialised : Exec.Within Since uninitialised :=
  fun _ => ⟨List.suffix_rfl, List.suffix_rfl⟩

theorem since_append (path : Path) (bs : Bytes) : Exec.Within Since (append path bs) :=
  fun _ => ⟨List.suffix_rfl, List.suffix_rfl⟩

theorem appended_nil (h : Host) (path : Path) : h.appended path [] = h := by
  rw [appended, Store.append_nil]

end Host

end Cybrg
