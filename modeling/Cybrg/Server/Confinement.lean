import Cybrg.Server.Client

/-!
# What a client can make the server do to its files

File names are checked against `parola`, which has no slash in its alphabet, so a request leads to a
child of `SERVER_ROOT`, to `SERVER_ROOT` itself (no name, or `.`) or to its parent (`..`).  Nothing
asks what kind of node is there.

* `place_fullpath` — where the path of a request leads;
* `lands_eq` — what the system call of a request acts on;
* `Harmless` — a request does not come to a node that its system call would wrongly accept, with
  `harmless_iff`;
* `confinement` — a session whose requests are all harmless acts on regular files in `SERVER_ROOT`
  only, and leaves `SERVER_ROOT` in place;
* `root_removed` — `DELE` without a name.
-/

namespace Cybrg

open Streams Files

/-! ### Where a request leads -/

theorem slash_not_mem_of_parola {filename : Bytes} (h : parola filename = true) :
    slash ∉ filename := not_mem_of_parola h (by decide)

/-- The names in the path of a request. -/
theorem names_fullpath {filename : Bytes} (h : parola filename = true) :
    names (fullpath filename) = serverRoot :: if filename = [] then [] else [filename] :=
  names_child (by decide) (slash_not_mem_of_parola h) (by decide) (parola_nonzero h) (by decide)

/-- Where the path of a request leads, whatever `SERVER_ROOT` is. -/
theorem place_fullpath_eq (s : Store) {filename : Bytes} (h : parola filename = true) :
    s.place (fullpath filename) =
      if filename = [] then some serverRootPath
      else if s.get (s.follow serverRootPath) = some .dir
        then some (s.stepInto (s.follow serverRootPath) filename)
      else none :=
  s.place_child (by decide) (slash_not_mem_of_parola h) (by decide) (parola_nonzero h) (by decide)
    (by decide) (by decide)

/-- **Where the path of a request leads.** -/
theorem place_fullpath {s : Store} (hroot : s.get serverRootPath = some .dir) {filename : Bytes}
    (h : parola filename = true) :
    s.place (fullpath filename) =
      some (if filename = [] ∨ filename = dot then serverRootPath
        else if filename = dotDot then [] else serverRootPath ++ [filename]) := by
  have hlast : serverRootPath.getLast? ≠ some dotDot := by decide
  rw [place_fullpath_eq s h, Store.follow_of_dir hroot, if_pos hroot]
  by_cases hne : filename = []
  · rw [if_pos hne, if_pos (.inl hne)]
  · rw [if_neg hne]
    by_cases hdot : filename = dot
    · rw [if_pos (.inr hdot), Store.stepInto, if_pos hdot]
    · rw [if_neg (by simp [hne, hdot])]
      by_cases hdotDot : filename = dotDot
      · rw [if_pos hdotDot, Store.stepInto, if_neg hdot, if_pos hdotDot, Store.climb,
          if_neg (not_or.mpr ⟨by decide, hlast⟩)]
        rfl
      · rw [if_neg hdotDot, Store.stepInto_name hdot hdotDot hlast]

/-- The file names that are names. -/
theorem proper_fullpath_iff {filename : Bytes} (h : parola filename = true) :
    Proper (fullpath filename) ↔ filename ≠ [] ∧ filename ≠ dot ∧ filename ≠ dotDot := by
  have hzero : (0 : Byte) ∉ fullpath filename := by
    have hroot : (0 : Byte) ∉ serverRoot := by decide
    simp [fullpath, hroot, parola_nonzero h, slash]
  unfold Proper
  rw [upToZero_of_nonzero hzero, fullpath, components_append_slash (by decide),
    components_of_plain (slash_not_mem_of_parola h)]
  simp

/-- The path of a child of `SERVER_ROOT`. -/
def InRoot (p : Path) : Prop := ∃ filename, p = serverRootPath ++ [filename]

theorem inRoot_iff {p : Path} : InRoot p ↔ p.dropLast = serverRootPath := by
  constructor
  · intro hpre
    obtain ⟨filename, rfl⟩ := hpre
    exact List.dropLast_concat
  · intro h
    have hne : p ≠ [] := by
      rintro rfl
      cases h
    exact ⟨p.getLast hne, by rw [← h, List.dropLast_append_getLast hne]⟩

instance (p : Path) : Decidable (InRoot p) := decidable_of_iff _ inRoot_iff.symm

theorem InRoot.ne {p : Path} (h : InRoot p) : serverRootPath ≠ p := by
  rintro rfl
  exact absurd (inRoot_iff.mp h) (by decide)

/-- A proper name leads to a child of `SERVER_ROOT`. -/
theorem place_of_proper {s : Store} (hroot : s.get serverRootPath = some .dir) {filename : Bytes}
    (h : parola filename = true) (hp : Proper (fullpath filename)) :
    s.place (fullpath filename) = some (serverRootPath ++ [filename]) := by
  obtain ⟨hne, hdot, hdotDot⟩ := (proper_fullpath_iff h).mp hp
  rw [place_fullpath hroot h, if_neg (by simp [hne, hdot]), if_neg hdotDot]

/-! ### Confinement -/

/-- A system call acted on a regular file that is a child of `SERVER_ROOT`, or created one. -/
def FileOp.Confined (op : FileOp) : Prop :=
  InRoot op.path ∧
    match op.node with
    | some n => n.IsFile
    | none => op.action = .openOut

/-- Everything that has been done to files was confined, and `SERVER_ROOT` is there. -/
structure Host.Confined (h : Host) : Prop where
  ops : ∀ op ∈ h.ops, op.Confined
  root : h.store.get serverRootPath = some .dir

namespace ServerClient

/-- Where a request leads, if it leads anywhere: `remove` does not follow a symbolic link. -/
def leadsTo (s : Store) (filename : Bytes) : Action → Option Path
  | .remove => s.place (fullpath filename)
  | .openIn | .openOut => (s.place (fullpath filename)).map s.follow

/-- A request for `action` on `filename` that leads to `p` comes to nothing there that its system call
would wrongly accept: a special file; for `remove` a symbolic link or an empty directory; for `openIn`
a directory; and behind a symbolic link a file that is not in `SERVER_ROOT`, or could be created
elsewhere. -/
def HarmlessAt (s : Store) (action : Action) (filename : Bytes) (p : Path) : Prop :=
  match s.get p with
  | none => action = .openOut → InRoot p ∨ s.get p.dropLast ≠ some .dir
  | some (.file _) => InRoot p
  | some .dir =>
      match action with
      | .remove => s.children p ≠ [] ∨ filename = dot
      | .openIn => False
      | .openOut => True
  | some (.link _) => action ≠ .remove
  | some (.special _) => False

def Harmless (s : Store) (action : Action) (filename : Bytes) : Prop :=
  match leadsTo s filename action with
  | none => True
  | some p => HarmlessAt s action filename p

/-! ### One system call -/

/-- What a system call acts on, if it succeeds. -/
def lands (s : Store) (filename : Bytes) : Action → Option (Path × Option Node)
  | .remove => (s.removes (fullpath filename)).map fun x => (x.1, some x.2)
  | .openIn => (s.reads (fullpath filename)).map fun x => (x.1, some x.2)
  | .openOut => s.truncates (fullpath filename)

/-- The path of a request without a proper name is that of a directory. -/
theorem dir_of_not_proper {s : Store} {filename : Bytes} (hf : parola filename = true)
    (hcwd : s.get [] = some .dir) (hroot : s.get serverRootPath = some .dir)
    (hp : ¬ Proper (fullpath filename)) :
    ∃ p, s.place (fullpath filename) = some p ∧ s.get p = some .dir := by
  rw [proper_fullpath_iff hf] at hp
  refine ⟨_, place_fullpath hroot hf, ?_⟩
  split
  · exact hroot
  · rename_i hne
    rw [if_pos (by tauto)]
    exact hcwd

/-- A request that does not lead to a directory has a proper name. -/
theorem proper_of_get {s : Store} {action : Action} {filename : Bytes} {p : Path}
    (hf : parola filename = true) (hcwd : s.get [] = some .dir)
    (hroot : s.get serverRootPath = some .dir) (hp : leadsTo s filename action = some p)
    (hne : s.get p ≠ some .dir) : Proper (fullpath filename) := by
  by_contra hproper
  obtain ⟨q, hq, hdir⟩ := dir_of_not_proper hf hcwd hroot hproper
  have hleads : leadsTo s filename action = some q := by
    cases action with
    | remove => exact hq
    | openIn => rw [leadsTo, hq, Option.map_some, Store.follow_of_dir hdir]
    | openOut => rw [leadsTo, hq, Option.map_some, Store.follow_of_dir hdir]
  cases hp.symm.trans hleads
  exact hne hdir

/-- What a system call acts on where the request leads to `p`. -/
def landsAt (s : Store) (filename : Bytes) (action : Action) (p : Path) : Option (Path × Option Node) :=
  match s.get p with
  | none =>
      if action = .openOut ∧ Proper (fullpath filename) ∧ p ≠ [] ∧ s.get p.dropLast = some .dir
      then some (p, none) else none
  | some .dir =>
      if action = .openIn ∨ action = .remove ∧ s.children p = [] ∧ filename ≠ dot
      then some (p, some .dir) else none
  | some (.link target) =>
      if action = .remove ∧ Proper (fullpath filename) then some (p, some (.link target)) else none
  | some (.file content) =>
      if Proper (fullpath filename) then some (p, some (.file content)) else none
  | some (.special bs) =>
      if Proper (fullpath filename) then some (p, some (.special bs)) else none

/-- **What a system call acts on**, by the node that the request leads to. -/
theorem lands_eq {s : Store} {action : Action} {filename : Bytes} (hf : parola filename = true) :
    lands s filename action = (leadsTo s filename action).bind (landsAt s filename action) := by
  have hlast : (names (fullpath filename)).getLast? = some dot ↔ filename = dot := by
    rw [names_fullpath hf]
    by_cases hne : filename = []
    · rw [hne]
      decide
    · rw [if_neg hne]
      simp
  cases action with
  | remove =>
    simp only [lands, leadsTo, Store.removes, ne_eq, hlast]
    cases s.place (fullpath filename) with
    | none => rfl
    | some p =>
      simp only [Option.bind_some, landsAt]
      cases s.get p with
      | none => simp
      | some n => cases n <;> simp [apply_ite]
  | openIn =>
    simp only [lands, leadsTo, Store.reads]
    cases (s.place (fullpath filename)).map s.follow with
    | none => rfl
    | some p =>
      simp only [Option.bind_some, landsAt]
      cases s.get p with
      | none => simp
      | some n => cases n <;> simp [apply_ite]
  | openOut =>
    simp only [lands, leadsTo, Store.truncates]
    cases (s.place (fullpath filename)).map s.follow with
    | none => rfl
    | some p =>
      simp only [Option.bind_some, landsAt]
      cases s.get p with
      | none => by_cases hp : Proper (fullpath filename) <;> simp [hp]
      | some n => cases n <;> simp

/-- Nothing that is accepted where a harmless request leads is out of bounds. -/
theorem HarmlessAt.confined {s : Store} {action : Action} {filename : Bytes} {q p : Path}
    {n : Option Node} (hh : HarmlessAt s action filename q)
    (h : landsAt s filename action q = some (p, n)) : (FileOp.mk action p n).Confined := by
  unfold landsAt at h
  unfold HarmlessAt at hh
  cases hget : s.get q with
  | none =>
    rw [hget] at h hh
    obtain ⟨⟨hout, -, -, hdir⟩, hpair⟩ := Option.ite_none_right_eq_some.mp h
    cases hpair
    exact ⟨(hh hout).resolve_right fun hne => hne hdir, hout⟩
  | some m =>
    rw [hget] at h hh
    cases m with
    | file content =>
      obtain ⟨-, hpair⟩ := Option.ite_none_right_eq_some.mp h
      cases hpair
      exact ⟨hh, trivial⟩
    | dir =>
      obtain ⟨haction, -⟩ := Option.ite_none_right_eq_some.mp h
      rcases haction with rfl | ⟨rfl, hempty, hdot⟩
      · exact hh.elim
      · exact (hh.elim (fun hne => hne hempty) hdot).elim
    | link target =>
      obtain ⟨⟨haction, -⟩, -⟩ := Option.ite_none_right_eq_some.mp h
      exact absurd haction hh
    | special bs => exact hh.elim

/-- **A system call of a harmless request is confined.** -/
theorem Harmless.confined {s : Store} {action : Action} {filename : Bytes}
    (hf : parola filename = true) (hh : Harmless s action filename) {p : Path} {n : Option Node}
    (h : lands s filename action = some (p, n)) : (FileOp.mk action p n).Confined := by
  rw [lands_eq hf] at h
  obtain ⟨q, hq, h⟩ := Option.bind_eq_some_iff.mp h
  unfold Harmless at hh
  rw [hq] at hh
  exact hh.confined h

/-- Where everything that is accepted is confined, a request is harmless. -/
theorem HarmlessAt.of_confined {s : Store} {action : Action} {filename : Bytes} {q : Path}
    (hcwd : s.get [] = some .dir) (hproper : s.get q ≠ some .dir → Proper (fullpath filename))
    (h : ∀ p n, landsAt s filename action q = some (p, n) → (FileOp.mk action p n).Confined) :
    HarmlessAt s action filename q := by
  unfold landsAt at h
  unfold HarmlessAt
  cases hget : s.get q with
  | none =>
    rw [hget] at h hproper
    intro hout
    by_contra hnot
    rw [not_or, not_not] at hnot
    have hne : q ≠ [] := by
      intro hnil
      rw [hnil, hcwd] at hget
      cases hget
    have hop := h _ _ (if_pos ⟨hout, hproper (by simp), hne, hnot.2⟩)
    exact hnot.1 hop.1
  | some m =>
    rw [hget] at h hproper
    cases m with
    | file content => exact (h _ _ (if_pos (hproper (by simp)))).1
    | dir =>
      cases action with
      | remove =>
        by_contra hno
        have hop := h _ _ (if_pos (.inr ⟨rfl, by tauto⟩))
        exact hop.2
      | openIn => exact (h _ _ (if_pos (.inl rfl))).2
      | openOut => trivial
    | link target =>
      rintro rfl
      exact (h _ _ (if_pos ⟨rfl, hproper (by simp)⟩)).2
    | special bs => exact (h _ _ (if_pos (hproper (by simp)))).2

/-- **Harmlessness is exact**: a request whose system call would be confined is harmless. -/
theorem harmless_iff {s : Store} {action : Action} {filename : Bytes}
    (hf : parola filename = true) (hcwd : s.get [] = some .dir)
    (hroot : s.get serverRootPath = some .dir) :
    Harmless s action filename ↔
      ∀ p n, lands s filename action = some (p, n) → (FileOp.mk action p n).Confined := by
  refine ⟨fun hh p n h => hh.confined hf h, fun h => ?_⟩
  rw [lands_eq hf] at h
  unfold Harmless
  cases hq : leadsTo s filename action with
  | none => trivial
  | some q =>
    rw [hq] at h
    exact .of_confined hcwd (proper_of_get hf hcwd hroot hq) h

/-! ### What leaves files alone -/

variable {τ : Type}

/-- `Host.Confined`, of the host of a client object. -/
def Confined (c : Client τ) : Prop := c.host.Confined

/-- What has been done to files, and what there is. -/
def Client.files (c : Client τ) : List FileOp × Store := (c.host.ops, c.host.store)

/-- Most of the program leaves files alone. -/
def LeavesFiles {α : Type} (m : EStateM Ex (Client τ) α) : Prop :=
  Exec.Leaves Client.files m

theorem LeavesFiles.confined {α : Type} {m : EStateM Ex (Client τ) α} (h : LeavesFiles m) :
    Exec.Triple Confined m (fun _ => Confined) Confined := by
  refine Exec.Triple.of_within fun c hc => ?_
  obtain ⟨hops, hstore⟩ := Prod.mk.inj (h c)
  exact ⟨hops ▸ hc.ops, hstore ▸ hc.root⟩

theorem onLink_leaves {α : Type} (m : EStateM Ex τ α) : LeavesFiles (onLink m) :=
  .zoom fun _ _ => rfl

theorem write_leaves (bs : Bytes) : LeavesFiles (write bs : EStateM Ex (Client τ) Unit) :=
  fun _ => rfl

theorem extractWord_leaves (old : Bytes) :
    LeavesFiles (extractWord old : EStateM Ex (Client τ) Bytes) := fun _ => rfl

variable (t : Transport τ)

theorem sendCmd_leaves : LeavesFiles (sendCmd t) := by
  refine .bind .get fun c => .ite ?_ (.modify fun _ => rfl)
  refine .bind (.modify fun _ => rfl) fun _ => ?_
  exact .bind (onLink_leaves _) fun _ => .modify fun _ => rfl

theorem answer_leaves (status : Status) : LeavesFiles (answer t status) :=
  .bind (write_leaves _) fun _ => sendCmd_leaves t

theorem recvCmd_leaves : LeavesFiles (recvCmd t) := by
  refine .bind (.modify fun _ => rfl) fun _ => ?_
  exact .bind (onLink_leaves _) fun _ => .modify fun _ => rfl

theorem readDir_leaves (path : Bytes) :
    LeavesFiles (onHost (Host.readDir path) : EStateM Ex (Client τ) (Option (List Name))) :=
  fun _ => rfl

theorem cmdList_leaves : LeavesFiles (cmdList t) := by
  apply Exec.Leaves.bind (readDir_leaves _)
  intro dd
  split
  · exact answer_leaves t _
  · apply Exec.Leaves.bind (write_leaves _)
    intro _
    apply Exec.Leaves.bind (sendCmd_leaves t)
    intro _
    exact .bind (write_leaves _) fun _ => sendCmd_leaves t

theorem retrLoop_leaves (bs : Bytes) (count : ℕ) : LeavesFiles (retrLoop t bs count) := by
  induction bs generalizing count with
  | nil => exact .pure _
  | cons b bs ih =>
    apply Exec.Leaves.bind (write_leaves _)
    intro _
    refine .bind ?_ fun _ => ih _
    exact .ite (sendCmd_leaves t) (.pure _)

theorem limit_leaves (size : ℕ) :
    LeavesFiles (onHost (Host.limit size) : EStateM Ex (Client τ) ℕ) :=
  fun _ => rfl

theorem uninitialised_leaves :
    LeavesFiles (onHost Host.uninitialised : EStateM Ex (Client τ) ℤ) := fun _ => rfl

theorem extractInt64_leaves (old : ℤ) :
    LeavesFiles (extractInt64 old : EStateM Ex (Client τ) ℤ) := fun _ => rfl

/-- The file name of a request is harmless, if it is one. -/
def HarmlessName (action : Action) (filename : Bytes) (c : Client τ) : Prop :=
  parola filename = true → Harmless c.host.store action filename

/-- A word that is read is the one at the front of the stream. -/
theorem extractWord_triple {P : Client τ → Prop} {Q : Bytes → Client τ → Prop} {E : Client τ → Prop}
    (old : Bytes)
    (h : ∀ c, P c → Q (c.is.word old).1 { c with is := (c.is.word old).2 }) :
    Exec.Triple P (extractWord old) Q E := h

/-- A system call of a harmless request leaves the host confined, if what it does to the store below
`SERVER_ROOT` leaves `SERVER_ROOT` in place. -/
theorem call_triple {action : Action} {filename : Bytes} (hf : parola filename = true)
    {effect : Store → Option (Path × Option Node × Store)}
    (h : ∀ s p n s', effect s = some (p, n, s') → lands s filename action = some (p, n) ∧
      (InRoot p → s'.get serverRootPath = s.get serverRootPath)) :
    Exec.Triple (fun g : Host => g.Confined ∧ Harmless g.store action filename)
      (Host.call action effect) (fun hit g => g.Confined ∧ ∀ x, hit = some x → InRoot x.1)
      Host.Confined := by
  intro g hpre
  obtain ⟨hg, hh⟩ := hpre
  show (g.called action (g.tries (effect g.store))).Confined ∧
    ∀ x, (g.tries (effect g.store)).map (fun x => (x.1, x.2.1)) = some x → _
  cases hit : g.tries (effect g.store) with
  | none => exact ⟨⟨hg.ops, hg.root⟩, fun x hx => by cases hx⟩
  | some y =>
    obtain ⟨p, n, s'⟩ := y
    have heffect : effect g.store = some (p, n, s') := by
      unfold Host.tries at hit
      split at hit
      · cases hit
      · exact hit
    obtain ⟨hlands, hroot⟩ := h g.store p n s' heffect
    have hop := hh.confined hf hlands
    refine ⟨⟨?_, (hroot hop.1).trans hg.root⟩, fun x hx => by cases hx; exact hop.1⟩
    intro op hmem
    rcases List.mem_append.mp hmem with hmem | hmem
    · exact hg.ops op hmem
    · rw [List.mem_singleton.mp hmem]
      exact hop

theorem remove_triple {filename : Bytes} (hf : parola filename = true) :
    Exec.Triple (fun g : Host => g.Confined ∧ Harmless g.store .remove filename)
      (Host.remove (fullpath filename)) (fun _ => Host.Confined) Host.Confined := by
  refine .bind (call_triple hf ?_) fun hit => .pure fun g h => h.1
  intro s p n s' heffect
  obtain ⟨⟨q, m⟩, hr, hq⟩ := Option.map_eq_some_iff.mp heffect
  cases hq
  exact ⟨Option.map_eq_some_iff.mpr ⟨_, hr, rfl⟩, fun hin => s.get_erase_ne hin.ne⟩

theorem openIn_triple {filename : Bytes} (hf : parola filename = true) :
    Exec.Triple (fun g : Host => g.Confined ∧ Harmless g.store .openIn filename)
      (Host.openIn (fullpath filename)) (fun _ => Host.Confined) Host.Confined := by
  refine .bind (call_triple hf ?_) fun hit => .pure fun g h => h.1
  intro s p n s' heffect
  obtain ⟨⟨q, m⟩, hr, hq⟩ := Option.map_eq_some_iff.mp heffect
  cases hq
  exact ⟨Option.map_eq_some_iff.mpr ⟨_, hr, rfl⟩, fun _ => rfl⟩

theorem openOut_triple {filename : Bytes} (hf : parola filename = true) :
    Exec.Triple (fun g : Host => g.Confined ∧ Harmless g.store .openOut filename)
      (Host.openOut (fullpath filename))
      (fun path g => g.Confined ∧ ∀ p, path = some p → InRoot p) Host.Confined := by
  refine .bind (call_triple hf ?_) fun hit => .pure ?_
  · intro s p n s' heffect
    obtain ⟨⟨q, m⟩, hr, hq⟩ := Option.map_eq_some_iff.mp heffect
    cases hq
    exact ⟨hr, fun h => Store.get_truncate_ne _ h.ne⟩
  · intro g hpre
    obtain ⟨hg, hpath⟩ := hpre
    refine ⟨hg, fun p hp => ?_⟩
    obtain ⟨x, rfl, rfl⟩ := Option.map_eq_some_iff.mp hp
    exact hpath x rfl

/-- What is said of the host holds of the host of a client object. -/
theorem onHost_triple {α : Type} {m : EStateM Ex Host α} {P : Host → Prop} {Q : α → Host → Prop}
    {E : Host → Prop} (h : Exec.Triple P m Q E) :
    Exec.Triple (fun c : Client τ => P c.host) (onHost m) (fun a c => Q a c.host)
      (fun c => E c.host) :=
  .zoom_part (fun _ _ => rfl) h

/-! ### The handlers stay confined -/

/-- What leaves files alone does not make a name harmful. -/
theorem LeavesFiles.harmless {α : Type} {m : EStateM Ex (Client τ) α} (h : LeavesFiles m)
    {action : Action} {filename : Bytes} :
    Exec.Triple (fun c => Confined c ∧ Harmless c.host.store action filename) m
      (fun _ c => Confined c ∧ Harmless c.host.store action filename) Confined := by
  intro c hpre
  obtain ⟨hc, hh⟩ := hpre
  have hconf := h.confined c hc
  cases hr : m.run c with
  | ok a c' =>
    rw [hr] at hconf
    have hstore : c'.host.store = c.host.store := (Prod.mk.inj (h.of_ok hr)).2
    exact ⟨hconf, hstore ▸ hh⟩
  | error e c' =>
    rw [hr] at hconf
    exact hconf

theorem cmdDele_confined :
    Exec.Triple (fun c => Confined c ∧ HarmlessName .remove (c.is.word []).1 c) (cmdDele t)
      (fun _ => Confined) Confined := by
  refine .bind (R := fun filename c => Confined c ∧ HarmlessName .remove filename c)
    (extractWord_triple [] fun c h => h) fun filename => ?_
  refine .ite (fun _ => (answer_leaves t _).confined.pre fun c h => h.1) fun hf => ?_
  have hname : parola filename = true := by simpa using hf
  refine .bind ((onHost_triple (remove_triple hname)).pre fun c h => ⟨h.1, h.2 hname⟩)
    fun removed => ?_
  exact .ite (fun _ => (answer_leaves t _).confined) fun _ => (answer_leaves t _).confined

theorem cmdRetr_confined :
    Exec.Triple (fun c => Confined c ∧ HarmlessName .openIn (c.is.word []).1 c) (cmdRetr t)
      (fun _ => Confined) Confined := by
  refine .bind (R := fun filename c => Confined c ∧ HarmlessName .openIn filename c)
    (extractWord_triple [] fun c h => h) fun filename => ?_
  refine .ite (fun _ => (answer_leaves t _).confined.pre fun c h => h.1) fun hf => ?_
  have hname : parola filename = true := by simpa using hf
  refine .bind ((onHost_triple (openIn_triple hname)).pre fun c h => ⟨h.1, h.2 hname⟩)
    fun file => ?_
  cases file with
  | none => exact (answer_leaves t _).confined
  | some node =>
    apply LeavesFiles.confined
    apply Exec.Leaves.bind .get
    intro c
    apply Exec.Leaves.bind (limit_leaves _)
    intro readable
    apply Exec.Leaves.bind (write_leaves _)
    intro _
    apply Exec.Leaves.bind (sendCmd_leaves t)
    intro _
    exact .bind (retrLoop_leaves t _ _) fun _ => sendCmd_leaves t

theorem storLoop_confined {path : Path} (hpath : InRoot path) (size : ℤ) (n : ℕ) (received : ℤ)
    (writable : ℕ) :
    Exec.Triple Confined (storLoop t path size n received writable) (fun _ => Confined)
      Confined := by
  induction n generalizing received writable with
  | zero => exact .pure fun c hc => hc
  | succ n ih =>
    refine .ite (fun _ => ?_) fun _ => .pure fun c hc => hc
    apply Exec.Triple.bind (onLink_leaves _).confined
    intro fragment
    refine .bind (R := fun _ => Confined) ?_ fun _ => ih _ _
    exact onHost_triple (.modify fun g hg => ⟨hg.ops, (Store.get_append_ne _ hpath.ne _).trans hg.root⟩)

theorem cmdStor_confined :
    Exec.Triple (fun c => Confined c ∧ HarmlessName .openOut (c.is.word []).1 c) (cmdStor t)
      (fun _ => Confined) Confined := by
  refine .bind (R := fun filename c => Confined c ∧ HarmlessName .openOut filename c)
    (extractWord_triple [] fun c h => h) fun filename => ?_
  refine .ite (fun _ => (answer_leaves t _).confined.pre fun c h => h.1) fun hf => ?_
  have hname : parola filename = true := by simpa using hf
  apply Exec.Triple.bind ((extractWord_leaves []).harmless.pre fun c h => ⟨h.1, h.2 hname⟩)
  intro tag
  apply Exec.Triple.bind uninitialised_leaves.harmless
  intro stale
  apply Exec.Triple.bind (extractInt64_leaves stale).harmless
  intro size
  refine .ite (fun _ => (answer_leaves t _).confined.pre fun c h => h.1) fun _ => ?_
  refine .ite (fun _ => (answer_leaves t _).confined.pre fun c h => h.1) fun _ => ?_
  apply Exec.Triple.bind (onHost_triple (openOut_triple hname))
  intro file
  cases file with
  | none => exact (answer_leaves t _).confined.pre fun c h => h.1
  | some path =>
    intro c hpre
    obtain ⟨hc, hpath⟩ := hpre
    have hin := hpath path rfl
    revert hc
    refine Exec.Triple.bind (answer_leaves t _).confined (fun _ => ?_) c
    exact .bind (limit_leaves _).confined fun writable => storLoop_confined t hin _ _ _ _

/-- A note that a handler was run leaves files alone. -/
theorem handle_confined {h : Handler} {m : EStateM Ex (Client τ) Unit} {P : Client τ → Prop}
    (hP : ∀ c, P c → P { c with handlers := c.handlers ++ [h] })
    (hm : Exec.Triple P m (fun _ => Confined) Confined) :
    Exec.Triple P (handle h m) (fun _ => Confined) Confined :=
  .bind (R := fun _ => P) (.modify hP) fun _ => hm

/-- The request that has been read up to its first word is harmless. -/
structure HarmlessRequest (c : Client τ) : Prop where
  dele : c.cmd = text "DELE" → HarmlessName .remove (c.is.word []).1 c
  retr : c.cmd = text "RETR" → HarmlessName .openIn (c.is.word []).1 c
  stor : c.cmd = text "STOR" → HarmlessName .openOut (c.is.word []).1 c

theorem dispatch_confined (cmd : Bytes) :
    Exec.Triple (fun c => Confined c ∧ c.cmd = cmd ∧ HarmlessRequest c) (dispatch t cmd)
      (fun _ => Confined) Confined := by
  unfold dispatch
  refine .ite (fun h => ?_) fun _ => .ite (fun h => ?_) fun _ => .ite (fun h => ?_) fun _ =>
    .ite (fun h => ?_) fun _ => .ite (fun h => ?_) fun _ => ?_
  · refine .bind ((handle_confined ?_ (cmdDele_confined t)).pre ?_) fun _ => .pure fun c hc => hc
    · exact fun c hc => hc
    · exact fun c hc => ⟨hc.1, hc.2.2.dele (hc.2.1.trans h)⟩
  · refine .bind ((handle_confined ?_ (cmdList_leaves t).confined).pre ?_) fun _ =>
      .pure fun c hc => hc
    · exact fun c hc => hc
    · exact fun c hc => hc.1
  · exact .bind ((answer_leaves t _).confined.pre fun c hc => hc.1) fun _ => .pure fun c hc => hc
  · refine .bind ((handle_confined ?_ (cmdRetr_confined t)).pre ?_) fun _ => .pure fun c hc => hc
    · exact fun c hc => hc
    · exact fun c hc => ⟨hc.1, hc.2.2.retr (hc.2.1.trans h)⟩
  · refine .bind ((handle_confined ?_ (cmdStor_confined t)).pre ?_) fun _ => .pure fun c hc => hc
    · exact fun c hc => hc
    · exact fun c hc => ⟨hc.1, hc.2.2.stor (hc.2.1.trans h)⟩
  · exact .bind ((answer_leaves t _).confined.pre fun c hc => hc.1) fun _ => .pure fun c hc => hc

/-! ### Sessions -/

/-- **Confinement to the root directory.**  In a session all of whose requests are harmless, every
system call acts on a regular file that is a child of `SERVER_ROOT`, and `SERVER_ROOT` is there at
the end. -/
theorem confinement {n : ℕ} {c : Client τ} (hc : Confined c)
    (h : Machine.Meets (Loop.step t) (Round t HarmlessRequest) ⟨true, c⟩ (List.replicate n ())) :
    Confined (Exec.endState ((serve t n).run c)) :=
  serve_invariant t (fun _ hc => hc) (recvCmd_leaves t).confined (fun _ hc => hc)
    (dispatch_confined t) hc h

instance (s : Store) (action : Action) (filename : Bytes) (p : Path) :
    Decidable (HarmlessAt s action filename p) := by
  unfold HarmlessAt
  split
  · infer_instance
  · infer_instance
  · split <;> infer_instance
  · infer_instance
  · infer_instance

instance (s : Store) (action : Action) (filename : Bytes) :
    Decidable (Harmless s action filename) := by
  unfold Harmless
  split <;> infer_instance

instance (c : Client τ) : Decidable (HarmlessRequest c) :=
  decidable_of_iff ((c.cmd = text "DELE" → parola (c.is.word []).1 = true →
        Harmless c.host.store .remove (c.is.word []).1) ∧
      (c.cmd = text "RETR" → parola (c.is.word []).1 = true →
        Harmless c.host.store .openIn (c.is.word []).1) ∧
      (c.cmd = text "STOR" → parola (c.is.word []).1 = true →
        Harmless c.host.store .openOut (c.is.word []).1))
    ⟨fun h => ⟨h.1, h.2.1, h.2.2⟩, fun h => ⟨h.dele, h.retr, h.stor⟩⟩

/-- A client that has sent `stream`, on a file store with an empty `SERVER_ROOT`. -/
def emptyRoot (stream : Bytes) : Client Bytes :=
  { link := stream, host := { store := { entries := [([], .dir), (serverRootPath, .dir)], nodup := by decide } } }

theorem emptyRoot_confined (stream : Bytes) : Confined (emptyRoot stream) :=
  ⟨fun _ h => (List.not_mem_nil h).elim, rfl⟩

/-- That client after at most `n` requests. -/
def afterRequests (n : ℕ) (stream : Bytes) : Client Bytes :=
  Exec.endState ((serve .plain n).run (emptyRoot stream))

/-- An upload, a download and a removal. -/
theorem confinement_upload :
    Confined (afterRequests 4 (text "STOR a\nSize: 2\n\nxyRETR a\n\nDELE a\n\nQUIT\n\n")) := by
  refine confinement .plain (emptyRoot_confined _) ?_
  decide +kernel

/-- **`DELE` without a name removes `SERVER_ROOT`** when it is empty, and `RETR` without a name
opens it. -/
theorem root_removed :
    Confined (emptyRoot (text "DELE\n\n")) ∧
      (afterRequests 1 (text "DELE\n\n")).host.store.get serverRootPath = none ∧
      (afterRequests 1 (text "RETR\n\n")).host.ops = [⟨.openIn, serverRootPath, some .dir⟩] := by
  refine ⟨emptyRoot_confined _, ?_, ?_⟩
  · decide +kernel
  · decide +kernel

end ServerClient

end Cybrg
