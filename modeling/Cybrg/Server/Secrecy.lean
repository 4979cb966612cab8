import Cybrg.Library.TwoRuns
import Cybrg.Library.Views
import Cybrg.Server.Confinement

/-!
# What a server tells of its files

What lies beside `SERVER_ROOT` cannot be found out in a session.

* `inSight` — the working directory and what is below `SERVER_ROOT`;
* `Unseen` — two stores that differ out of sight only, with the system calls of a session on both;
* `Blind` — programs that do the same on both;
* `nothing_else_shows` — a session is the same on both, to its last byte.
-/

namespace Cybrg

open Streams Files

namespace ServerClient

/-! ### Stores that differ beside `SERVER_ROOT` -/

/-- The working directory, `SERVER_ROOT` and everything below. -/
def inSight (p : Path) : Bool := p.head?.all (· == serverRoot)

theorem inSight_child {p : Path} (hp : inSight p = true) (hne : p ≠ []) (name : Name) :
    inSight (p ++ [name]) = true := by
  cases p with
  | nil => exact absurd rfl hne
  | cons a p => exact hp

theorem inSight_dropLast {p : Path} (hp : inSight p = true) : inSight p.dropLast = true := by
  cases p with
  | nil => rfl
  | cons a p =>
    cases p with
    | nil => rfl
    | cons b p => exact hp

/-- A step from a directory in sight stays there, but for the working directory. -/
theorem inSight_stepInto {s : Store} {p : Path} (hp : inSight p = true) (hne : p ≠ []) (c : Name) :
    inSight (s.stepInto p c) = true := by
  unfold Store.stepInto Store.climb
  split
  · exact hp
  split
  · split
    · split
      · exact inSight_child hp hne _
      · exact hp
    · exact inSight_dropLast hp
  split
  · exact inSight_dropLast hp
  · exact inSight_child hp hne _

/-- The working directory has something that is not `SERVER_ROOT`. -/
def HasOther (s : Store) : Prop :=
  ∃ name, name ≠ dotDot ∧ inSight [name] = false ∧ s.get [name] ≠ none

/-- Two stores differ out of sight only.  No symbolic link that can be seen leads there, `SERVER_ROOT`
is none to the working directory, and on both the server has more than `SERVER_ROOT` in its working
directory. -/
structure Unseen (s s' : Store) : Prop where
  alike : s.Alike inSight s'
  inside : ∀ p q, inSight p = true → s.get p = some (.link q) → inSight q = true
  root : s.get serverRootPath ≠ some (.link [])
  other : HasOther s
  other' : HasOther s'

theorem HasOther.children {s : Store} (h : HasOther s) : s.children [] ≠ [] := by
  obtain ⟨name, hname, -, hget⟩ := h
  obtain ⟨n, hn⟩ := Option.ne_none_iff_exists'.mp hget
  exact List.ne_nil_of_mem (Store.mem_children (p := []) hn hname)

theorem HasOther.of_get {s s₁ : Store} (h : HasOther s) {p : Path} (hp : inSight p = true)
    (hget : ∀ q, q ≠ p → s₁.get q = s.get q) : HasOther s₁ := by
  obtain ⟨name, hne, hname, hn⟩ := h
  refine ⟨name, hne, hname, ?_⟩
  rw [hget]
  · exact hn
  · rintro rfl
    rw [hname] at hp
    cases hp

namespace Unseen

variable {s s' : Store} (h : Unseen s s')

include h

theorem inSight_follow {p : Path} (hp : inSight p = true) : inSight (s.follow p) = true := by
  rcases s.follow_cases p with hself | hlink
  · rw [hself]
    exact hp
  · exact h.inside _ _ hp hlink

theorem root_ne_nil : s.follow serverRootPath ≠ [] := by
  rcases s.follow_cases serverRootPath with hself | hlink
  · rw [hself]
    exact List.cons_ne_nil _ _
  · intro hnil
    rw [hnil] at hlink
    exact h.root hlink

variable {filename : Bytes} (hf : parola filename = true)

include hf

/-- The path of a request leads to the same on both. -/
theorem place : s.place (fullpath filename) = s'.place (fullpath filename) := by
  have hroot := h.inSight_follow (p := serverRootPath) rfl
  rw [place_fullpath_eq s hf, place_fullpath_eq s' hf, ← h.alike.follow rfl, h.alike.get hroot,
    h.alike.stepInto]

/-- Every file name leads into sight. -/
theorem inSight_place {p : Path} (hp : s.place (fullpath filename) = some p) :
    inSight p = true := by
  rw [place_fullpath_eq s hf] at hp
  split at hp
  · cases hp
    rfl
  · obtain ⟨-, hstep⟩ := Option.ite_none_right_eq_some.mp hp
    cases hstep
    exact inSight_stepInto (h.inSight_follow rfl) h.root_ne_nil filename

theorem inSight_opened {p : Path} (hp : (s.place (fullpath filename)).map s.follow = some p) :
    inSight p = true := by
  obtain ⟨q, hq, rfl⟩ := Option.map_eq_some_iff.mp hp
  exact h.inSight_follow (h.inSight_place hf hq)

theorem removes : s.removes (fullpath filename) = s'.removes (fullpath filename) := by
  refine h.alike.removes (h.place hf) fun p hp => ⟨h.inSight_place hf hp, ?_⟩
  by_cases hnil : p = []
  · rw [hnil]
    exact iff_of_false h.other.children h.other'.children
  · rw [h.alike.children (inSight_child (h.inSight_place hf hp) hnil)]

theorem reads : s.reads (fullpath filename) = s'.reads (fullpath filename) :=
  h.alike.reads (h.place hf) fun _ hp =>
    ⟨h.inSight_place hf hp, h.inSight_follow (h.inSight_place hf hp)⟩

theorem truncates : s.truncates (fullpath filename) = s'.truncates (fullpath filename) :=
  h.alike.truncates (h.place hf) fun _ hp =>
    have hsight := h.inSight_follow (h.inSight_place hf hp)
    ⟨h.inSight_place hf hp, hsight, inSight_dropLast hsight⟩

omit hf

/-- `SERVER_ROOT` is listed in the same way. -/
theorem lists : s.lists serverRoot = s'.lists serverRoot := by
  have hplace : ∀ s : Store, s.place serverRoot = some serverRootPath := fun s =>
    s.place_name (by decide) (by decide) (by decide) (by decide) (by decide)
  refine h.alike.lists ((hplace s).trans (hplace s').symm) fun p hp => ?_
  cases (hplace s).symm.trans hp
  have hsight := h.inSight_follow (p := serverRootPath) rfl
  exact ⟨rfl, hsight, inSight_child hsight h.root_ne_nil⟩

/-- Both stores change at a path in sight, and there is no new link. -/
theorem change {s₁ s₁' : Store} {p : Path} (hp : inSight p = true) (halike : s₁.Alike inSight s₁')
    (hget : ∀ q, q ≠ p → s₁.get q = s.get q) (hget' : ∀ q, q ≠ p → s₁'.get q = s'.get q)
    (hlink : ∀ q, s₁.get p = some (.link q) → s.get p = some (.link q)) : Unseen s₁ s₁' := by
  have hlinks : ∀ r q, s₁.get r = some (.link q) → s.get r = some (.link q) := by
    intro r q hq
    by_cases hrp : r = p
    · subst hrp
      exact hlink q hq
    · exact hget r hrp ▸ hq
  exact ⟨halike, fun r q hr hq => h.inside _ _ hr (hlinks r q hq), fun hroot => h.root (hlinks _ _ hroot),
    h.other.of_get hp hget, h.other'.of_get hp hget'⟩

theorem erase {p : Path} (hp : inSight p = true) : Unseen (s.erase p) (s'.erase p) := by
  refine h.change hp (h.alike.erase p) (fun _ hq => s.get_erase_ne hq)
    (fun _ hq => s'.get_erase_ne hq) fun q hq => ?_
  rw [s.get_erase_self] at hq
  cases hq

theorem truncate {p : Path} (hp : inSight p = true) : Unseen (s.truncate p) (s'.truncate p) := by
  refine h.change hp (h.alike.truncate hp) (fun _ hq => s.get_truncate_ne hq)
    (fun _ hq => s'.get_truncate_ne hq) fun q hq => ?_
  unfold Store.truncate at hq
  split at hq
  · exact hq
  · rw [Store.get_set, if_pos rfl] at hq
    cases hq

theorem append {p : Path} (hp : inSight p = true) (bs : Bytes) :
    Unseen (s.append p bs) (s'.append p bs) := by
  refine h.change hp (h.alike.append hp bs) (fun _ hq => s.get_append_ne hq bs)
    (fun _ hq => s'.get_append_ne hq bs) fun q hq => ?_
  unfold Store.append at hq
  split at hq
  · rw [Store.get_set, if_pos rfl] at hq
    cases hq
  · exact hq

end Unseen

/-! ### The calls of the system -/

/-- Two systems that differ out of sight only. -/
def HostTwins (g g' : Host) : Prop := ∃ s', Unseen g.store s' ∧ g' = { g with store := s' }

/-- Two objects on such systems. -/
def Twins {τ : Type} (c c' : Client τ) : Prop :=
  ∃ g', HostTwins c.host g' ∧ c' = { c with host := g' }

/-- A call that comes to the same on both systems. -/
def HostBlind {α : Type} (m : EStateM Ex Host α) : Prop :=
  ∀ g g', HostTwins g g' → Exec.Agree HostTwins (m.run g) (m.run g')

theorem remove_blind {filename : Bytes} (hf : parola filename = true) :
    HostBlind (Host.remove (fullpath filename)) := by
  rintro g g' ⟨s', hs, rfl⟩
  rw [Host.run_remove, Host.run_remove]
  show Exec.Agree HostTwins _ (.ok (g.tries (s'.removes (fullpath filename))).isSome
    (Host.called { g with store := s' } .remove ((g.tries (s'.removes (fullpath filename))).map
      fun x => (x.1, some x.2, s'.erase x.1))))
  rw [← hs.removes hf]
  cases hx : g.tries (g.store.removes (fullpath filename)) with
  | none => exact .ok ⟨s', hs, rfl⟩
  | some x =>
    have hplace := (Store.place_of_removes (Host.of_tries hx)).1
    exact .ok ⟨_, hs.erase (hs.inSight_place hf hplace), rfl⟩

theorem openIn_blind {filename : Bytes} (hf : parola filename = true) :
    HostBlind (Host.openIn (fullpath filename)) := by
  rintro g g' ⟨s', hs, rfl⟩
  rw [Host.run_openIn, Host.run_openIn]
  show Exec.Agree HostTwins _ (.ok ((g.tries (s'.reads (fullpath filename))).map Prod.snd)
    (Host.called { g with store := s' } .openIn ((g.tries (s'.reads (fullpath filename))).map
      fun x => (x.1, some x.2, s'))))
  rw [← hs.reads hf]
  cases g.tries (g.store.reads (fullpath filename)) with
  | none => exact .ok ⟨s', hs, rfl⟩
  | some x => exact .ok ⟨s', hs, rfl⟩

theorem openOut_blind {filename : Bytes} (hf : parola filename = true) :
    HostBlind (Host.openOut (fullpath filename)) := by
  rintro g g' ⟨s', hs, rfl⟩
  rw [Host.run_openOut, Host.run_openOut]
  show Exec.Agree HostTwins _ (.ok ((g.tries (s'.truncates (fullpath filename))).map Prod.fst)
    (Host.called { g with store := s' } .openOut ((g.tries (s'.truncates (fullpath filename))).map
      fun x => (x.1, x.2, s'.truncate x.1))))
  rw [← hs.truncates hf]
  cases hx : g.tries (g.store.truncates (fullpath filename)) with
  | none => exact .ok ⟨s', hs, rfl⟩
  | some x =>
    have hopened := (Store.place_of_truncates (Host.of_tries hx)).1
    exact .ok ⟨_, hs.truncate (hs.inSight_opened hf hopened), rfl⟩

/-- What is opened for writing is in sight. -/
theorem inSight_of_openOut {filename : Bytes} (hf : parola filename = true) {g g' u : Host}
    (hg : HostTwins g g') {path : Path}
    (h : (Host.openOut (fullpath filename)).run g = .ok (some path) u) : inSight path = true := by
  obtain ⟨s', hs, -⟩ := hg
  rw [Host.run_openOut] at h
  cases hx : g.tries (g.store.truncates (fullpath filename)) with
  | none =>
    rw [hx] at h
    cases h
  | some x =>
    rw [hx] at h
    cases h
    exact hs.inSight_opened hf (Store.place_of_truncates (Host.of_tries hx)).1

theorem readDir_blind : HostBlind (Host.readDir serverRoot) := by
  rintro g g' ⟨s', hs, rfl⟩
  rw [Host.run_readDir, Host.run_readDir]
  show Exec.Agree HostTwins _ (.ok (g.tries (s'.lists serverRoot)) (Host.passed { g with store := s' }))
  rw [← hs.lists]
  exact .ok ⟨s', hs, rfl⟩

theorem limit_blind (size : ℕ) : HostBlind (Host.limit size) := by
  rintro g g' ⟨s', hs, rfl⟩
  exact .ok ⟨s', hs, rfl⟩

theorem uninitialised_blind : HostBlind Host.uninitialised := by
  rintro g g' ⟨s', hs, rfl⟩
  exact .ok ⟨s', hs, rfl⟩

theorem append_blind {path : Path} (hpath : inSight path = true) (bs : Bytes) :
    HostBlind (Host.append path bs) := by
  rintro g g' ⟨s', hs, rfl⟩
  exact .ok ⟨_, hs.append hpath bs, rfl⟩

/-! ### Programs that do the same -/

variable {τ : Type}

/-- A program that does the same on both systems. -/
def Blind {α : Type} (m : EStateM Ex (Client τ) α) : Prop :=
  ∀ c c', Twins c c' → Exec.Agree Twins (m.run c) (m.run c')

namespace Blind

variable {α β : Type}

theorem pure (a : α) : Blind (τ := τ) (Pure.pure a) := fun _ _ h => .ok h

theorem bind_of {m : EStateM Ex (Client τ) α} {f : α → EStateM Ex (Client τ) β} (hm : Blind m)
    (hf : ∀ a c c' d, Twins c c' → m.run c = .ok a d → Blind (f a)) : Blind (m >>= f) := by
  intro c c' h
  have hboth := hm c c' h
  cases hr : m.run c with
  | ok a d =>
    cases hr' : m.run c' with
    | ok a' d' =>
      rw [hr, hr'] at hboth
      rw [Exec.bind_of_ok hr, Exec.bind_of_ok hr']
      cases hboth with
      | ok hd => exact hf a c c' d h hr d d' hd
    | error e d' =>
      rw [hr, hr'] at hboth
      cases hboth
  | error e d =>
    cases hr' : m.run c' with
    | ok a' d' =>
      rw [hr, hr'] at hboth
      cases hboth
    | error e' d' =>
      rw [hr, hr'] at hboth
      rw [Exec.bind_of_error hr, Exec.bind_of_error hr']
      cases hboth with
      | error hd => exact .error hd

theorem bind {m : EStateM Ex (Client τ) α} {f : α → EStateM Ex (Client τ) β} (hm : Blind m)
    (hf : ∀ a, Blind (f a)) : Blind (m >>= f) :=
  hm.bind_of fun a _ _ _ _ _ => hf a

theorem ite {p : Prop} [Decidable p] {x y : EStateM Ex (Client τ) α} (hx : p → Blind x)
    (hy : ¬ p → Blind y) : Blind (if p then x else y) := by
  split
  · rename_i h
    exact hx h
  · rename_i h
    exact hy h

/-- What neither reads nor writes the host. -/
theorem modify {f : Client τ → Client τ} (hf : ∀ c g, f { c with host := g } = { f c with host := g })
    (hhost : ∀ c, (f c).host = c.host) : Blind (τ := τ) (modify f) := by
  rintro c c' ⟨g, hg, rfl⟩
  show Exec.Agree Twins (.ok () (f c)) (.ok () (f { c with host := g }))
  have hd : f { c with host := g } = { f c with host := g } := hf c g
  rw [hd]
  refine .ok ⟨g, ?_, rfl⟩
  rw [hhost]
  exact hg

/-- What reads only what both have in common. -/
theorem get_bind {f : Client τ → EStateM Ex (Client τ) α}
    (hsame : ∀ c g, HostTwins c.host g → f { c with host := g } = f c) (hf : ∀ c, Blind (f c)) :
    Blind (get >>= f) := by
  rintro c c' ⟨g, hg, rfl⟩
  show Exec.Agree Twins ((f c).run c) ((f { c with host := g }).run { c with host := g })
  rw [hsame c g hg]
  exact hf c c _ ⟨g, hg, rfl⟩

theorem onLink (m : EStateM Ex τ α) : Blind (onLink m) := by
  rintro c c' ⟨g, hg, rfl⟩
  refine Exec.Agree.zoom (.refl (m.run c.link)) ?_
  rintro l l' rfl
  exact ⟨g, hg, rfl⟩

theorem onHost {m : EStateM Ex Host α} (hm : HostBlind m) : Blind (τ := τ) (onHost m) := by
  rintro c c' ⟨g, hg, rfl⟩
  exact Exec.Agree.zoom (hm c.host g hg) fun u u' hu => ⟨u', hu, rfl⟩

theorem extractWord (old : Bytes) : Blind (τ := τ) (extractWord old) := by
  rintro c c' ⟨g, hg, rfl⟩
  exact .ok ⟨g, hg, rfl⟩

theorem extractInt64 (old : ℤ) : Blind (τ := τ) (extractInt64 old) := by
  rintro c c' ⟨g, hg, rfl⟩
  exact .ok ⟨g, hg, rfl⟩

theorem write (bs : Bytes) : Blind (τ := τ) (write bs) := .modify (fun _ _ => rfl) fun _ => rfl

end Blind

section Session

variable (t : Transport τ)

theorem sendCmd_blind : Blind (sendCmd t) := by
  refine .get_bind (fun _ _ _ => rfl) fun c => .ite (fun _ => ?_) fun _ => ?_
  · refine .bind (.modify (fun _ _ => rfl) fun _ => rfl) fun _ => ?_
    exact .bind (.onLink _) fun _ => .modify (fun _ _ => rfl) fun _ => rfl
  · exact .modify (fun _ _ => rfl) fun _ => rfl

theorem answer_blind (status : Status) : Blind (answer t status) :=
  .bind (.write _) fun _ => sendCmd_blind t

theorem cmdDele_blind : Blind (cmdDele t) := by
  refine .bind (.extractWord _) fun filename => .ite (fun _ => answer_blind t _) fun hf => ?_
  have hname : parola filename = true := by simpa using hf
  refine .bind (.onHost (remove_blind hname)) fun removed => ?_
  exact .ite (fun _ => answer_blind t _) fun _ => answer_blind t _

theorem cmdList_blind : Blind (cmdList t) := by
  refine .bind (.onHost readDir_blind) fun dd => ?_
  cases dd with
  | none => exact answer_blind t _
  | some names =>
    refine .bind (.write _) fun _ => .bind (sendCmd_blind t) fun _ => ?_
    exact .bind (.write _) fun _ => sendCmd_blind t

theorem retrLoop_blind (bs : Bytes) (count : ℕ) : Blind (retrLoop t bs count) := by
  induction bs generalizing count with
  | nil => exact .pure ()
  | cons b bs ih =>
    refine .bind (.write _) fun _ => .bind ?_ fun _ => ih _
    exact .ite (fun _ => sendCmd_blind t) fun _ => .pure ()

theorem cmdRetr_blind : Blind (cmdRetr t) := by
  refine .bind (.extractWord _) fun filename => .ite (fun _ => answer_blind t _) fun hf => ?_
  have hname : parola filename = true := by simpa using hf
  refine .bind (.onHost (openIn_blind hname)) fun file => ?_
  cases file with
  | none => exact answer_blind t _
  | some node =>
    have hcontents : ∀ (c : Client τ) (g : Host), HostTwins c.host g →
        g.contents node = c.host.contents node := by
      rintro c g ⟨s', -, rfl⟩
      cases node <;> rfl
    refine .get_bind (fun c g hg => by simp only [hcontents c g hg]) fun c => ?_
    refine .bind (.onHost (limit_blind _)) fun readable => .bind (.write _) fun _ => ?_
    refine .bind (sendCmd_blind t) fun _ => .bind (retrLoop_blind t _ _) fun _ => ?_
    exact sendCmd_blind t

theorem storLoop_blind {path : Path} (hpath : inSight path = true) (size : ℤ) (n : ℕ) (received : ℤ)
    (writable : ℕ) : Blind (storLoop t path size n received writable) := by
  induction n generalizing received writable with
  | zero => exact .pure ()
  | succ n ih =>
    refine .ite (fun _ => .bind (.onLink _) fun fragment => ?_) fun _ => .pure ()
    exact .bind (.onHost (append_blind hpath _)) fun _ => ih _ _

theorem cmdStor_blind : Blind (cmdStor t) := by
  refine .bind (.extractWord _) fun filename => .ite (fun _ => answer_blind t _) fun hf => ?_
  have hname : parola filename = true := by simpa using hf
  refine .bind (.extractWord _) fun tag => .bind (.onHost uninitialised_blind) fun stale => ?_
  refine .bind (.extractInt64 _) fun size => .ite (fun _ => answer_blind t _) fun _ => ?_
  refine .ite (fun _ => answer_blind t _) fun _ => ?_
  refine .bind_of (.onHost (openOut_blind hname)) fun file c c' d hc hrun => ?_
  cases file with
  | none => exact answer_blind t _
  | some path =>
    obtain ⟨g, hg, -⟩ := hc
    obtain ⟨u, hopen, -⟩ := Exec.zoom_ok hrun
    have hpath := inSight_of_openOut hname hg hopen
    refine .bind (answer_blind t _) fun _ => .bind (.onHost (limit_blind _)) fun writable => ?_
    exact storLoop_blind t hpath size _ _ _

theorem dispatch_blind (cmd : Bytes) : Blind (dispatch t cmd) := by
  have hnote : ∀ {h : Handler} {m : EStateM Ex (Client τ) Unit}, Blind m →
      Blind (handle h m >>= fun _ => pure true) := fun hm =>
    .bind (.bind (.modify (fun _ _ => rfl) fun _ => rfl) fun _ => hm) fun _ => .pure true
  have hanswer : ∀ (status : Status) (more : Bool),
      Blind (answer t status >>= fun _ => pure more) :=
    fun status more => .bind (answer_blind t status) fun _ => .pure more
  unfold dispatch
  refine .ite (fun _ => hnote (cmdDele_blind t)) fun _ => .ite (fun _ => hnote (cmdList_blind t))
    fun _ => .ite (fun _ => hanswer _ _) fun _ => ?_
  exact .ite (fun _ => hnote (cmdRetr_blind t)) fun _ => .ite (fun _ => hnote (cmdStor_blind t))
    fun _ => hanswer _ _

theorem recvCmd_blind : Blind (recvCmd t) := by
  refine .bind (.modify (fun _ _ => rfl) fun _ => rfl) fun _ => ?_
  exact .bind (.onLink _) fun header => .modify (fun _ _ => rfl) fun _ => rfl

theorem iteration_blind : Blind (iteration t) := by
  refine .bind (recvCmd_blind t) fun _ => .get_bind (fun _ _ _ => rfl) fun c => ?_
  refine .bind (.extractWord _) fun cmd => .bind (.modify (fun _ _ => rfl) fun _ => rfl) fun _ => ?_
  refine .get_bind (fun _ _ _ => rfl) fun c => ?_
  exact .ite (fun _ => dispatch_blind t cmd) fun _ => .pure true

theorem serve_blind (n : ℕ) : Blind (serve t n) := by
  induction n with
  | zero => exact .pure ()
  | succ n ih =>
    refine .bind (iteration_blind t) fun more => ?_
    exact .ite (fun _ => ih) fun _ => .pure ()

/-- **Nothing else shows.**  Two servers differ out of sight only: in the files beside `SERVER_ROOT`.
Where the end of their working directory is, for `tellg`, does not tell them apart.
Whatever a client sends, a session comes to the same on both: it ends in the same way, after the same
packets and with everything on the network the same, and the files still differ out of sight only. -/
theorem nothing_else_shows (c : Client τ) {s' : Store} (h : Unseen c.host.store s') (n : ℕ) :
    let r := (serve t n).run c
    let r' := (serve t n).run { c with host := { c.host with store := s' } }
    Exec.outcome r' = Exec.outcome r ∧ (Exec.endState r').link = (Exec.endState r).link ∧
      (Exec.endState r').packets = (Exec.endState r).packets ∧
      Unseen (Exec.endState r).host.store (Exec.endState r').host.store := by
  intro r r'
  have hboth : Exec.Agree Twins r r' := serve_blind t n c _ ⟨_, ⟨s', h, rfl⟩, rfl⟩
  have htwins : ∀ {d d' : Client τ}, Twins d d' → d'.link = d.link ∧ d'.packets = d.packets ∧
      Unseen d.host.store d'.host.store := by
    rintro d d' ⟨g, ⟨s₁, hs₁, rfl⟩, rfl⟩
    exact ⟨rfl, rfl, hs₁⟩
  generalize r = r at hboth ⊢
  generalize r' = r' at hboth ⊢
  cases hboth with
  | ok hd => exact ⟨rfl, htwins hd⟩
  | error hd => exact ⟨rfl, htwins hd⟩

end Session

/-! ### Two servers -/

/-- All links of a store that are in sight lead into sight. -/
def linksInside (s : Store) : Bool := s.entries.all fun e =>
  match e.2 with
  | .link q => !inSight e.1 || inSight q
  | _ => true

theorem inside_of_linksInside {s : Store} (h : linksInside s = true) (p q : Path)
    (hp : inSight p = true) (hq : s.get p = some (.link q)) : inSight q = true := by
  have hentry := List.all_eq_true.mp h _ (Store.mem_of_get hq)
  rw [hp] at hentry
  exact hentry

/-- A server with a private key. -/
def withKey (stream : Bytes) : Client Bytes where
  link := stream
  host := { store :=
    { entries := [([], .dir), (serverRootPath, .dir), (serverRootPath ++ [text "a"], .file (text "xy")),
        ([text "cert"], .dir), ([text "cert", text "key"], .file (text "k"))]
      nodup := by decide } }

/-- Another key, and one more file next to it. -/
def otherKey : Store where
  entries := [([], .dir), ([text "cert"], .dir), ([text "cert", text "crl"], .file []),
    ([text "cert", text "key"], .file (text "other")), (serverRootPath, .dir),
    (serverRootPath ++ [text "a"], .file (text "xy"))]
  nodup := by decide

theorem unseen_otherKey (stream : Bytes) : Unseen (withKey stream).host.store otherKey := by
  show Unseen (withKey []).host.store otherKey
  exact ⟨⟨rfl, rfl⟩, inside_of_linksInside rfl, by decide, ⟨text "cert", by decide, by decide, by decide⟩,
    ⟨text "cert", by decide, by decide, by decide⟩⟩

/-- Three requests, and a fourth one that leads out of `SERVER_ROOT`. -/
theorem nothing_else_shows_key :
    (Exec.endState ((serve .plain 4).run { withKey (text "RETR a\n\nLIST\n\nRETR ..\n\nDELE ..\n\n") with
        host := { (withKey []).host with store := otherKey } })).packets
      = (Exec.endState ((serve .plain 4).run
        (withKey (text "RETR a\n\nLIST\n\nRETR ..\n\nDELE ..\n\n")))).packets :=
  (nothing_else_shows .plain _ (unseen_otherKey _) 4).2.2.1

end ServerClient

end Cybrg
