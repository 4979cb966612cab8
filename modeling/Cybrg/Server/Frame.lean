import Cybrg.Common.SecureLayer
import Cybrg.Server.Confinement

/-!
# What a session leaves of the files

Whatever a client sends, and whichever system calls fail, there are paths that it cannot change.

* `Rule`, `session_keeps` — what every system call of the handlers keeps, a session keeps;
* `files_of_session` — only what a file name leads to can change, and only into a regular file of at
  most `MAX_FILE_SIZE` bytes or into nothing;
* `spared` — a path that no request of the session leads to keeps its node.
-/

namespace Cybrg

open Streams Files

/-! ### The secure layer hands out what was asked for -/

/-- No call of `recv` returns more than it was asked for. -/
def Transport.Bounded {τ : Type} (t : Transport τ) : Prop :=
  ∀ size x bs x', (t.recv size).run x = .ok bs x' → bs.length ≤ size

theorem Transport.crypto_bounded (P : Primitives) (o : Octets.ByteOrder) :
    (Transport.crypto P o).Bounded := by
  intro size x bs x' h
  have hends : Crypto.RecvEnds P o size x (.ok bs x') := h ▸ Crypto.recv_cases P o size x
  cases hends with
  | unread _ => exact List.length_take_le _ _
  | accepted _ _ _ _ => exact List.length_take_le _ _

namespace ServerClient

variable {τ : Type}

/-! ### The rule of stores -/

/-- What a request is about: its file name, once the command word was read. -/
def Client.named (c : Client τ) : Bytes := (c.is.word []).1

/-- `I` is kept by the system calls of requests with `D`.  While an upload goes on, `J` says what
holds after some bytes of it. -/
structure Rule (I : Store → Prop) (D : Action → Bytes → Store → Prop) (J : Path → ℕ → Store → Prop) :
    Prop where
  removed : ∀ {s filename x}, I s → D .remove filename s → parola filename = true →
    s.removes (fullpath filename) = some x → I (s.erase x.1)
  opened : ∀ {s filename x}, I s → D .openOut filename s → parola filename = true →
    s.truncates (fullpath filename) = some x → J x.1 0 (s.truncate x.1)
  written : ∀ {s p n m} {bs : Bytes}, J p n s → bs.length ≤ m → (n + m : ℤ) ≤ maxFileSize →
    J p (n + m) (s.append p bs)
  closed : ∀ {s p n}, J p n s → I s

/-- The request that has been read up to its first word has `D`. -/
structure Allowed (D : Action → Bytes → Store → Prop) (c : Client τ) : Prop where
  dele : c.cmd = text "DELE" → D .remove c.named c.host.store
  stor : c.cmd = text "STOR" → D .openOut c.named c.host.store

/-- What is said of the store is kept by what leaves files alone. -/
theorem LeavesFiles.keeps {α : Type} {m : EStateM Ex (Client τ) α} (h : LeavesFiles m)
    (I : Store → Prop) : Exec.Triple (fun c => I c.host.store) m (fun _ c => I c.host.store)
      fun c => I c.host.store :=
  .of_leaves h fun x => I x.2

/-- A download leaves the files as they are. -/
theorem cmdRetr_store (t : Transport τ) :
    Exec.Leaves (fun c : Client τ => c.host.store) (cmdRetr t) := by
  have hfiles : ∀ {α : Type} {m : EStateM Ex (Client τ) α}, LeavesFiles m →
      Exec.Leaves (fun c : Client τ => c.host.store) m := fun hm c => (Prod.mk.inj (hm c)).2
  apply Exec.Leaves.bind (hfiles (extractWord_leaves []))
  intro filename
  refine .ite (hfiles (answer_leaves t _)) ?_
  have hopen : Exec.Leaves Host.store (Host.openIn (fullpath filename)) := by
    intro g
    rw [Host.run_openIn]
    cases g.tries (g.store.reads (fullpath filename)) <;> rfl
  have hopen' : Exec.Leaves (fun c : Client τ => c.host.store) (onHost (Host.openIn
      (fullpath filename))) := .zoom_part (fun _ _ h => h) hopen
  apply Exec.Leaves.bind hopen'
  intro file
  cases file with
  | none => exact hfiles (answer_leaves t _)
  | some node =>
    apply hfiles
    apply Exec.Leaves.bind .get
    intro c
    apply Exec.Leaves.bind (limit_leaves _)
    intro readable
    apply Exec.Leaves.bind (write_leaves _)
    intro _
    apply Exec.Leaves.bind (sendCmd_leaves t)
    intro _
    exact .bind (retrLoop_leaves t _ _) fun _ => sendCmd_leaves t

section Rule

variable (t : Transport τ) {I : Store → Prop} {D : Action → Bytes → Store → Prop}
  {J : Path → ℕ → Store → Prop} (hrule : Rule I D J)

include hrule

theorem remove_keeps {filename : Bytes} (hf : parola filename = true) :
    Exec.Triple (fun g : Host => I g.store ∧ D .remove filename g.store)
      (Host.remove (fullpath filename)) (fun _ g => I g.store) fun g => I g.store := by
  intro g hpre
  obtain ⟨hI, hD⟩ := hpre
  rw [Host.run_remove]
  show I (g.called .remove ((g.tries (g.store.removes (fullpath filename))).map fun x =>
    (x.1, some x.2, g.store.erase x.1))).store
  cases hx : g.tries (g.store.removes (fullpath filename)) with
  | none => exact hI
  | some x => exact hrule.removed hI hD hf (Host.of_tries hx)

theorem openOut_keeps {filename : Bytes} (hf : parola filename = true) :
    Exec.Triple (fun g : Host => I g.store ∧ D .openOut filename g.store)
      (Host.openOut (fullpath filename))
      (fun path g => match path with
        | none => I g.store
        | some p => J p 0 g.store) fun g => I g.store := by
  intro g hpre
  obtain ⟨hI, hD⟩ := hpre
  rw [Host.run_openOut]
  cases hx : g.tries (g.store.truncates (fullpath filename)) with
  | none => exact hI
  | some x => exact hrule.opened hI hD hf (Host.of_tries hx)

theorem cmdDele_keeps :
    Exec.Triple (fun c => I c.host.store ∧ D .remove c.named c.host.store) (cmdDele t)
      (fun _ c => I c.host.store) fun c => I c.host.store := by
  refine .bind (R := fun filename c => I c.host.store ∧ D .remove filename c.host.store)
    (extractWord_triple [] fun c h => h) fun filename => ?_
  refine .ite (fun _ => ((answer_leaves t _).keeps I).pre fun c h => h.1) fun hf => ?_
  have hname : parola filename = true := by simpa using hf
  apply Exec.Triple.bind (onHost_triple (remove_keeps hrule hname))
  intro removed
  exact .ite (fun _ => (answer_leaves t _).keeps I) fun _ => (answer_leaves t _).keeps I

variable (ht : t.Bounded)

include ht

/-- **The loop of an upload.**  What was received so far never exceeds what was announced. -/
theorem storLoop_keeps (path : Path) {size : ℤ} (hsize : size ≤ maxFileSize) (n m writable : ℕ) :
    Exec.Triple (fun c => J path m c.host.store) (storLoop t path size n m writable)
      (fun _ c => I c.host.store) fun c => I c.host.store := by
  induction n generalizing m writable with
  | zero => exact .pure fun c hc => hrule.closed hc
  | succ n ih =>
    refine .ite (fun hlt => ?_) fun _ => .pure fun c hc => hrule.closed hc
    have hrecv : Exec.Triple (fun c : Client τ => J path m c.host.store)
        (recvBodyFragment t (min (size - m) bufferSize).toNat)
        (fun fragment c => J path m c.host.store ∧ (m + fragment.length : ℤ) ≤ maxFileSize)
        fun c => I c.host.store := by
      intro c hc
      rw [recvBodyFragment, onLink, Exec.run_zoom]
      cases hrun : (t.recv (min (size - m) bufferSize).toNat).run c.link with
      | error e l => exact hrule.closed hc
      | ok fragment l =>
        have hlen := ht _ _ _ _ hrun
        exact ⟨hc, by omega⟩
    apply Exec.Triple.bind hrecv
    intro fragment
    refine .bind (R := fun _ c => J path (m + fragment.length) c.host.store) ?_ fun _ => ?_
    · refine onHost_triple (P := fun g : Host => J path m g.store ∧
        (m + fragment.length : ℤ) ≤ maxFileSize) (Q := fun _ g => J path (m + fragment.length) g.store)
        (E := fun g => I g.store) (.modify fun g hg => ?_)
      exact hrule.written hg.1 (List.length_take_le' _ _) hg.2
    · have hrest := ih (m + fragment.length) (writable - fragment.length)
      rwa [Nat.cast_add] at hrest

theorem cmdStor_keeps :
    Exec.Triple (fun c => I c.host.store ∧ D .openOut c.named c.host.store) (cmdStor t)
      (fun _ c => I c.host.store) fun c => I c.host.store := by
  refine .bind (R := fun filename c => I c.host.store ∧ D .openOut filename c.host.store)
    (extractWord_triple [] fun c h => h) fun filename => ?_
  refine .ite (fun _ => ((answer_leaves t _).keeps I).pre fun c h => h.1) fun hf => ?_
  have hname : parola filename = true := by simpa using hf
  -- the words of the header are read, and the store stays
  have hread : ∀ {α : Type} {m : EStateM Ex (Client τ) α}, LeavesFiles m →
      Exec.Triple (fun c => I c.host.store ∧ D .openOut filename c.host.store) m
        (fun _ c => I c.host.store ∧ D .openOut filename c.host.store) fun c => I c.host.store :=
    fun hm => (hm.keeps fun s => I s ∧ D .openOut filename s).post (fun _ _ h => h) fun _ h => h.1
  apply Exec.Triple.bind (hread (extractWord_leaves []))
  intro tag
  apply Exec.Triple.bind (hread uninitialised_leaves)
  intro stale
  apply Exec.Triple.bind (hread (extractInt64_leaves stale))
  intro size
  refine .ite (fun _ => ((answer_leaves t _).keeps I).pre fun c h => h.1) fun _ => ?_
  refine .ite (fun _ => ((answer_leaves t _).keeps I).pre fun c h => h.1) fun hmax => ?_
  apply Exec.Triple.bind (onHost_triple (openOut_keeps hrule hname))
  intro file
  cases file with
  | none => exact (answer_leaves t _).keeps I
  | some path =>
    have hkeep : ∀ {α : Type} {m : EStateM Ex (Client τ) α}, LeavesFiles m →
        Exec.Triple (fun c => J path 0 c.host.store) m (fun _ c => J path 0 c.host.store)
          fun c => I c.host.store :=
      fun hm => (hm.keeps (J path 0)).post (fun _ _ h => h) fun _ h => hrule.closed h
    apply Exec.Triple.bind (hkeep (answer_leaves t _))
    intro _
    apply Exec.Triple.bind (hkeep (limit_leaves _))
    intro writable
    exact storLoop_keeps t hrule ht path (not_lt.mp hmax) _ 0 writable

theorem dispatch_keeps (cmd : Bytes) :
    Exec.Triple (fun c => I c.host.store ∧ c.cmd = cmd ∧ Allowed D c) (dispatch t cmd)
      (fun _ c => I c.host.store) fun c => I c.host.store := by
  -- a note of the handler changes neither the host nor the words
  have hnote : ∀ {h : Handler} {P : Client τ → Prop},
      (∀ c : Client τ, P c → P { c with handlers := c.handlers ++ [h] }) → ∀ {m},
      Exec.Triple P m (fun _ c => I c.host.store) (fun c => I c.host.store) →
      Exec.Triple P (handle h m) (fun _ c => I c.host.store) fun c => I c.host.store :=
    fun hP _ hm => .bind (R := fun _ => _) (.modify hP) fun _ => hm
  unfold dispatch
  refine .ite (fun h => ?_) fun _ => .ite (fun h => ?_) fun _ => .ite (fun h => ?_) fun _ =>
    .ite (fun h => ?_) fun _ => .ite (fun h => ?_) fun _ => ?_
  · refine .bind ((hnote (fun c hc => hc) (cmdDele_keeps t hrule)).pre ?_) fun _ =>
      .pure fun c hc => hc
    exact fun c hc => ⟨hc.1, hc.2.2.dele (hc.2.1.trans h)⟩
  · refine .bind ((hnote (fun c hc => hc) ((cmdList_leaves t).keeps I)).pre ?_) fun _ =>
      .pure fun c hc => hc
    exact fun c hc => hc.1
  · exact .bind (((answer_leaves t _).keeps I).pre fun c hc => hc.1) fun _ => .pure fun c hc => hc
  · refine .bind ((hnote (fun c hc => hc) (.of_leaves (cmdRetr_store t) I)).pre ?_) fun _ =>
      .pure fun c hc => hc
    exact fun c hc => hc.1
  · refine .bind ((hnote (fun c hc => hc) (cmdStor_keeps t hrule ht)).pre ?_) fun _ =>
      .pure fun c hc => hc
    exact fun c hc => ⟨hc.1, hc.2.2.stor (hc.2.1.trans h)⟩
  · exact .bind (((answer_leaves t _).keeps I).pre fun c hc => hc.1) fun _ => .pure fun c hc => hc

/-- **The rule of stores.**  What the system calls of the requests keep, a session keeps. -/
theorem session_keeps {n : ℕ} {c : Client τ} (hc : I c.host.store)
    (h : Machine.Meets (Loop.step t) (Round t (Allowed D)) ⟨true, c⟩ (List.replicate n ())) :
    I (Exec.endState ((serve t n).run c)).host.store :=
  serve_invariant t (I := fun c => I c.host.store) (fun _ hc => hc) ((recvCmd_leaves t).keeps I)
    (fun _ hc => hc) (dispatch_keeps t hrule ht) hc h

end Rule

/-! ### What a session can change -/

/-- A file name of a request leads to the path, perhaps by a symbolic link. -/
def Reachable (s : Store) (p : Path) : Prop :=
  ∃ filename, parola filename = true ∧
    ∃ q, s.place (fullpath filename) = some q ∧ (q = p ∨ s.get q = some (.link p))

/-- What a session can make of a path. -/
def Left (node : Option Node) : Prop :=
  node = none ∨ ∃ content, node = some (.file content) ∧ (content.length : ℤ) ≤ maxFileSize

theorem not_left_link (q : Path) : ¬ Left (some (.link q)) := by
  rintro (h | ⟨_, h, -⟩)
  · cases h
  · cases h

theorem not_left_dir : ¬ Left (some .dir) := by
  rintro (h | ⟨_, h, -⟩)
  · cases h
  · cases h

theorem left_file {content : Bytes} (h : (content.length : ℤ) ≤ maxFileSize) :
    Left (some (.file content)) :=
  .inr ⟨content, rfl, h⟩

/-- A session makes no directory and no link, and so it opens no way. -/
theorem routes_of_reworked {T : Path → Prop} {s₀ s : Store} (h : s₀.Reworked T Left s) : s.Routes s₀ :=
  h.routes not_left_dir not_left_link

/-- What was changed was reachable, and there is a regular file or nothing. -/
theorem rule_reworked (s₀ : Store) :
    Rule (s₀.Reworked (Reachable s₀) Left) (fun _ _ _ => True) fun p n s =>
      s₀.Reworked (Reachable s₀) Left s ∧ Reachable s₀ p ∧
        ∀ content, s.get p = some (.file content) → content.length ≤ n := by
  refine ⟨?_, ?_, ?_, fun h => h.1⟩
  · intro s filename x hs _ hf hx
    have hplace := (routes_of_reworked hs).place (Store.place_of_removes hx).1
    exact hs.erase ⟨filename, hf, x.1, hplace, .inl rfl⟩ (.inl rfl)
  · intro s filename x hs _ hf hx
    have hreach : Reachable s₀ x.1 :=
      ⟨filename, hf, (routes_of_reworked hs).leads (Store.place_of_truncates hx).1⟩
    refine ⟨hs.truncate hreach (left_file (by decide)), hreach, fun content hget => ?_⟩
    rw [Store.get_truncate_self hget]
    exact le_refl _
  · rintro s p n m bs ⟨hs, hreach, hlen⟩ hbs hmax
    have hlonger : ∀ was, s.get p = some (.file was) → (was ++ bs).length ≤ n + m := by
      intro was hget
      have hwas := hlen was hget
      rw [List.length_append]
      omega
    refine ⟨hs.append hreach fun was hget => left_file ?_, hreach, fun content hget => ?_⟩
    · have hfits := hlonger was hget
      omega
    · obtain ⟨was, hwas, rfl⟩ := Store.get_append_self hget
      exact hlonger was hwas

/-- What a session leaves, on any transport that hands out no more than it is asked for. -/
theorem session_reworked {t : Transport τ} (ht : t.Bounded) (n : ℕ) (c : Client τ) :
    c.host.store.Reworked (Reachable c.host.store) Left
      (Exec.endState ((serve t n).run c)).host.store := by
  refine session_keeps t (rule_reworked c.host.store) ht (.refl _ _ _)
    (Machine.meets_of_invariant (I := fun _ => True) ?_ trivial (Machine.meets_true _))
  intro l e _ _
  exact ⟨trivial, fun _ c _ _ => ⟨fun _ => trivial, fun _ => trivial⟩⟩

/-- **Only what a file name leads to can change.**  Whatever arrives on the connection and whichever
system calls fail, at the end of a session a path keeps its node, or a file name leads there and there
is nothing now or a regular file of at most `MAX_FILE_SIZE` bytes. -/
theorem files_of_session (P : Primitives) (o : Octets.ByteOrder) (n : ℕ) (c : Client Endpoint) :
    c.host.store.Reworked (Reachable c.host.store) Left
      (Exec.endState ((serve (.crypto P o) n).run c)).host.store :=
  session_reworked (Transport.crypto_bounded P o) n c

/-! ### What the requests of a session do not lead to -/

/-- A request does not lead to the path. -/
def Misses (p : Path) (action : Action) (filename : Bytes) (s : Store) : Prop :=
  parola filename = true → leadsTo s filename action ≠ some p

theorem rule_same (p : Path) (node : Option Node) :
    Rule (fun s => s.get p = node) (Misses p) fun q _ s => s.get p = node ∧ p ≠ q := by
  refine ⟨?_, ?_, ?_, fun h => h.1⟩
  · intro s filename x hs hmisses hf hx
    have hpath : leadsTo s filename .remove = some x.1 := (Store.place_of_removes hx).1
    show (s.erase x.1).get p = node
    have hne : p ≠ x.1 := fun hp => hmisses hf (hp ▸ hpath)
    rw [s.get_erase_ne hne]
    exact hs
  · intro s filename x hs hmisses hf hx
    have hpath : leadsTo s filename .openOut = some x.1 := (Store.place_of_truncates hx).1
    have hne : p ≠ x.1 := fun hp => hmisses hf (hp ▸ hpath)
    exact ⟨(s.get_truncate_ne hne).trans hs, hne⟩
  · rintro s q n m bs ⟨hs, hne⟩ _ _
    exact ⟨(s.get_append_ne hne bs).trans hs, hne⟩

/-- **A path that no request leads to keeps its node**, whatever else the session does and however it
ends. -/
theorem spared {t : Transport τ} (ht : t.Bounded) {p : Path} {n : ℕ} {c : Client τ}
    (h : Machine.Meets (Loop.step t) (Round t (Allowed (Misses p))) ⟨true, c⟩
      (List.replicate n ())) :
    (Exec.endState ((serve t n).run c)).host.store.get p = c.host.store.get p :=
  session_keeps t (rule_same p (c.host.store.get p)) ht rfl h

instance (p : Path) (action : Action) (filename : Bytes) (s : Store) :
    Decidable (Misses p action filename s) :=
  inferInstanceAs (Decidable (parola filename = true → leadsTo s filename action ≠ some p))

instance (D : Action → Bytes → Store → Prop) [∀ action filename s, Decidable (D action filename s)]
    (c : Client τ) : Decidable (Allowed D c) :=
  decidable_of_iff ((c.cmd = text "DELE" → D .remove c.named c.host.store) ∧
      (c.cmd = text "STOR" → D .openOut c.named c.host.store))
    ⟨fun h => ⟨h.1, h.2⟩, fun h => ⟨h.dele, h.stor⟩⟩

/-- A client that has sent `stream`, and two files. -/
def twoFiles (stream : Bytes) : Client Bytes where
  link := stream
  host := { store :=
    { entries := [([], .dir), (serverRootPath, .dir), (serverRootPath ++ [text "a"], .file (text "x")),
        (serverRootPath ++ [text "b"], .file (text "y"))]
      nodup := by decide } }

theorem plain_bounded : Transport.plain.Bounded := by
  intro size x bs x' h
  obtain ⟨_, _, hget, h⟩ := Exec.bind_ok h
  cases hget
  obtain ⟨_, _, hrequire, h⟩ := Exec.bind_ok h
  obtain ⟨-, rfl⟩ := Exec.require_ok hrequire
  cases h
  exact List.length_take_le _ _

/-- The other file, over a removal and an upload that breaks off. -/
theorem spared_other :
    (Exec.endState ((serve .plain 3).run (twoFiles
      (text "DELE a\n\nSTOR a\nSize: 9\n\nxy")))).host.store.get (serverRootPath ++ [text "b"])
        = some (.file (text "y")) := by
  have hspared := spared plain_bounded (p := serverRootPath ++ [text "b"]) (n := 3)
    (c := twoFiles (text "DELE a\n\nSTOR a\nSize: 9\n\nxy")) (by decide +kernel)
  exact hspared

end ServerClient

end Cybrg
