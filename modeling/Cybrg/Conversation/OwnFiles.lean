import Cybrg.Conversation.Reading

/-!
# What a session leaves of the client's files

The client trusts the server with nothing but what `get` asks for.

* `Host.Quiet` — what is kept by every call that changes no file;
* `dispatch_keeps` — all commands but `get` make such calls only;
* `files_of_lines` — whatever is sent to the client, only what a `get` of its user leads to can change,
  and only into a regular file;
* `round_store`, `round_since` — a line without a `get`; the decisions of the system are used one after the other.
-/

namespace Cybrg

open Streams Files

/-! ### Calls that change no file -/

/-- `I` is kept by every call that changes no file. -/
structure Host.Quiet (I : Host → Prop) : Prop where
  openIn : ∀ path, Exec.Within (fun h h' => I h → I h') (Host.openIn path)
  passed : ∀ h : Host, I h → I h.passed
  limited : ∀ h : Host, I h → I h.limited
  recalled : ∀ h : Host, I h → I h.recalled

/-- What is said of the files alone. -/
theorem Host.quiet_store (I : Store → Prop) : Host.Quiet fun h => I h.store where
  openIn path h := by
    intro hI
    rw [Host.run_openIn]
    cases h.tries (h.store.reads path) with
    | none => exact hI
    | some x => exact hI
  passed _ hI := hI
  limited _ hI := hI
  recalled _ hI := hI

/-- The host is a later one. -/
theorem Host.quiet_since (h₀ : Host) : Host.Quiet h₀.Since where
  openIn path h hsince := Host.since_path.trans _ _ _ hsince (Host.since_openIn path h)
  passed h hsince := Host.since_path.trans _ _ _ hsince (Host.since_readDir [] h)
  limited h hsince := Host.since_path.trans _ _ _ hsince (Host.since_limit 0 h)
  recalled h hsince := Host.since_path.trans _ _ _ hsince (Host.since_uninitialised h)

namespace ClientMain

variable {τ : Type}

/-- Every run of `m` keeps what is said of the host. -/
def KeepsHost (I : Host → Prop) {α : Type} (m : EStateM Ex (Globals τ) α) : Prop :=
  Exec.Within (fun g g' => I g.host → I g'.host) m

namespace KeepsHost

variable {I : Host → Prop} {α β : Type}

theorem path (I : Host → Prop) : Exec.Path fun g g' : Globals τ => I g.host → I g'.host := .keeps _

theorem bind {m : EStateM Ex (Globals τ) α} {f : α → EStateM Ex (Globals τ) β} (hm : KeepsHost I m)
    (hf : ∀ a, KeepsHost I (f a)) : KeepsHost I (m >>= f) :=
  Exec.Within.bind (path I) hm hf

theorem pure (a : α) : KeepsHost I (Pure.pure a : EStateM Ex (Globals τ) α) :=
  Exec.Within.pure (path I) a

theorem get : KeepsHost I (MonadState.get : EStateM Ex (Globals τ) (Globals τ)) :=
  Exec.Within.get (path I)

theorem ite {p : Prop} [Decidable p] {x y : EStateM Ex (Globals τ) α} (hx : KeepsHost I x)
    (hy : KeepsHost I y) : KeepsHost I (if p then x else y) :=
  Exec.Within.ite hx hy

/-- The host is not what is written to. -/
theorem modify {f : Globals τ → Globals τ} (h : ∀ g, (f g).host = g.host) :
    KeepsHost I (modify f : EStateM Ex (Globals τ) PUnit) :=
  Exec.Within.modify fun g hI => (h g).symm ▸ hI

end KeepsHost

theorem onLink_keeps (I : Host → Prop) {α : Type} (m : EStateM Ex τ α) : KeepsHost I (onLink m) :=
  Exec.Within.zoom (S := fun _ _ => True) (fun _ _ _ hI => hI) fun _ => trivial

theorem onHost_keeps {I : Host → Prop} {α : Type} {m : EStateM Ex Host α}
    (hm : Exec.Within (fun h h' => I h → I h') m) : KeepsHost (τ := τ) I (onHost m) :=
  Exec.Within.zoom (fun _ _ h => h) hm

theorem extract_keeps (I : Host → Prop) {α : Type} (f : IStream → α × IStream) :
    KeepsHost (τ := τ) I (extract f) :=
  fun _ hI => hI

section Quiet

variable (t : Transport τ) {I : Host → Prop} (hI : Host.Quiet I)

theorem cryptoSend_keeps (I : Host → Prop) (plaintext : Bytes) : KeepsHost I (cryptoSend t plaintext) :=
  .bind (.modify fun _ => rfl) fun _ => .bind (onLink_keeps I _) fun _ => .pure ()

theorem recvResponse_keeps (I : Host → Prop) : KeepsHost I (recvResponse t) :=
  .bind (.modify fun _ => rfl) fun _ =>
    .bind (onLink_keeps I _) fun _ => KeepsHost.modify fun _ => rfl

theorem sendLoop_keeps (I : Host → Prop) (n : ℕ) (file buffer : Bytes) (remaining : ℤ) :
    KeepsHost I (sendLoop t n file buffer remaining) := by
  induction n generalizing file buffer remaining with
  | zero => exact .pure ()
  | succ n ih =>
    refine KeepsHost.ite ?_ (.pure ())
    exact .bind (cryptoSend_keeps t I _) fun _ => ih _ _ _

theorem listLoop_keeps (I : Host → Prop) (msgLen : ℤ) (n : ℕ) (buffer : Bytes) (recvBytes : ℤ) :
    KeepsHost I (listLoop t msgLen n buffer recvBytes) := by
  induction n generalizing buffer recvBytes with
  | zero => exact .pure ()
  | succ n ih =>
    refine KeepsHost.ite (.bind (onLink_keeps I _) fun got => ?_) (.pure ())
    refine .bind (.modify fun _ => rfl) fun _ => ?_
    exact .bind (.modify fun _ => rfl) fun _ => ih _ _

include hI

theorem uninitialised_keeps : KeepsHost (τ := τ) I (onHost Host.uninitialised) :=
  onHost_keeps fun h => hI.recalled h

theorem limit_keeps (size : ℕ) : KeepsHost (τ := τ) I (onHost (Host.limit size)) :=
  onHost_keeps fun h => hI.limited h

theorem isFile_keeps (path : Bytes) :
    Exec.Within (fun h h' => I h → I h') (Host.isFile path) := by
  intro h hh
  have hpassed := hI.passed h hh
  unfold Host.isFile
  rw [Exec.bind_of_ok (EStateM.run_get h), Exec.bind_of_ok (EStateM.run_modify _ h)]
  split
  · exact hpassed
  · exact hpassed
  · rw [Exec.bind_of_ok (Host.run_uninitialised _)]
    exact hI.recalled _ hpassed

theorem checkAndGetFileSize_keeps (filename : Bytes) :
    Exec.Within (fun h h' => I h → I h') (checkAndGetFileSize filename) := by
  have hpath := Exec.Path.keeps I
  refine .bind hpath (isFile_keeps hI filename) fun regular => .ite ?_ (.pure hpath _)
  refine .bind hpath (hI.openIn filename) fun file => ?_
  cases file with
  | none => exact .pure hpath _
  | some node => exact .bind hpath (.get hpath) fun _ => .pure hpath _

theorem cmdLocalList_keeps (path : Bytes) : KeepsHost (τ := τ) I (cmdLocalList path) := by
  refine .bind (onHost_keeps fun h => hI.passed h) fun dd => ?_
  cases dd with
  | none => exact .pure ()
  | some names =>
    refine .bind (Exec.Within.mapM (KeepsHost.path I) (fun name => ?_) names) fun lines =>
      KeepsHost.modify fun _ => rfl
    exact KeepsHost.bind (onHost_keeps (isFile_keeps hI _)) fun _ => .pure _

theorem sendFile_keeps (filepath : Bytes) (size : ℤ) : KeepsHost I (sendFile t filepath size) := by
  refine .bind (onHost_keeps (hI.openIn filepath)) fun file => ?_
  cases file with
  | none => exact .pure ()
  | some node =>
    refine .bind .get fun g => ?_
    exact .bind (limit_keeps hI _) fun readable => sendLoop_keeps t I _ _ _ _

theorem recvList_keeps : KeepsHost I (recvList t) := by
  refine .bind (uninitialised_keeps hI) fun stale => .bind (extract_keeps I _) fun response => ?_
  refine KeepsHost.ite (.bind (extract_keeps I _) fun tag => ?_) (.pure ())
  refine KeepsHost.ite (.pure ()) (.bind (uninitialised_keeps hI) fun stale => ?_)
  refine .bind (extract_keeps I _) fun msgLen => KeepsHost.ite (.pure ()) ?_
  exact .bind (.modify fun _ => rfl) fun _ => listLoop_keeps t I _ _ _ _

theorem cmdStor_keeps (filepath : Bytes) : KeepsHost I (cmdStor t filepath) := by
  refine KeepsHost.ite (.pure ()) ?_
  refine .bind (onHost_keeps (checkAndGetFileSize_keeps hI filepath)) fun filesize => ?_
  cases filesize with
  | none => exact .pure ()
  | some filesize =>
    refine .bind (cryptoSend_keeps t I _) fun _ => .bind (recvResponse_keeps t I) fun _ => ?_
    refine .bind (uninitialised_keeps hI) fun stale => .bind (extract_keeps I _) fun response => ?_
    exact KeepsHost.ite (sendFile_keeps t hI filepath filesize) (.pure ())

theorem cmdDele_keeps (filename : Bytes) : KeepsHost I (cmdDele t filename) := by
  refine KeepsHost.ite (.pure ()) ?_
  refine .bind (cryptoSend_keeps t I _) fun _ => .bind (recvResponse_keeps t I) fun _ => ?_
  refine .bind (uninitialised_keeps hI) fun stale => .bind (extract_keeps I _) fun _ => ?_
  exact .pure ()

/-- **A command other than `get`** changes no file. -/
theorem dispatch_keeps {strCmd : Bytes} (hget : strCmd ≠ text "get") (arg : Bytes) :
    KeepsHost I (dispatch t strCmd arg) := by
  have hquit : KeepsHost I (cmdQuit t) :=
    .bind (cryptoSend_keeps t I _) fun _ => recvResponse_keeps t I
  have hlist : KeepsHost I (cmdRemoteList t) :=
    .bind (cryptoSend_keeps t I _) fun _ => .bind (recvResponse_keeps t I) fun _ =>
      recvList_keeps t hI
  unfold dispatch
  rw [if_neg hget]
  refine KeepsHost.ite (.bind hquit fun _ => .pure _) ?_
  refine KeepsHost.ite (.bind (cmdLocalList_keeps hI arg) fun _ => .pure _) ?_
  refine KeepsHost.ite (.bind hlist fun _ => .pure _) ?_
  refine KeepsHost.ite (.bind (cmdStor_keeps t hI arg) fun _ => .pure _) ?_
  exact KeepsHost.ite (.bind (cmdDele_keeps t hI arg) fun _ => .pure _) (.pure _)

/-! ### `get` -/

variable {T : Path → Prop}
  (happend : ∀ path bs, T path → Exec.Within (fun h h' => I h → I h') (Host.append path bs))

include happend

omit hI in
theorem fileLoop_keeps {path : Path} (hpath : T path) (filesize : ℤ) (n : ℕ) (recvBytes : ℤ)
    (writable : ℕ) : KeepsHost I (fileLoop t path filesize n recvBytes writable) := by
  induction n generalizing recvBytes writable with
  | zero => exact .pure ()
  | succ n ih =>
    refine .ite (.bind (onLink_keeps I _) fun got => ?_) (.pure ())
    exact .bind (onHost_keeps (happend path _ hpath)) fun _ => ih _ _

/-- **`get`** changes what it opens. -/
theorem cmdRetr_keeps {filename : Bytes} (hopen : Exec.Triple I (Host.openOut (clientRoot ++ filename))
    (fun path h => I h ∧ ∀ p, path = some p → T p) I) : KeepsHost I (cmdRetr t filename) := by
  refine .ite (.pure ()) ?_
  refine .bind (cryptoSend_keeps t I _) fun _ => .bind (recvResponse_keeps t I) fun _ => ?_
  refine .bind (uninitialised_keeps hI) fun stale => .bind (extract_keeps I _) fun response => ?_
  refine .ite (.bind (extract_keeps I _) fun tag => ?_) (.pure ())
  refine .ite (.pure ()) (.bind (uninitialised_keeps hI) fun stale => ?_)
  refine .bind (extract_keeps I _) fun filesize => .ite (.pure ()) ?_
  refine .bind (.modify fun _ => rfl) fun _ => ?_
  -- what is written to is what was opened
  intro g hg
  cases hrun : (Host.openOut (clientRoot ++ filename)).run g.host with
  | error e h =>
    have hrun' : (onHost (Host.openOut (clientRoot ++ filename))).run g = .error e { g with host := h } :=
      Exec.zoom_of_error hrun
    rw [Exec.bind_of_error hrun']
    exact hopen.of_error hg hrun
  | ok file h =>
    obtain ⟨hI', hpath⟩ := hopen.of_ok hg hrun
    rw [Exec.bind_of_ok (onHost_of_ok hrun)]
    cases file with
    | none => exact hI'
    | some path =>
      have hrest : KeepsHost I (onHost (Host.limit filesize.toNat) >>= fun writable =>
          fileLoop t path filesize filesize.toNat 0 writable) :=
        .bind (limit_keeps hI _) fun writable => fileLoop_keeps t happend (hpath path rfl) _ _ _ _
      exact hrest { g with host := h } hI'

/-- **One line.** -/
theorem round_keeps {line : Option Bytes} (hopen : (lineWords line).1 = text "get" →
      (lineWords line).2 ≠ [] → Exec.Triple I (Host.openOut (clientRoot ++ (lineWords line).2))
        (fun path h => I h ∧ ∀ p, path = some p → T p) I) : KeepsHost I (round t line) := by
  have hdispatch : KeepsHost I (dispatch t (lineWords line).1 (lineWords line).2) := by
    by_cases hget : (lineWords line).1 = text "get"
    · rw [hget]
      show KeepsHost I (cmdRetr t (lineWords line).2 >>= fun _ => pure true)
      by_cases hne : (lineWords line).2 = []
      · rw [cmdRetr, if_pos hne]
        exact .pure true
      · exact .bind (cmdRetr_keeps t hI happend (hopen hget hne)) fun _ => .pure true
    · exact dispatch_keeps t hI hget _
  intro g hg
  rw [round_line]
  split
  · exact hg
  · exact hdispatch _ hg

/-- **Lines** of a user. -/
theorem lines_keep {lines : List (Option Bytes)} (hopen : ∀ line ∈ lines,
      (lineWords line).1 = text "get" → (lineWords line).2 ≠ [] →
      Exec.Triple I (Host.openOut (clientRoot ++ (lineWords line).2))
        (fun path h => I h ∧ ∀ p, path = some p → T p) I) {p : Prompt τ} (hp : I p.globals.host) :
    I (Machine.run (Prompt.step t) p lines).1.globals.host := by
  refine Machine.invariant_run (I := fun q : Prompt τ => I q.globals.host)
    (C := fun _ line => line ∈ lines) ?_ hp (Machine.meets_of_forall fun _ h => h)
  intro q line hq hline
  have hround := round_keeps t hI happend (hopen line hline) q.globals hq
  unfold Prompt.step
  split
  · cases hrun : (round t line).run q.globals with
    | ok more g =>
      rw [hrun] at hround
      exact hround
    | error e g =>
      rw [hrun] at hround
      exact hround
  · exact hq

end Quiet

/-! ### Sessions -/

/-- A `get` among the lines leads to the path, perhaps by a symbolic link. -/
def Fetched (s : Store) (lines : List (Option Bytes)) (p : Path) : Prop :=
  ∃ line ∈ lines, (lineWords line).1 = text "get" ∧ (lineWords line).2 ≠ [] ∧
    ∃ q, s.place (clientRoot ++ (lineWords line).2) = some q ∧ (q = p ∨ s.get q = some (.link p))

/-- A regular file. -/
def Regular (node : Option Node) : Prop := ∃ content, node = some (.file content)

/-- What a `get` opens. -/
theorem openOut_fetched {s₀ : Store} {lines : List (Option Bytes)} {line : Option Bytes}
    (hline : line ∈ lines) (hget : (lineWords line).1 = text "get") (hne : (lineWords line).2 ≠ []) :
    Exec.Triple (fun h : Host => s₀.Reworked (Fetched s₀ lines) Regular h.store)
      (Host.openOut (clientRoot ++ (lineWords line).2))
      (fun path h => s₀.Reworked (Fetched s₀ lines) Regular h.store ∧
        ∀ p, path = some p → Fetched s₀ lines p)
      fun h => s₀.Reworked (Fetched s₀ lines) Regular h.store := by
  intro h hh
  rw [Host.run_openOut]
  cases hx : h.tries (h.store.truncates (clientRoot ++ (lineWords line).2)) with
  | none => exact ⟨hh, fun p hp => by cases hp⟩
  | some x =>
    have hroutes : h.store.Routes s₀ := hh.routes (by rintro ⟨_, hfile⟩; cases hfile)
      (by rintro q ⟨_, hfile⟩; cases hfile)
    have hfetched : Fetched s₀ lines x.1 :=
      ⟨line, hline, hget, hne, hroutes.leads (Store.place_of_truncates (Host.of_tries hx)).1⟩
    refine ⟨hh.truncate hfetched ⟨[], rfl⟩, fun p hp => ?_⟩
    cases hp
    exact hfetched

/-- **Only what a `get` of the user leads to can change.**  Whatever arrives on the connection and
whichever system calls fail, after any lines a path of the client keeps its node, or a `get` among the
lines leads there and there is a regular file now. -/
theorem files_of_lines (P : Primitives) (o : Octets.ByteOrder) (lines : List (Option Bytes))
    (p : Prompt Endpoint) :
    p.globals.host.store.Reworked (Fetched p.globals.host.store lines) Regular
      (Machine.run (Prompt.step (.crypto P o)) p lines).1.globals.host.store := by
  refine lines_keep (.crypto P o)
    (Host.quiet_store fun s => p.globals.host.store.Reworked (Fetched p.globals.host.store lines)
      Regular s)
    (T := Fetched p.globals.host.store lines) ?_ (fun line hline hget hne => openOut_fetched hline hget
      hne) (.refl _ _ _)
  intro path bs hpath h hh
  exact hh.append hpath fun was _ => ⟨was ++ bs, rfl⟩

/-- A line without a `get` changes no file. -/
theorem round_store (t : Transport τ) {line : Option Bytes} (hget : (lineWords line).1 ≠ text "get")
    (g : Globals τ) : (Exec.endState ((round t line).run g)).host.store = g.host.store :=
  round_keeps t (Host.quiet_store (· = g.host.store)) (T := fun _ => False)
    (fun _ _ hpath => hpath.elim) (fun h => absurd h hget) g rfl

/-- The system of the client after a line is a later one. -/
theorem round_since (t : Transport τ) (line : Option Bytes) (g : Globals τ) :
    g.host.Since (Exec.endState ((round t line).run g)).host := by
  have hpath := Host.since_path
  refine round_keeps t (Host.quiet_since g.host) (T := fun _ => True) ?_ ?_ g (hpath.refl _)
  · intro path bs _ h hh
    exact hpath.trans _ _ _ hh (Host.since_append path bs h)
  · intro _ _ h hh
    have hlater := hpath.trans _ _ _ hh (Host.since_openOut (clientRoot ++ (lineWords line).2) h)
    cases hrun : (Host.openOut (clientRoot ++ (lineWords line).2)).run h with
    | ok path h' =>
      rw [hrun] at hlater
      exact ⟨hlater, fun _ _ => trivial⟩
    | error e h' =>
      rw [hrun] at hlater
      exact hlater

end ClientMain

end Cybrg
