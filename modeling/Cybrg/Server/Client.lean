import Cybrg.Common.Host
import Cybrg.Common.Transport
import Cybrg.Library.Machine

/-!
# The server's side of a session

Class `Client` of the server: what it does with the requests of one client, once the handshake is
over.

* `recvCmd`, `sendCmd`, `recvBodyFragment` — headers, replies and bodies;
* `cmdDele`, `cmdList`, `cmdQuit`, `cmdRetr`, `cmdStor`, `cmdUnknown` — the handlers;
* `iteration`, `serve` — the loop of `execute`, and `Loop.step` — the same as a machine whose
  events are the rounds, with `serve_eq_run`;
* `serve_invariant` — the rule for what a whole session keeps.
-/

namespace Cybrg

open Streams Files

/-! ### Texts and paths -/

/-- `SERVER_ROOT`. -/
def serverRoot : Bytes := text "root"

/-- The path of `SERVER_ROOT`. -/
def serverRootPath : Path := [serverRoot]

/-- `SERVER_ROOT + "/" + filename`. -/
def fullpath (filename : Bytes) : Bytes := serverRoot ++ slash :: filename

/-- A status line and an empty line. -/
def Status.reply (status : Status) : Bytes := decimal status.code ++ newline ++ newline

/-- `os << OK << endl << "Size: " << size << endl << endl`. -/
def sizeReply (size : ℤ) : Bytes :=
  decimal Status.ok.code ++ newline ++ text "Size: " ++ decimal size ++ newline ++ newline

theorem Status.reply_ne_nil (status : Status) : status.reply ≠ [] := by
  cases status <;> decide

theorem sizeReply_ne_nil (size : ℤ) : sizeReply size ≠ [] := by
  simp [sizeReply, newline]

/-- The handlers of the commands that work on files. -/
inductive Handler where
  | dele
  | list
  | retr
  | stor
  deriving DecidableEq

namespace ServerClient

/-- An object of class `Client`, in its process.  The program never reads the last two fields. -/
structure Client (τ : Type) where
  link : τ
  host : Host
  is : IStream := {}
  os : Bytes := []
  /-- The local variable of `execute`. -/
  cmd : Bytes := []
  /-- The handlers that were run. -/
  handlers : List Handler := []
  /-- What was given to `Crypto::send`. -/
  packets : List Bytes := []

variable {τ : Type}

/-! ### Headers, replies and bodies -/

/-- Run a call of the secure layer. -/
def onLink {α : Type} (m : EStateM Ex τ α) : EStateM Ex (Client τ) α :=
  Exec.zoom (·.link) (fun l c => { c with link := l }) m

/-- Run a call of the operating system. -/
def onHost {α : Type} (m : EStateM Ex Host α) : EStateM Ex (Client τ) α :=
  Exec.zoom (·.host) (fun h c => { c with host := h }) m

variable (t : Transport τ)

/-- `Client::recvCmd`. -/
def recvCmd : EStateM Ex (Client τ) Unit := do
  modify fun c => { c with is := (c.is.ignore bufferSize).clear }
  let header ← onLink t.recvHeader
  modify fun c => { c with is := c.is.str header }

/-- `Client::recvBodyFragment`. -/
def recvBodyFragment (len : ℕ) : EStateM Ex (Client τ) Bytes := onLink (t.recv len)

/-- `Client::sendCmd`. -/
def sendCmd : EStateM Ex (Client τ) Unit := do
  let c ← get
  let buffer := c.os
  if buffer.length ≠ 0 then do
    modify fun c => { c with packets := c.packets ++ [buffer] }
    let _ ← onLink (t.send buffer)
    modify fun c => { c with os := [] }
  else modify fun c => { c with os := [] }

/-- `os << bs`. -/
def write (bs : Bytes) : EStateM Ex (Client τ) Unit :=
  modify fun c => { c with os := c.os ++ bs }

/-- `os << status << endl << endl; sendCmd()`. -/
def answer (status : Status) : EStateM Ex (Client τ) Unit := do
  write status.reply
  sendCmd t

/-- `is >> word` into a variable that holds `old`. -/
def extractWord (old : Bytes) : EStateM Ex (Client τ) Bytes := do
  let c ← get
  modify fun c => { c with is := (c.is.word old).2 }
  return (c.is.word old).1

/-- `is >> n` into an `int64_t` that holds `old`. -/
def extractInt64 (old : ℤ) : EStateM Ex (Client τ) ℤ := do
  let c ← get
  modify fun c => { c with is := (c.is.int64 old).2 }
  return (c.is.int64 old).1

/-! ### What the calls do -/

theorem onLink_of_ok {α : Type} {m : EStateM Ex τ α} {c : Client τ} {a : α} {l : τ}
    (h : m.run c.link = .ok a l) : (onLink m).run c = .ok a { c with link := l } :=
  Exec.zoom_of_ok h

theorem onLink_of_error {α : Type} {m : EStateM Ex τ α} {c : Client τ} {e : Ex} {l : τ}
    (h : m.run c.link = .error e l) : (onLink m).run c = .error e { c with link := l } :=
  Exec.zoom_of_error h

theorem onHost_of_ok {α : Type} {m : EStateM Ex Host α} {c : Client τ} {a : α} {h' : Host}
    (h : m.run c.host = .ok a h') : (onHost m).run c = .ok a { c with host := h' } :=
  Exec.zoom_of_ok h

theorem extractWord_run (c : Client τ) (old : Bytes) :
    (extractWord old).run c = .ok (c.is.word old).1 { c with is := (c.is.word old).2 } := rfl

theorem extractInt64_run (c : Client τ) (old : ℤ) :
    (extractInt64 old).run c = .ok (c.is.int64 old).1 { c with is := (c.is.int64 old).2 } := rfl

theorem word_bind {c : Client τ} {w : Bytes} {is : IStream} (h : c.is.word [] = (w, is))
    {α : Type} (k : Bytes → EStateM Ex (Client τ) α) :
    (extractWord [] >>= k).run c = (k w).run { c with is := is } := by
  rw [Exec.bind_of_ok (extractWord_run c []), h]

/-- A number is read into a variable that was not initialised. -/
theorem number_bind (c : Client τ) {α : Type} (k : ℤ → EStateM Ex (Client τ) α) :
    (onHost Host.uninitialised >>= fun stale => extractInt64 stale >>= k).run c
      = (k (c.is.int64 (toInt64 (c.host.stale.headD 0))).1).run { c with
        is := (c.is.int64 (toInt64 (c.host.stale.headD 0))).2
        host := c.host.recalled } := by
  have hrecalled := onHost_of_ok (Host.run_uninitialised c.host)
  rw [Exec.bind_of_ok hrecalled, Exec.bind_of_ok (extractInt64_run _ _)]

/-! ### The handlers -/

/-- `Client::cmd_dele`. -/
def cmdDele : EStateM Ex (Client τ) Unit := do
  let filename ← extractWord []
  if parola filename = false then answer t .badFile
  else
    let removed ← onHost (Host.remove (fullpath filename))
    if removed then answer t .ok else answer t .badFile

/-- The text of a directory listing. -/
def listing (names : List Name) : Bytes := names.flatMap fun name => name ++ newline

/-- `Client::cmd_list`. -/
def cmdList : EStateM Ex (Client τ) Unit := do
  let dd ← onHost (Host.readDir serverRoot)
  match dd with
  | none => answer t .serverError
  | some names =>
      let buffer := listing names
      write (sizeReply (buffer.length % 2 ^ 64))
      sendCmd t
      write buffer
      sendCmd t

/-- `Client::cmd_quit`. -/
def cmdQuit : EStateM Ex (Client τ) Unit := answer t .ok

/-- `if (count % BUFFER_SIZE == 0) sendCmd()`. -/
def sendFull (count : ℕ) : EStateM Ex (Client τ) Unit :=
  if count % bufferSize = 0 then sendCmd t else pure ()

/-- The loop of `cmd_retr`, which writes the file into `os` one byte at a time. -/
def retrLoop : Bytes → ℕ → EStateM Ex (Client τ) Unit
  | [], _ => return ()
  | b :: bs, count => do
      write [b]
      sendFull t count
      retrLoop bs (count + 1)

/-- `Client::cmd_retr`. -/
def cmdRetr : EStateM Ex (Client τ) Unit := do
  let filename ← extractWord []
  if parola filename = false then answer t .badFile
  else
    let file ← onHost (Host.openIn (fullpath filename))
    match file with
    | none => answer t .badFile
    | some node =>
        let c ← get
        let (content, size) := c.host.contents node
        let readable ← onHost (Host.limit content.length)
        write (sizeReply size)
        sendCmd t
        retrLoop t (content.take readable) 0
        sendCmd t

/-- The loop of `cmd_stor`, for at most `n` more fragments, into an open file that takes `writable`
more bytes.  A fragment has at least one byte, so `size` rounds are enough. -/
def storLoop (path : Path) (size : ℤ) : ℕ → ℤ → ℕ → EStateM Ex (Client τ) Unit
  | 0, _, _ => return ()
  | n + 1, received, writable =>
      if received < size then do
        let remaining := size - received
        let fragment ← recvBodyFragment t (min remaining bufferSize).toNat
        onHost (Host.append path (fragment.take writable))
        storLoop path size n (received + fragment.length) (writable - fragment.length)
      else return ()

/-- `Client::cmd_stor`. -/
def cmdStor : EStateM Ex (Client τ) Unit := do
  let filename ← extractWord []
  if parola filename = false then answer t .badFile
  else
    let tag ← extractWord []
    let stale ← onHost Host.uninitialised
    let size ← extractInt64 stale
    if tag ≠ text "Size:" then answer t .syntaxError
    else if maxFileSize < size then answer t .commandNotImplemented
    else
      let file ← onHost (Host.openOut (fullpath filename))
      match file with
      | none => answer t .badFile
      | some path =>
          answer t .ok
          let writable ← onHost (Host.limit size.toNat)
          storLoop t path size size.toNat 0 writable

/-- `Client::cmd_unknown`. -/
def cmdUnknown : EStateM Ex (Client τ) Unit := answer t .commandNotImplemented

/-! ### The loop -/

/-- A handler, with a note that it was run. -/
def handle (h : Handler) (m : EStateM Ex (Client τ) Unit) : EStateM Ex (Client τ) Unit := do
  modify fun c => { c with handlers := c.handlers ++ [h] }
  m

/-- The choice of a command, and whether another round follows. -/
def dispatch (cmd : Bytes) : EStateM Ex (Client τ) Bool :=
  if cmd = text "DELE" then do handle .dele (cmdDele t); return true
  else if cmd = text "LIST" then do handle .list (cmdList t); return true
  else if cmd = text "QUIT" then do cmdQuit t; return false
  else if cmd = text "RETR" then do handle .retr (cmdRetr t); return true
  else if cmd = text "STOR" then do handle .stor (cmdStor t); return true
  else do cmdUnknown t; return true

/-- One round of the loop of `execute`, and whether another one follows. -/
def iteration : EStateM Ex (Client τ) Bool := do
  recvCmd t
  let c ← get
  let cmd ← extractWord c.cmd
  modify fun c => { c with cmd := cmd }
  let c ← get
  if c.is.good then dispatch t cmd else return true

/-- At most `n` rounds of the loop of `execute`. -/
def serve : ℕ → EStateM Ex (Client τ) Unit
  | 0 => return ()
  | n + 1 => do
      let more ← iteration t
      if more then serve n else return ()

/-- The object when the first word of a header has been read. -/
def Client.wordRead (c : Client τ) : Client τ :=
  { c with is := (c.is.word c.cmd).2, cmd := (c.is.word c.cmd).1 }

/-- A round reads a header and its first word, and then chooses. -/
theorem iteration_of_recvCmd {c c' : Client τ} (h : (recvCmd t).run c = .ok () c') :
    (iteration t).run c =
      if c'.wordRead.is.good then (dispatch t c'.wordRead.cmd).run c'.wordRead
      else .ok true c'.wordRead := by
  rw [iteration, Exec.bind_of_ok h]
  show (if c'.wordRead.is.good then dispatch t c'.wordRead.cmd else pure true).run c'.wordRead = _
  split <;> rfl

/-! ### The loop as a machine -/

/-- The loop between two rounds; it stops running at `QUIT` and at an exception. -/
structure Loop (τ : Type) where
  running : Bool := true
  client : Client τ

/-- One round, if the loop is running.  There is nothing to observe but the state. -/
def Loop.step (l : Loop τ) (_ : Unit) : Loop τ × List Empty :=
  if l.running then
    match (iteration t).run l.client with
    | .ok more c => (⟨more, c⟩, [])
    | .error _ c => (⟨false, c⟩, [])
  else (l, [])

/-- The loop after `n` rounds. -/
def Loop.after (n : ℕ) (l : Loop τ) : Loop τ :=
  (Machine.run (Loop.step t) l (List.replicate n ())).1

theorem Loop.after_stopped (n : ℕ) (c : Client τ) :
    Loop.after t n ⟨false, c⟩ = ⟨false, c⟩ := by
  induction n with
  | zero => rfl
  | succ n ih => exact ih

/-- **`serve` is a run of the machine.** -/
theorem serve_eq_run (n : ℕ) (c : Client τ) :
    Exec.endState ((serve t n).run c) = (Loop.after t n ⟨true, c⟩).client := by
  induction n generalizing c with
  | zero => rfl
  | succ n ih =>
    have hafter : Loop.after t (n + 1) ⟨true, c⟩ = Loop.after t n (Loop.step t ⟨true, c⟩ ()).1 :=
      rfl
    rw [hafter, serve, Loop.step, if_pos rfl]
    cases h : (iteration t).run c with
    | error e c' =>
      rw [Exec.bind_of_error h]
      simp only [Loop.after_stopped, Exec.endState_error]
    | ok more c' =>
      rw [Exec.bind_of_ok h]
      cases more with
      | true => exact ih c'
      | false =>
        simp only [Loop.after_stopped]
        rfl

/-- The request of the next round has `D`, once its first word is read. -/
def Round (D : Client τ → Prop) (l : Loop τ) (_ : Unit) : Prop :=
  l.running = true → ∀ c, (recvCmd t).run l.client = .ok () c → c.wordRead.is.good = true →
    D c.wordRead

instance (D : Client τ → Prop) [∀ c, Decidable (D c)] (l : Loop τ) (e : Unit) :
    Decidable (Round t D l e) :=
  match hr : (recvCmd t).run l.client with
  | .ok () c => decidable_of_iff (l.running = true → c.wordRead.is.good = true → D c.wordRead)
      ⟨fun h hl _ hc hg => (EStateM.Result.ok.inj (hr.symm.trans hc)).2 ▸
        h hl ((EStateM.Result.ok.inj (hr.symm.trans hc)).2 ▸ hg), fun h hl hg => h hl c hr hg⟩
  | .error _ _ => .isTrue fun _ _ hc => nomatch hr.symm.trans hc

/-- **The rule of rounds.**  `I` is kept by reading a header, and for every request with `D` by the
choice of a command; `J` follows from it, and holds after an exception as well.  Then `J` holds at
the end of a session whose requests all have `D`. -/
theorem serve_invariant {I J D : Client τ → Prop} (hIJ : ∀ c, I c → J c)
    (hrecv : Exec.Triple I (recvCmd t) (fun _ => I) J) (hword : ∀ c, I c → I c.wordRead)
    (hdispatch : ∀ cmd,
      Exec.Triple (fun c => I c ∧ c.cmd = cmd ∧ D c) (dispatch t cmd) (fun _ => I) J)
    {n : ℕ} {c : Client τ} (hc : I c)
    (h : Machine.Meets (Loop.step t) (Round t D) ⟨true, c⟩ (List.replicate n ())) :
    J (Exec.endState ((serve t n).run c)) := by
  rw [serve_eq_run]
  have hinv : ((Loop.after t n ⟨true, c⟩).running = true → I (Loop.after t n ⟨true, c⟩).client) ∧
      J (Loop.after t n ⟨true, c⟩).client := by
    refine Machine.invariant_run
      (I := fun l : Loop τ => (l.running = true → I l.client) ∧ J l.client) ?_
      ⟨fun _ => hc, hIJ c hc⟩ h
    rintro ⟨running, c⟩ ⟨⟩ hl hD
    cases running with
    | false => exact hl
    | true =>
      have hI : I c := hl.1 rfl
      rw [Loop.step, if_pos rfl]
      cases hr : (recvCmd t).run c with
      | error e c' =>
        rw [show (iteration t).run c = .error e c' from Exec.bind_of_error hr]
        exact ⟨fun hf => (Bool.false_ne_true hf).elim, hrecv.of_error hI hr⟩
      | ok u c' =>
        have hc' : I c'.wordRead := hword c' (hrecv.of_ok hI hr)
        rw [iteration_of_recvCmd t hr]
        by_cases hgood : c'.wordRead.is.good = true
        · rw [if_pos hgood]
          have hpre : I c'.wordRead ∧ c'.wordRead.cmd = c'.wordRead.cmd ∧ D c'.wordRead :=
            ⟨hc', rfl, hD rfl c' hr hgood⟩
          cases hrun : (dispatch t c'.wordRead.cmd).run c'.wordRead with
          | error e c'' =>
            exact ⟨fun hf => (Bool.false_ne_true hf).elim, (hdispatch _).of_error hpre hrun⟩
          | ok more c'' =>
            have hI'' : I c'' := (hdispatch _).of_ok hpre hrun
            exact ⟨fun _ => hI'', hIJ c'' hI''⟩
        · rw [if_neg hgood]
          exact ⟨fun _ => hc', hIJ _ hc'⟩
  exact hinv.2

end ServerClient

end Cybrg
