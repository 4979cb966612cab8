import Cybrg.Common.Host
import Cybrg.Common.Transport
import Cybrg.Library.Machine

/-!
# The client program after its handshake

The client reads lines from its user, turns them into requests, and works on its own files with what
it has read or is to send.

* `sendCmd`, `sendFragment`, `sendFile` — what is sent;
* `recvResponse`, `recvList`, `recvFile` — what is read;
* `cmdRemoteList`, `cmdQuit`, `cmdRetr`, `cmdStor`, `cmdDele`, `parseCmd` — the commands;
* `Prompt.step` — one line of the user.
-/

namespace Cybrg

open Streams Files

namespace ClientMain

/-- `CLIENT_ROOT`. -/
def clientRoot : Bytes := text "downloads/"

/-- The global variables of the client and the system it runs on.  The program never reads the last
two fields. -/
structure Globals (τ : Type) where
  link : τ
  host : Host
  is : IStream := {}
  /-- What lies in memory behind a full buffer. -/
  beyond : Bytes := []
  /-- The lines that were written to `cout`. -/
  printed : List Bytes := []
  /-- What was given to `Crypto::send`. -/
  packets : List Bytes := []

variable {τ : Type}

/-- Run a call of the secure layer. -/
def onLink {α : Type} (m : EStateM Ex τ α) : EStateM Ex (Globals τ) α :=
  Exec.zoom (·.link) (fun l g => { g with link := l }) m

/-- Run a call of the operating system. -/
def onHost {α : Type} (m : EStateM Ex Host α) : EStateM Ex (Globals τ) α :=
  Exec.zoom (·.host) (fun h g => { g with host := h }) m

/-- Extract something from `is`. -/
def extract {α : Type} (f : IStream → α × IStream) : EStateM Ex (Globals τ) α := do
  let g ← get
  modify fun g => { g with is := (f g.is).2 }
  return (f g.is).1

variable (t : Transport τ)

/-! ### Send and receive -/

/-- `crypto->send(connection, ...)`. -/
def cryptoSend (plaintext : Bytes) : EStateM Ex (Globals τ) Unit := do
  modify fun g => { g with packets := g.packets ++ [plaintext] }
  let _ ← onLink (t.send plaintext)
  return ()

/-- `send_cmd`. -/
def sendCmd (cmd : Bytes) : EStateM Ex (Globals τ) Unit := cryptoSend t cmd

/-- `send_fragment`. -/
def sendFragment (buffer : Bytes) : EStateM Ex (Globals τ) Unit := cryptoSend t buffer

/-- The loop of `send_file`, for at most `n` fragments: `file` is what can still be read, and
`buffer` the array, which keeps what a shorter read does not overwrite. -/
def sendLoop : ℕ → Bytes → Bytes → ℤ → EStateM Ex (Globals τ) Unit
  | 0, _, _, _ => return ()
  | n + 1, file, buffer, remainingBytes =>
      if 0 < remainingBytes then do
        let fragment := (min remainingBytes bufferSize).toNat
        let got := file.take fragment
        let buffer := got ++ buffer.drop got.length
        sendFragment t (buffer.take fragment)
        sendLoop n (file.drop fragment) buffer (remainingBytes - fragment)
      else return ()

/-- `send_file`. -/
def sendFile (filepath : Bytes) (size : ℤ) : EStateM Ex (Globals τ) Unit := do
  let file ← onHost (Host.openIn filepath)
  match file with
  | none => return ()
  | some node =>
      let g ← get
      let content := (g.host.contents node).1
      let readable ← onHost (Host.limit content.length)
      sendLoop t size.toNat (content.take readable) ((List.range bufferSize).map g.host.junk) size

/-- `recv_response`. -/
def recvResponse : EStateM Ex (Globals τ) Unit := do
  modify fun g => { g with is := g.is.clear.str [] }
  let header ← onLink t.recvHeader
  modify fun g => { g with is := g.is.str header }

/-- `recv_fragment`. -/
def recvFragment (len : ℕ) : EStateM Ex (Globals τ) Bytes := onLink (t.recv len)

/-- Print the words of `is`, each on a line. -/
def printWords : EStateM Ex (Globals τ) Unit :=
  modify fun g =>
    let (ws, is) := g.is.words (g.is.rest.length + 1)
    { g with is, printed := g.printed ++ ws }

/-- The loop of `recv_list`, for at most `n` fragments.  A fragment has at least one byte. -/
def listLoop (msgLen : ℤ) : ℕ → Bytes → ℤ → EStateM Ex (Globals τ) Unit
  | 0, _, _ => return ()
  | n + 1, buffer, recvBytes =>
      if recvBytes < msgLen then do
        let got ← recvFragment t (min (msgLen - recvBytes) bufferSize).toNat
        let buffer := got ++ buffer.drop got.length
        modify fun g => { g with is := g.is.str ((buffer ++ g.beyond).takeWhile (· ≠ 0)) }
        printWords
        listLoop msgLen n buffer (recvBytes + got.length)
      else return ()

/-- `recv_list`. -/
def recvList : EStateM Ex (Globals τ) Unit := do
  let stale ← onHost Host.uninitialised
  let response ← extract (·.int32 stale)
  if response = Status.ok.code then
    let tag ← extract (·.word [])
    if tag ≠ text "Size:" then return ()
    else
      let stale ← onHost Host.uninitialised
      let msgLen ← extract (·.int64 stale)
      if msgLen < 0 then return ()
      else
        modify fun g => { g with is := g.is.clear.str [] }
        listLoop t msgLen msgLen.toNat (List.replicate bufferSize 0) 0
  else return ()

/-- The loop of `recv_file`, for at most `n` fragments, into an open file that takes `writable` more
bytes. -/
def fileLoop (path : Path) (filesize : ℤ) : ℕ → ℤ → ℕ → EStateM Ex (Globals τ) Unit
  | 0, _, _ => return ()
  | n + 1, recvBytes, writable =>
      if recvBytes < filesize then do
        let got ← recvFragment t (min (filesize - recvBytes) bufferSize).toNat
        onHost (Host.append path (got.take writable))
        fileLoop path filesize n (recvBytes + got.length) (writable - got.length)
      else return ()

/-- `recv_file`. -/
def recvFile (filename : Bytes) : EStateM Ex (Globals τ) Unit := do
  let stale ← onHost Host.uninitialised
  let response ← extract (·.int32 stale)
  if response = Status.ok.code then
    let tag ← extract (·.word [])
    if tag ≠ text "Size:" then return ()
    else
      let stale ← onHost Host.uninitialised
      let filesize ← extract (·.int64 stale)
      if filesize < 0 then return ()
      else
        modify fun g => { g with is := g.is.clear.str [] }
        let file ← onHost (Host.openOut (clientRoot ++ filename))
        match file with
        | none => return ()
        | some path =>
            let writable ← onHost (Host.limit filesize.toNat)
            fileLoop t path filesize filesize.toNat 0 writable
  else return ()

/-- `check_and_get_file_size`: the size, if it returned true. -/
def checkAndGetFileSize (filename : Bytes) : EStateM Ex Host (Option ℤ) := do
  let regular ← Host.isFile filename
  if regular then
    let file ← Host.openIn filename
    match file with
    | none => return none
    | some node =>
        let h ← get
        let size := (h.contents node).2
        return if maxFileSize < size then none else some size
  else return none

/-! ### Commands -/

/-- `"RETR " + filename + "\n\n"`. -/
def retrText (filename : Bytes) : Bytes := text "RETR " ++ filename ++ newline ++ newline

/-- `"DELE " + filename + "\n\n"`. -/
def deleText (filename : Bytes) : Bytes := text "DELE " ++ filename ++ newline ++ newline

/-- `"STOR " + filename + "\nSize: " + to_string(filesize) + "\n\n"`. -/
def storText (filename : Bytes) (filesize : ℤ) : Bytes :=
  text "STOR " ++ filename ++ newline ++ text "Size: " ++ decimal filesize ++ newline ++ newline

/-- What `while (getline(ss, filename, '/'))` leaves in `filename`. -/
def lastComponent (filepath : Bytes) : Bytes := (components filepath).getLastD []

/-- `cmd_local_list`. -/
def cmdLocalList (path : Bytes) : EStateM Ex (Globals τ) Unit := do
  let path := if path = [] then dot else path
  let dd ← onHost (Host.readDir path)
  match dd with
  | none => return ()
  | some names =>
      let lines ← names.mapM fun name => do
        let regular ← onHost (Host.isFile (path ++ slash :: name))
        return (if regular then text "- " else text "d ") ++ name
      modify fun g => { g with printed := g.printed ++ lines }

/-- `cmd_remote_list`. -/
def cmdRemoteList : EStateM Ex (Globals τ) Unit := do
  sendCmd t (text "LIST\n\n")
  recvResponse t
  recvList t

/-- `cmd_quit`, up to `quit()`. -/
def cmdQuit : EStateM Ex (Globals τ) Unit := do
  sendCmd t (text "QUIT\n\n")
  recvResponse t

/-- `cmd_retr`. -/
def cmdRetr (filename : Bytes) : EStateM Ex (Globals τ) Unit :=
  if filename = [] then return ()
  else do
    sendCmd t (retrText filename)
    recvResponse t
    recvFile t filename

/-- `cmd_stor`. -/
def cmdStor (filepath : Bytes) : EStateM Ex (Globals τ) Unit :=
  if filepath = [] then return ()
  else do
    let filesize ← onHost (checkAndGetFileSize filepath)
    match filesize with
    | none => return ()
    | some filesize =>
        sendCmd t (storText (lastComponent filepath) filesize)
        recvResponse t
        let stale ← onHost Host.uninitialised
        let response ← extract (·.int32 stale)
        if response = Status.ok.code then sendFile t filepath filesize else return ()

/-- `cmd_dele`. -/
def cmdDele (filename : Bytes) : EStateM Ex (Globals τ) Unit :=
  if filename = [] then return ()
  else do
    sendCmd t (deleText filename)
    recvResponse t
    let stale ← onHost Host.uninitialised
    let _ ← extract (·.int32 stale)
    return ()

/-- The choice of a command, and whether the program goes on. -/
def dispatch (strCmd arg : Bytes) : EStateM Ex (Globals τ) Bool :=
  if strCmd = text "q" then do cmdQuit t; return false
  else if strCmd = text "lls" then do cmdLocalList arg; return true
  else if strCmd = text "rls" then do cmdRemoteList t; return true
  else if strCmd = text "get" then do cmdRetr t arg; return true
  else if strCmd = text "put" then do cmdStor t arg; return true
  else if strCmd = text "rm" then do cmdDele t arg; return true
  else return true

/-- `parse_cmd`. -/
def parseCmd : EStateM Ex (Globals τ) Bool := do
  let strCmd ← extract (·.word [])
  let arg ← extract (·.word [])
  dispatch t strCmd arg

/-- One round of the loop of `main`, for what `getline(cin, line)` finds. -/
def round (line : Option Bytes) : EStateM Ex (Globals τ) Bool := do
  let line := line.getD (text "q")
  modify fun g => { g with is := g.is.clear.str line }
  if line = [] then return true else parseCmd t

/-! ### The program as a machine -/

/-- The program between two lines. -/
structure Prompt (τ : Type) where
  running : Bool := true
  globals : Globals τ

/-- One line, if the program is running.  There is nothing to observe but the state. -/
def Prompt.step (p : Prompt τ) (line : Option Bytes) : Prompt τ × List Empty :=
  if p.running then
    match (round t line).run p.globals with
    | .ok more g => (⟨more, g⟩, [])
    | .error _ g => (⟨false, g⟩, [])
  else (p, [])

end ClientMain

end Cybrg
