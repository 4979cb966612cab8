import Cybrg.Conversation.Rounds
import Cybrg.Server.Framing

/-!
# Headers on their way

The client builds a header for each request, and the server takes it apart with the extractions of
its loop and of its handlers; a reply goes the other way.

* `RequestHeader`, `ReplyHeader` — what the headers say, with their texts;
* `lastComponent_eq` — the name that `cmd_stor` sends;
* `RequestHeader.perform`, `Client.understood` — a handler behind its extractions, and the object
  when they are done;
* `iteration_understood` — a round of the server on the text of a request;
* `extractReply`, `extractStatus` — what the client takes out of a reply, with `recvFile_eq` and its
  siblings;
* `readsBack` — a reply is read as what it says;
* `issues_sent` — the text that the client sends;
* `headers_survive` — what is sent is what is read, and nothing of a body is taken.
-/

namespace Cybrg

open Streams Files

/-! ### Names -/

theorem components_ne_nil (bs : Bytes) : components bs ≠ [] := by
  cases bs with
  | nil => exact List.cons_ne_nil _ _
  | cons b bs =>
    rw [components]
    split
    · exact List.cons_ne_nil _ _
    · cases components bs <;> exact List.cons_ne_nil _ _

/-- The text behind the last slash. -/
def afterSlash (path : Bytes) : Bytes := path.rtakeWhile (· ≠ slash)

/-- The last component is the text behind the last slash. -/
theorem lastComponent_afterSlash (path : Bytes) :
    ClientMain.lastComponent path = afterSlash path := by
  induction hlen : path.length using Nat.strong_induction_on generalizing path with
  | _ n ih =>
    by_cases hmem : slash ∈ path
    · obtain ⟨a, rest, rfl, ha⟩ := List.eq_append_cons_of_mem hmem
      have hlt : rest.length < n := by
        rw [List.length_append, List.length_cons] at hlen
        omega
      have hrest := ih rest.length hlt rest rfl
      rw [ClientMain.lastComponent, List.getLastD_eq_getLast?] at hrest ⊢
      rw [components_append_slash ha, List.getLast?_cons_of_ne_nil (components_ne_nil rest), hrest,
        afterSlash, afterSlash, IStream.rtakeWhile_append_cons]
    · rw [ClientMain.lastComponent, components_of_plain hmem, afterSlash, eq_comm]
      show path.rtakeWhile _ = path
      rw [List.rtakeWhile_eq_self_iff]
      exact fun b hb => decide_eq_true fun heq => hmem (heq ▸ hb)

/-- **The name that `cmd_stor` sends** is what its loop over the components leaves: the text behind the
last slash. -/
theorem lastComponent_eq (path old : Bytes) {n : ℕ} (hn : path.length + 2 ≤ n) :
    IStream.getlines slash n { rest := path } old = ClientMain.lastComponent path := by
  rw [IStream.getlines_eq slash hn, lastComponent_afterSlash]
  rfl

/-! ### Requests -/

/-- What a request says. -/
inductive RequestHeader where
  | list
  | quit
  | retr (filename : Bytes)
  | dele (filename : Bytes)
  | stor (filename : Bytes) (filesize : ℤ)
  deriving DecidableEq

namespace RequestHeader

/-- The text that the client builds. -/
def toBytes : RequestHeader → Bytes
  | list => text "LIST\n\n"
  | quit => text "QUIT\n\n"
  | retr filename => ClientMain.retrText filename
  | dele filename => ClientMain.deleText filename
  | stor filename filesize => ClientMain.storText filename filesize

/-- A name that is sent is not empty and matches `parola`, and a size is one that is sent. -/
def Sound : RequestHeader → Prop
  | list | quit => True
  | retr filename | dele filename => filename ≠ [] ∧ parola filename = true
  | stor filename filesize =>
      (filename ≠ [] ∧ parola filename = true) ∧ 0 ≤ filesize ∧ filesize ≤ maxFileSize

instance : (r : RequestHeader) → Decidable r.Sound
  | list | quit => inferInstanceAs (Decidable True)
  | retr _ | dele _ => inferInstanceAs (Decidable (_ ∧ _))
  | stor _ _ => inferInstanceAs (Decidable (_ ∧ _))

/-- The lines of the text. -/
def lines : RequestHeader → List Bytes
  | list => [text "LIST"]
  | quit => [text "QUIT"]
  | retr filename => [text "RETR " ++ filename]
  | dele filename => [text "DELE " ++ filename]
  | stor filename filesize => [text "STOR " ++ filename, text "Size: " ++ decimal filesize]

/-- The word that names the command. -/
def word : RequestHeader → Bytes
  | list => text "LIST"
  | quit => text "QUIT"
  | retr _ => text "RETR"
  | dele _ => text "DELE"
  | stor _ _ => text "STOR"

/-- What stands behind this word. -/
def tail : RequestHeader → Bytes
  | list | quit => [10, 10]
  | retr filename | dele filename => 32 :: (filename ++ [10, 10])
  | stor filename filesize => 32 :: (filename ++ sizeLine filesize)

theorem toBytes_lines (r : RequestHeader) : r.toBytes = headerText r.lines := by
  cases r with
  | list => decide
  | quit => decide
  | retr filename => exact ServerClient.retrText_eq filename
  | dele filename => exact ServerClient.deleText_eq filename
  | stor filename filesize => exact ServerClient.storText_eq filename filesize

theorem lines_ne_nil (r : RequestHeader) : r.lines ≠ [] := by
  cases r <;> exact List.cons_ne_nil _ _

theorem toBytes_split (r : RequestHeader) : r.toBytes = r.word ++ r.tail := by
  cases r with
  | list => decide
  | quit => decide
  | retr filename | dele filename =>
    simp only [toBytes, ClientMain.retrText, ClientMain.deleText, List.append_assoc]
    rfl
  | stor filename filesize =>
    simp only [toBytes, ClientMain.storText, newline, List.append_assoc]
    rfl

end RequestHeader

/-- A line with a name on it. -/
theorem line_named {w name : Bytes} (hw : w ≠ [] ∧ 10 ∉ w ∧ 0 ∉ w) (hname : parola name = true) :
    Line (w ++ name) ∧ 0 ∉ w ++ name := by
  obtain ⟨hne, h10, h0⟩ := hw
  refine ⟨⟨List.append_ne_nil_of_left_ne_nil hne name, fun h => ?_⟩, fun h => ?_⟩
  · rcases List.mem_append.mp h with h | h
    · exact h10 h
    · exact (ServerClient.parola_word hname).no_newline h
  · rcases List.mem_append.mp h with h | h
    · exact h0 h
    · exact parola_nonzero hname h

/-- Its size is on a line as well. -/
theorem line_sized (size : ℤ) :
    Line (text "Size: " ++ decimal size) ∧ 0 ∉ text "Size: " ++ decimal size := by
  refine ⟨line_size size, fun h => ?_⟩
  rcases List.mem_append.mp h with h | h
  · revert h
    decide
  · exact nonzero_of_mem_decimal h

theorem nonzero_headerText {lines : List Bytes} (h : ∀ l ∈ lines, 0 ∉ l) : 0 ∉ headerText lines := by
  induction lines with
  | nil => decide
  | cons l lines ih =>
    rw [headerText_cons, List.mem_append, List.mem_cons, not_or, not_or]
    exact ⟨h l List.mem_cons_self, by decide, ih fun l' hl' => h l' (List.mem_cons_of_mem l hl')⟩

namespace RequestHeader

theorem lines_plain {r : RequestHeader} (h : r.Sound) : ∀ l ∈ r.lines, Line l ∧ 0 ∉ l := by
  cases r with
  | list | quit =>
    intro l hl
    rw [List.mem_singleton.mp hl]
    decide
  | retr filename | dele filename =>
    intro l hl
    rw [List.mem_singleton.mp hl]
    exact line_named (by decide) h.2
  | stor filename filesize =>
    exact List.forall_mem_cons.mpr ⟨line_named (by decide) h.1.2,
      List.forall_mem_singleton.mpr (line_sized filesize)⟩

/-- **The empty line of a request is its end**, for every name. -/
theorem scanHeader_toBytes {r : RequestHeader} (h : r.Sound) (hfits : r.toBytes.length < bufferSize)
    (body : Bytes) : Transport.scanHeader (r.toBytes ++ body) = some (r.toBytes, body) := by
  have hlines := lines_plain h
  rw [toBytes_lines] at hfits ⊢
  rw [Transport.scanHeader_headerText (fun l hl => (hlines l hl).1) r.lines_ne_nil hfits,
    upToZero_of_nonzero (nonzero_headerText fun l hl => (hlines l hl).2)]

theorem word_word (r : RequestHeader) : Word r.word := by
  cases r with
  | list =>
    show Word (text "LIST")
    decide
  | quit =>
    show Word (text "QUIT")
    decide
  | retr filename =>
    show Word (text "RETR")
    decide
  | dele filename =>
    show Word (text "DELE")
    decide
  | stor filename filesize =>
    show Word (text "STOR")
    decide

theorem firstWord_toBytes (r : RequestHeader) : firstWord r.toBytes = some (r.word, r.tail) := by
  rw [toBytes_split]
  refine firstWord_append ?_ r.word_word ?_ ?_
  · cases r <;> exact List.cons_ne_nil _ _
  · cases r <;> exact fun b hb => by cases hb; rfl
  · cases r <;> exact List.cons_ne_nil _ _

end RequestHeader

/-! ### Replies -/

/-- What a reply says: a status, or the size of a body behind `OK`. -/
inductive ReplyHeader where
  | status (status : Status)
  | sized (size : ℤ)

namespace ReplyHeader

/-- The text that the server builds. -/
def toBytes : ReplyHeader → Bytes
  | status k => k.reply
  | sized size => sizeReply size

/-- Its status. -/
def code : ReplyHeader → ℤ
  | status k => k.code
  | sized _ => Status.ok.code

/-- What stands behind the status. -/
def rest : ReplyHeader → Bytes
  | status _ => [10, 10]
  | sized size => sizeLine size

theorem int32_toBytes (r : ReplyHeader) (old : ℤ) :
    ({ rest := r.toBytes } : IStream).int32 old = (r.code, { rest := r.rest }) := by
  cases r with
  | status k => exact int32_reply k old
  | sized size => exact int32_sizeReply size old

/-- Its size, if it has one. -/
def size : ReplyHeader → Option ℤ
  | status _ => none
  | sized size => some size

/-- The replies of the server: every status, the size of whatever `cmd_retr` has opened, and the size
of the string in which `cmd_list` puts the names, which has less than 2⁶³ bytes. -/
inductive Built : ReplyHeader → Prop
  | status (k : Status) : Built (.status k)
  | retr (h : Host) (node : Node) : Built (.sized (h.contents node).2)
  | list {names : List Name} (hlen : (ServerClient.listing names).length < 2 ^ 63) :
      Built (.sized ((ServerClient.listing names).length % 2 ^ 64))

/-- A size that is sent fits into the variable it is read into. -/
theorem Built.size_bounds {n : ℤ} (h : Built (.sized n)) : -2 ^ 63 ≤ n ∧ n ≤ 2 ^ 63 - 1 := by
  cases h with
  | retr h node => exact h.contents_end_bounds node
  | list hlen => omega

theorem scanHeader_toBytes {r : ReplyHeader} (h : r.Built) (body : Bytes) :
    Transport.scanHeader (r.toBytes ++ body) = some (r.toBytes, body) := by
  cases r with
  | status k => exact Transport.scanHeader_reply k body
  | sized n =>
    have hbounds := h.size_bounds
    exact Transport.scanHeader_sizeReply (by omega) body

end ReplyHeader

/-! ### The server -/

namespace ServerClient

variable {τ γ : Type} {t : Transport τ} {holds : Bytes → τ → Prop} {half : τ → γ}

/-- `cmd_dele`, when it has the name. -/
def deleNamed (t : Transport τ) (filename : Bytes) : EStateM Ex (Client τ) Unit :=
  if parola filename = false then answer t .badFile
  else do
    let removed ← onHost (Host.remove (fullpath filename))
    if removed then answer t .ok else answer t .badFile

/-- `cmd_retr`, when it has the name. -/
def retrNamed (t : Transport τ) (filename : Bytes) : EStateM Ex (Client τ) Unit :=
  if parola filename = false then answer t .badFile
  else do
    let file ← onHost (Host.openIn (fullpath filename))
    match file with
    | none => answer t .badFile
    | some node =>
        let c ← get
        let (content, size) := c.host.contents node
        let readable ← onHost (Host.limit content.length)
        write (sizeReply size)
        sendCmd t
        retrLoop t (content.take readable) 0
        sendCmd t

/-- `cmd_stor`, when it has the name, the tag and the size. -/
def storNamed (t : Transport τ) (filename tag : Bytes) (size : ℤ) : EStateM Ex (Client τ) Unit :=
  if tag ≠ text "Size:" then answer t .syntaxError
  else if maxFileSize < size then answer t .commandNotImplemented
  else do
    let file ← onHost (Host.openOut (fullpath filename))
    match file with
    | none => answer t .badFile
    | some path =>
        answer t .ok
        let writable ← onHost (Host.limit size.toNat)
        storLoop t path size size.toNat 0 writable

theorem cmdDele_eq (t : Transport τ) : cmdDele t = extractWord [] >>= deleNamed t := rfl

theorem cmdRetr_eq (t : Transport τ) : cmdRetr t = extractWord [] >>= retrNamed t := rfl

theorem cmdStor_eq (t : Transport τ) : cmdStor t = extractWord [] >>= fun filename =>
    if parola filename = false then answer t .badFile
    else extractWord [] >>= fun tag => onHost Host.uninitialised >>= fun stale =>
      extractInt64 stale >>= storNamed t filename tag := rfl

end ServerClient

open ServerClient in
/-- What the server does for a request. -/
def RequestHeader.perform {τ : Type} (t : Transport τ) :
    RequestHeader → EStateM Ex (ServerClient.Client τ) Bool
  | list => do handle .list (cmdList t); return true
  | quit => do cmdQuit t; return false
  | retr filename => do handle .retr (retrNamed t filename); return true
  | dele filename => do handle .dele (deleNamed t filename); return true
  | stor filename filesize => do
      handle .stor (storNamed t filename (text "Size:") filesize)
      return true

namespace ServerClient

variable {τ γ : Type} {t : Transport τ} {holds : Bytes → τ → Prop} {half : τ → γ}

/-- The host when the numbers of a request have been read. -/
def Host.understood (h : Host) : RequestHeader → Host
  | .stor _ _ => h.recalled
  | _ => h

/-- The object when a request has been read, with its name and its size. -/
def Client.understood (c : Client τ) (r : RequestHeader) (l : τ) : Client τ :=
  { c with
    link := l
    host := Host.understood c.host r
    is := { rest := [10, 10] }
    cmd := r.word }

theorem storNamed_of {filename : Bytes} (hne : filename ≠ []) (hname : parola filename = true)
    {size : ℤ} (hlo : 0 ≤ size) (hhi : size ≤ maxFileSize) {c : Client τ}
    (his : c.is = { rest := 32 :: (filename ++ sizeLine size) }) :
    (cmdStor t).run c = (storNamed t filename (text "Size:") size).run { c with
      is := { rest := [10, 10] }, host := c.host.recalled } := by
  have hmax : maxFileSize = 4294967296 := rfl
  have hword : c.is.word [] = (filename, { rest := sizeLine size }) := by
    rw [his]
    exact word_name (parola_word hname) hne rfl
  rw [cmdStor_eq, word_bind hword, if_neg (by rw [hname]; decide), word_bind (word_sizeReply size),
    number_bind, int64_sizeReply (by omega) (by omega)]

/-- A handler is run the same way on both objects. -/
theorem handle_congr (m m' : EStateM Ex (Client τ) Unit) {handler : Handler} {c c' : Client τ}
    (h : m.run { c with handlers := c.handlers ++ [handler] }
      = m'.run { c' with handlers := c'.handlers ++ [handler] }) :
    (handle handler m >>= fun _ => pure true).run c
      = (handle handler m' >>= fun _ => pure true).run c' := by
  have hhandle : (handle handler m).run c = (handle handler m').run c' := h
  rw [EStateM.run_bind, EStateM.run_bind, hhandle]

/-- **The handlers take from a request what it says.** -/
theorem dispatch_understood {r : RequestHeader} (h : r.Sound) (c : Client τ) (l : τ) :
    (dispatch t r.word).run { c with link := l, is := { rest := r.tail }, cmd := r.word }
      = (r.perform t).run (c.understood r l) := by
  cases r with
  | list => rfl
  | quit => rfl
  | retr filename =>
    have hname := word_name (parola_word h.2) h.1 (s := [10, 10]) rfl
    refine handle_congr (cmdRetr t) (retrNamed t filename) ?_
    rw [cmdRetr_eq]
    exact word_bind hname _
  | dele filename =>
    have hname := word_name (parola_word h.2) h.1 (s := [10, 10]) rfl
    refine handle_congr (cmdDele t) (deleNamed t filename) ?_
    rw [cmdDele_eq]
    exact word_bind hname _
  | stor filename filesize =>
    obtain ⟨⟨hne, hname⟩, hlo, hhi⟩ := h
    exact handle_congr (cmdStor t) (storNamed t filename (text "Size:") filesize)
      (storNamed_of hne hname hlo hhi rfl)

/-- **A round on the text of a request** runs the command that the request means, and takes nothing of
what follows it. -/
theorem iteration_understood (hc : t.Carries holds half) {r : RequestHeader} (h : r.Sound)
    (hfits : r.toBytes.length < bufferSize) {c : Client τ} {body : Bytes}
    (hholds : holds (r.toBytes ++ body) c.link) :
    ∃ l, (iteration t).run c = (r.perform t).run (c.understood r l) ∧ holds body l := by
  have hrun := recvCmd_scan hc hholds
  rw [RequestHeader.scanHeader_toBytes h hfits] at hrun
  obtain ⟨l, hrun, hl⟩ := hrun
  have hread := IStream.word_firstWord r.toBytes c.cmd
  rw [RequestHeader.firstWord_toBytes] at hread
  refine ⟨l, ?_, hl⟩
  rw [iteration_of_recvCmd t hrun]
  simp only [Client.wordRead, hread]
  rw [if_pos (by rfl)]
  exact dispatch_understood h c l

end ServerClient

/-! ### The client -/

namespace ClientMain

variable {σ δ : Type} {u : Transport σ} {held : Bytes → σ → Prop} {kept : σ → δ}

/-- The first extractions of `recv_file` and of `recv_list`: the status, and the size if there is one. -/
def extractReply : EStateM Ex (Globals σ) (ℤ × Option ℤ) := do
  let stale ← onHost Host.uninitialised
  let response ← extract (·.int32 stale)
  if response = Status.ok.code then
    let tag ← extract (·.word [])
    if tag ≠ text "Size:" then return (response, none)
    else
      let stale ← onHost Host.uninitialised
      let size ← extract (·.int64 stale)
      return (response, some size)
  else return (response, none)

/-- The extraction of `cmd_stor` and of `cmd_dele`. -/
def extractStatus : EStateM Ex (Globals σ) ℤ := do
  let stale ← onHost Host.uninitialised
  extract (·.int32 stale)

theorem extractStatus_packets : LeavesPackets (extractStatus : EStateM Ex (Globals σ) ℤ) :=
  .bind (onHost_packets _) fun _ => extract_packets _

/-- `recv_file`, when it has the size. -/
def fileBody (u : Transport σ) (filename : Bytes) : Option ℤ → EStateM Ex (Globals σ) Unit
  | none => return ()
  | some filesize =>
      if filesize < 0 then return ()
      else do
        modify fun g => { g with is := g.is.clear.str [] }
        let file ← onHost (Host.openOut (clientRoot ++ filename))
        match file with
        | none => return ()
        | some path =>
            let writable ← onHost (Host.limit filesize.toNat)
            fileLoop u path filesize filesize.toNat 0 writable

/-- `recv_list`, when it has the size. -/
def listBody (u : Transport σ) : Option ℤ → EStateM Ex (Globals σ) Unit
  | none => return ()
  | some msgLen =>
      if msgLen < 0 then return ()
      else do
        modify fun g => { g with is := g.is.clear.str [] }
        listLoop u msgLen msgLen.toNat (List.replicate bufferSize 0) 0

/-- What begins with these extractions. -/
theorem extractReply_bind {α : Type} (k : Option ℤ → EStateM Ex (Globals σ) α) :
    (extractReply >>= fun x => k x.2) =
      onHost Host.uninitialised >>= fun stale => extract (·.int32 stale) >>= fun response =>
        if response = Status.ok.code then extract (·.word []) >>= fun tag =>
          if tag ≠ text "Size:" then k none
          else onHost Host.uninitialised >>= fun stale => extract (·.int64 stale) >>= fun size =>
            k (some size)
        else k none := by
  unfold extractReply
  rw [bind_assoc]
  refine congrArg _ (funext fun stale => ?_)
  rw [bind_assoc]
  refine congrArg _ (funext fun response => ?_)
  split
  · rw [bind_assoc]
    refine congrArg _ (funext fun tag => ?_)
    split
    · rw [pure_bind]
    · simp only [bind_assoc, pure_bind]
  · rw [pure_bind]

theorem recvFile_eq (u : Transport σ) (filename : Bytes) :
    recvFile u filename = extractReply >>= fun x => fileBody u filename x.2 :=
  (extractReply_bind (fileBody u filename)).symm

theorem recvList_eq (u : Transport σ) :
    recvList u = extractReply >>= fun x => listBody u x.2 :=
  (extractReply_bind (listBody u)).symm

/-- The end of `cmd_stor`, behind its request. -/
theorem cmdStor_extracts (u : Transport σ) {filepath : Bytes} (hpath : filepath ≠ []) :
    cmdStor u filepath = onHost (checkAndGetFileSize filepath) >>= fun filesize =>
      match filesize with
      | none => pure ()
      | some filesize =>
          sendCmd u (storText (lastComponent filepath) filesize) >>= fun _ => recvResponse u >>= fun _ =>
            extractStatus >>= fun response =>
              if response = Status.ok.code then sendFile u filepath filesize else pure () := by
  rw [cmdStor, if_neg hpath]
  refine congrArg _ (funext fun filesize => ?_)
  cases filesize with
  | none => rfl
  | some filesize => simp only [extractStatus, bind_assoc]

/-- The end of `cmd_dele`, behind its request. -/
theorem cmdDele_extracts (u : Transport σ) {filename : Bytes} (hname : filename ≠ []) :
    cmdDele u filename = sendCmd u (deleText filename) >>= fun _ => recvResponse u >>= fun _ =>
      extractStatus >>= fun _ => pure () := by
  rw [cmdDele, if_neg hname]
  simp only [extractStatus, bind_assoc]

/-- **A status is taken out of either kind of reply.** -/
theorem extractStatus_bind {r : ReplyHeader} {g : Globals σ} (his : g.is = { rest := r.toBytes })
    {α : Type} (k : ℤ → EStateM Ex (Globals σ) α) :
    (extractStatus >>= k).run g = (k r.code).run (g.recalled { rest := r.rest }) := by
  have hread : ∀ old, g.is.int32 old = (r.code, { rest := r.rest }) := by
    rw [his]
    exact r.int32_toBytes
  rw [extractStatus, bind_assoc]
  exact number_bind (f := (·.int32 ·)) hread k

/-- **The size is taken out as well**, if there is one. -/
theorem extractReply_run {r : ReplyHeader} (h : r.Built) {g : Globals σ}
    (his : g.is = { rest := r.toBytes }) :
    ∃ g', extractReply.run g = .ok (r.code, r.size) g' ∧ g'.link = g.link := by
  have hread : ∀ old, g.is.int32 old = (r.code, { rest := r.rest }) := by
    rw [his]
    exact r.int32_toBytes
  unfold extractReply
  rw [number_bind (f := (·.int32 ·)) hread]
  cases r with
  | status k =>
    by_cases hok : (ReplyHeader.status k).code = Status.ok.code
    · -- nothing but white space is left, and the tag stays empty
      have hnone : ({ rest := [10, 10] } : IStream).word []
          = ([], { rest := [], eof := true, fail := true }) := by decide
      have htag : ([] : Bytes) ≠ text "Size:" := by decide
      rw [if_pos hok, word_bind hnone, if_pos htag]
      exact ⟨_, rfl, rfl⟩
    · rw [if_neg hok]
      exact ⟨_, rfl, rfl⟩
  | sized n =>
    have hbounds := h.size_bounds
    have hok : (ReplyHeader.sized n).code = Status.ok.code := rfl
    rw [if_pos hok, word_bind (word_sizeReply n), if_neg (not_not.mpr rfl),
      number_bind (f := (·.int64 ·)) (int64_sizeReply hbounds.1 hbounds.2)]
    exact ⟨_, rfl, rfl⟩

/-- A reply is read as what it says, and the bytes behind it stay. -/
structure ReadsBack (u : Transport σ) (held : Bytes → σ → Prop) (r : ReplyHeader) (body : Bytes)
    (g : Globals σ) : Prop where
  /-- In `recv_file`. -/
  file : ∀ filename, ∃ g', held body g'.link ∧
    (recvResponse u >>= fun _ => recvFile u filename).run g = (fileBody u filename r.size).run g'
  /-- In `recv_list`. -/
  list : ∃ g', held body g'.link ∧
    (recvResponse u >>= fun _ => recvList u).run g = (listBody u r.size).run g'
  /-- In both. -/
  reply : ∃ g', held body g'.link ∧
    (recvResponse u >>= fun _ => extractReply).run g = .ok (r.code, r.size) g'
  /-- In `cmd_stor` and in `cmd_dele`, whatever they do next. -/
  status : ∃ g', held body g'.link ∧ ∀ k : ℤ → EStateM Ex (Globals σ) Unit,
    (recvResponse u >>= fun _ => extractStatus >>= k).run g = (k r.code).run g'

/-- **A reply is read back.** -/
theorem readsBack (hu : u.Carries held kept) {r : ReplyHeader} (h : r.Built) {g : Globals σ}
    {body : Bytes} (hheld : held (r.toBytes ++ body) g.link) : ReadsBack u held r body g := by
  have hrecv := hu.recvHeader hheld
  rw [ReplyHeader.scanHeader_toBytes h] at hrecv
  obtain ⟨l, hrecv, hl, -⟩ := hrecv
  have hresponse := recvResponse_of_ok hrecv
  obtain ⟨g', hreply, hlink⟩ := extractReply_run h
    (g := { g with link := l, is := { rest := r.toBytes } }) rfl
  have hbody : held body g'.link := hlink.symm ▸ hl
  refine ⟨fun filename => ⟨g', hbody, ?_⟩, ⟨g', hbody, ?_⟩, ⟨g', hbody, ?_⟩, ⟨Globals.recalled
    { g with link := l, is := { rest := r.toBytes } } { rest := r.rest }, hl, fun k => ?_⟩⟩
  · rw [Exec.bind_of_ok hresponse, recvFile_eq, Exec.bind_of_ok hreply]
  · rw [Exec.bind_of_ok hresponse, recvList_eq, Exec.bind_of_ok hreply]
  · rw [Exec.bind_of_ok hresponse, hreply]
  · rw [Exec.bind_of_ok hresponse, extractStatus_bind rfl]

/-! ### Its requests -/

/-- Which function of the client is to send which request. -/
inductive Issues (u : Transport σ) (g : Globals σ) : EStateM Ex (Globals σ) Unit → RequestHeader → Prop
  | list : Issues u g (cmdRemoteList u) .list
  | quit : Issues u g (cmdQuit u) .quit
  | retr {filename : Bytes} : Issues u g (cmdRetr u filename) (.retr filename)
  | dele {filename : Bytes} : Issues u g (cmdDele u filename) (.dele filename)
  | stor {filepath : Bytes} {filesize : ℤ} {h' : Host}
      (hsize : (checkAndGetFileSize filepath).run g.host = .ok (some filesize) h') :
      Issues u g (cmdStor u filepath) (.stor (afterSlash filepath) filesize)

/-- What was given to `Crypto::send` stays. -/
def Grows {α : Type} (m : EStateM Ex (Globals σ) α) : Prop :=
  Exec.Within (fun g g' => g.packets <+: g'.packets) m

theorem grows_path : Exec.Path fun g g' : Globals σ => g.packets <+: g'.packets :=
  ⟨fun _ => List.prefix_rfl, fun _ _ _ => List.IsPrefix.trans⟩

theorem LeavesPackets.grows {α : Type} {m : EStateM Ex (Globals σ) α} (h : LeavesPackets m) :
    Grows m := by
  intro g
  show g.packets <+: _
  rw [h g]

theorem cryptoSend_grows (plaintext : Bytes) : Grows (cryptoSend u plaintext) := by
  refine .bind grows_path (.modify fun g => List.prefix_append _ _) fun _ => ?_
  exact .bind grows_path (onLink_packets _).grows fun _ => .pure grows_path ()

theorem sendLoop_grows (n : ℕ) (file buffer : Bytes) (remainingBytes : ℤ) :
    Grows (sendLoop u n file buffer remainingBytes) := by
  induction n generalizing file buffer remainingBytes with
  | zero => exact .pure grows_path ()
  | succ n ih =>
    refine .ite ?_ (.pure grows_path ())
    exact .bind grows_path (cryptoSend_grows _) fun _ => ih _ _ _

theorem sendFile_grows (filepath : Bytes) (size : ℤ) : Grows (sendFile u filepath size) := by
  refine .bind grows_path (onHost_packets _).grows fun file => ?_
  cases file with
  | none => exact .pure grows_path ()
  | some node =>
    refine .bind grows_path (.get grows_path) fun g => ?_
    exact .bind grows_path (onHost_packets _).grows fun _ => sendLoop_grows _ _ _ _

/-- What is sent first. -/
theorem sendCmd_first {α : Type} {cmd : Bytes} {k : Unit → EStateM Ex (Globals σ) α}
    (hk : ∀ x, Grows (k x)) (g : Globals σ) :
    g.packets ++ [cmd] <+: (Exec.endState ((sendCmd u cmd >>= k).run g)).packets := by
  have hrest : Grows ((onLink (u.send cmd) >>= fun _ => pure ()) >>= k) :=
    .bind grows_path (.bind grows_path (onLink_packets _).grows fun _ => .pure grows_path ()) hk
  unfold sendCmd cryptoSend
  rw [bind_assoc, Exec.bind_of_ok (EStateM.run_modify _ g)]
  exact hrest { g with packets := g.packets ++ [cmd] }

/-- **The client sends the text of a request** before anything else. -/
theorem issues_sent {g : Globals σ} {m : EStateM Ex (Globals σ) Unit} {r : RequestHeader}
    (h : Issues u g m r) (hr : r.Sound) :
    g.packets ++ [r.toBytes] <+: (Exec.endState (m.run g)).packets := by
  have hresponse : Grows (recvResponse u) := recvResponse_packets.grows
  cases h with
  | list =>
    exact sendCmd_first (fun _ => .bind grows_path hresponse fun _ => recvList_packets.grows) g
  | quit => exact sendCmd_first (fun _ => hresponse) g
  | retr =>
    rename_i filename
    rw [cmdRetr, if_neg hr.1]
    exact sendCmd_first (fun _ => .bind grows_path hresponse fun _ =>
      (recvFile_packets filename).grows) g
  | dele =>
    rw [cmdDele_extracts u hr.1]
    refine sendCmd_first (fun _ => .bind grows_path hresponse fun _ => ?_) g
    exact .bind grows_path extractStatus_packets.grows fun _ => .pure grows_path ()
  | stor hsize =>
    rename_i filepath filesize h'
    have hpath : filepath ≠ [] := by
      rintro rfl
      exact hr.1.1 rfl
    have hhost := onHost_of_ok (g := g) hsize
    rw [cmdStor_extracts u hpath, Exec.bind_of_ok hhost]
    dsimp only
    rw [lastComponent_afterSlash]
    refine sendCmd_first (fun _ => .bind grows_path hresponse fun _ => ?_) { g with host := h' }
    refine .bind grows_path extractStatus_packets.grows fun _ => ?_
    exact .ite (sendFile_grows filepath filesize) (.pure grows_path ())

end ClientMain

/-! ### Both ways -/

open ServerClient in
/-- **Headers survive the trip.** -/
theorem headers_survive {τ γ σ δ : Type} {t : Transport τ} {holds : Bytes → τ → Prop} {half : τ → γ}
    (hc : t.Carries holds half) {u : Transport σ} {held : Bytes → σ → Prop} {kept : σ → δ}
    (hu : u.Carries held kept) :
    (∀ (path old : Bytes) (n : ℕ), path.length + 2 ≤ n →
      IStream.getlines slash n { rest := path } old = ClientMain.lastComponent path) ∧
    (∀ r : RequestHeader, r.Sound → r.toBytes.length < bufferSize →
      (∀ (g : ClientMain.Globals σ) m, ClientMain.Issues u g m r →
        g.packets ++ [r.toBytes] <+: (Exec.endState (m.run g)).packets) ∧
      ∀ (c : Client τ) (body : Bytes), holds (r.toBytes ++ body) c.link →
        ∃ l, (iteration t).run c = (r.perform t).run (c.understood r l) ∧ holds body l) ∧
    ∀ r : ReplyHeader, r.Built → ∀ (g : ClientMain.Globals σ) (body : Bytes),
      held (r.toBytes ++ body) g.link → ClientMain.ReadsBack u held r body g := by
  refine ⟨fun path old n hn => lastComponent_eq path old hn, fun r hr hfits => ⟨?_, ?_⟩, ?_⟩
  · exact fun g m hissues => ClientMain.issues_sent hissues hr
  · exact fun c body hholds => iteration_understood hc hr hfits hholds
  · exact fun r hr g body hheld => ClientMain.readsBack hu hr hheld

/-- A client that has a file of three bytes at `d/a.b`. -/
def withFile (stream : Bytes) : ClientMain.Globals Bytes where
  link := stream
  host := { store :=
    { entries := [([], .dir), ([text "d"], .dir), ([text "d", text "a.b"], .file [1, 2, 3])]
      nodup := by decide } }

/-- A request to store this file, and the size of a file that comes. -/
theorem headers_survive_plain :
    [text "STOR a.b\nSize: 3\n\n"] <+: (Exec.endState
      ((ClientMain.cmdStor .plain (text "d/a.b")).run (withFile []))).packets ∧
    (∃ l, (ServerClient.iteration .plain).run
        (ServerClient.emptyRoot (text "STOR a.b\nSize: 3\n\n" ++ [1, 2, 3]))
      = ((RequestHeader.stor (text "a.b") 3).perform .plain).run
        ((ServerClient.emptyRoot (text "STOR a.b\nSize: 3\n\n" ++ [1, 2, 3])).understood
          (.stor (text "a.b") 3) l) ∧ l = [1, 2, 3]) ∧
    ClientMain.ReadsBack .plain (fun s l => l = s)
      (.sized (({ store := (withFile []).host.store } : Host).contents (.file [1, 2, 3])).2) [1, 2, 3]
      (withFile (sizeReply 3 ++ [1, 2, 3])) := by
  have htext : text "STOR a.b\nSize: 3\n\n" = (RequestHeader.stor (text "a.b") 3).toBytes := by decide
  obtain ⟨-, hrequest, hreply⟩ := headers_survive plain_carries plain_carries
  have hstor := hrequest (.stor (text "a.b") 3) (by decide) (by decide)
  rw [htext]
  refine ⟨?_, hstor.2 _ _ rfl, hreply _ (.retr _ _) _ _ ?_⟩
  · exact hstor.1 (withFile []) (ClientMain.cmdStor .plain (text "d/a.b")) (.stor rfl)
  · decide

end Cybrg
