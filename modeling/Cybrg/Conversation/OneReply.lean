import Cybrg.Conversation.Rounds
import Cybrg.Server.Framing
import Cybrg.Server.StoreRequests

/-!
# One reply for each request

What a server that reads from a string answers to the headers that it is sent, whatever they contain.

* `Answer`, `answerTo` — the reply to a command, as a function of its words and of the host;
* `Command`, `WellFormed` — a header with its body, and what is assumed of it;
* `round_replies` — a round reads one request and sends its reply, or nothing if there is no first
  word;
* `one_reply_each` — and so on, for any sequence of requests.
-/

namespace Cybrg

open Streams Files

namespace ServerClient

/-! ### Replies -/

/-- A reply: its header, and the packets of its body. -/
structure Answer where
  header : Bytes
  body : List Bytes := []
  deriving DecidableEq

def Answer.packets (answer : Answer) : List Bytes := answer.header :: answer.body

/-- `DDD LF [Size: n LF] LF`. -/
def StatusReply (header : Bytes) : Prop :=
  (∃ status : Status, header = status.reply) ∨ ∃ size : ℤ, header = sizeReply size

/-- The answer to a request for a listing of the names that are there. -/
def listAnswer : Option (List Name) → Answer
  | none => { header := Status.serverError.reply }
  | some names => {
      header := sizeReply ((listing names).length % 2 ^ 64)
      body := packetsOf (listing names) }

/-- The answer to a request for a file, from what was opened and the host after that. -/
def retrAnswer : Option Node × Host → Answer
  | (none, _) => { header := Status.badFile.reply }
  | (some node, h) => {
      header := sizeReply (h.contents node).2
      body := bodyPackets (readableOf h node) }

/-- The answer to a command word and the words behind it. -/
def answerTo (h : Host) (cmd : Bytes) (ws : List Bytes) : Answer :=
  if cmd = text "DELE" then { header := (deleted h (ws.headD [])).1.reply }
  else if cmd = text "LIST" then listAnswer (lists h)
  else if cmd = text "QUIT" then { header := Status.ok.reply }
  else if cmd = text "RETR" then retrAnswer (opened h (ws.headD []))
  else if cmd = text "STOR" then { header := (storStatus h 0 ws).reply }
  else { header := Status.commandNotImplemented.reply }

/-- The command word of a header and the words behind it, as far as a header is read: up to its
first zero. -/
def commandOf (header : Bytes) : Option (Bytes × List Bytes) :=
  (firstWord (upToZero header)).map fun x => (x.1, tokens x.2)

theorem listAnswer_statusReply (dd : Option (List Name)) : StatusReply (listAnswer dd).header := by
  cases dd with
  | none => exact .inl ⟨_, rfl⟩
  | some names => exact .inr ⟨_, rfl⟩

theorem retrAnswer_statusReply (x : Option Node × Host) : StatusReply (retrAnswer x).header := by
  rcases x with ⟨- | node, h⟩
  · exact .inl ⟨_, rfl⟩
  · exact .inr ⟨_, rfl⟩

/-- Each answer begins with one status reply. -/
theorem answerTo_statusReply (h : Host) (cmd : Bytes) (ws : List Bytes) :
    StatusReply (answerTo h cmd ws).header := by
  unfold answerTo
  split
  · exact .inl ⟨_, rfl⟩
  split
  · exact listAnswer_statusReply _
  split
  · exact .inl ⟨_, rfl⟩
  split
  · exact retrAnswer_statusReply _
  split
  · exact .inl ⟨_, rfl⟩
  · exact .inl ⟨_, rfl⟩

theorem deleted_stale (h : Host) (stale : List ℤ) (filename : Bytes) :
    (deleted { h with stale := stale } filename).1 = (deleted h filename).1 := by
  unfold deleted
  split <;> rfl

theorem opened_stale (h : Host) (stale : List ℤ) (filename : Bytes) :
    opened { h with stale := stale } filename
      = ((opened h filename).1, { (opened h filename).2 with stale := stale }) := by
  unfold opened
  split
  · rfl
  · have htries : ({ h with stale := stale } : Host).tries (h.store.reads (fullpath filename))
        = h.tries (h.store.reads (fullpath filename)) := rfl
    dsimp only
    rw [htries]
    cases h.tries (h.store.reads (fullpath filename)) <;> rfl

theorem storStatus_host (h : Host) (stale : List ℤ) (old : ℤ) (ws : List Bytes) :
    storStatus { h with stale := stale } old ws = storStatus h old ws := by
  rcases ws with - | ⟨name, - | ⟨tag, rest⟩⟩ <;> rfl

theorem retrAnswer_stale (file : Option Node) (h : Host) (stale : List ℤ) :
    retrAnswer (file, { h with stale := stale }) = retrAnswer (file, h) := by
  rcases file with - | node
  · rfl
  · cases node <;> rfl

/-- What lies in variables that were not written makes no difference to the answer. -/
theorem answerTo_stale (h : Host) (stale : List ℤ) (cmd : Bytes) (ws : List Bytes) :
    answerTo { h with stale := stale } cmd ws = answerTo h cmd ws := by
  unfold answerTo
  rw [deleted_stale, opened_stale, retrAnswer_stale, storStatus_host]
  rfl

/-! ### Requests -/

/-- A header, and the body that follows it. -/
structure Command where
  header : Bytes
  body : Bytes := []

/-- What the client sends. -/
def streamOf (rs : List Command) : Bytes := rs.flatMap fun r => r.header ++ r.body

/-- How long the body is that follows a header: a request to store a file that is accepted declares
one. -/
def bodySize (h : Host) (cmd : Bytes) (ws : List Bytes) : ℕ :=
  if cmd = text "STOR" ∧ storStatus h 0 ws = .ok then (sizeRead 0 (ws.drop 2)).toNat else 0

/-- A request as a client may send it to a server on the host `h`.  A request to store a file that
names a file and the tag also names a size. -/
structure WellFormed (h : Host) (r : Command) : Prop where
  ends : EndsFirst r.header
  fits : r.header.length < bufferSize
  sized : ∀ ws, commandOf r.header = some (text "STOR", ws) → ∀ name, parola name = true →
    ws ≠ [name, text "Size:"]
  body : r.body.length = match commandOf r.header with
    | none => 0
    | some (cmd, ws) => bodySize h cmd ws

/-! ### Rounds -/

/-- What a round has read and sent: `rest` is still to come, and the packets `ps` were sent. -/
structure Replied (c c' : Client Bytes) (rest : Bytes) (ps : List Bytes) : Prop where
  link : c'.link = rest
  os : c'.os = []
  packets : c'.packets = c.packets ++ ps

/-- **A header without a first word** is read, and that is all. -/
theorem iteration_of_no_word {c : Client Bytes} {header rest : Bytes} (hos : c.os = [])
    (h : Transport.scanHeader c.link = some (header, rest)) (hword : firstWord header = none) :
    ∃ c', (iteration .plain).run c = .ok true c' ∧ Replied c c' rest [] := by
  have hread := IStream.word_firstWord header c.cmd
  rw [hword] at hread
  refine ⟨_, (iteration_of_recvCmd .plain (recvCmd_plain h)).trans (if_neg ?_), rfl, hos,
    (List.append_nil _).symm⟩
  exact Bool.eq_false_iff.mp hread

section Handlers

variable {c : Client Bytes} (hos : c.os = [])

include hos

theorem answer_sent (status : Status) : ∃ c', (answer .plain status).run c = .ok () c' ∧
    Replied c c' c.link [status.reply] :=
  ⟨_, answer_plain c hos status, rfl, hos, rfl⟩

theorem dele_sent (hready : c.is.Ready) : ∃ c', (cmdDele .plain).run c = .ok () c' ∧
    Replied c c' c.link [(deleted c.host ((tokens c.is.rest).headD [])).1.reply] := by
  rw [← IStream.word_headD hready]
  exact ⟨_, cmdDele_plain hos, rfl, hos, rfl⟩

theorem list_sent : ∃ c', (cmdList .plain).run c = .ok () c' ∧
    Replied c c' c.link (listAnswer (lists c.host)).packets := by
  have hpackets : listPackets (lists c.host) = (listAnswer (lists c.host)).packets := by
    cases lists c.host <;> rfl
  rw [← hpackets]
  exact ⟨_, cmdList_plain hos, rfl, hos, rfl⟩

theorem retr_sent (hready : c.is.Ready) : ∃ c', (cmdRetr .plain).run c = .ok () c' ∧
    Replied c c' c.link (retrAnswer (opened c.host ((tokens c.is.rest).headD []))).packets := by
  rw [← IStream.word_headD hready]
  cases hopened : (opened c.host (c.is.word []).1).1 with
  | none =>
    rw [← Prod.mk.eta (p := opened c.host (c.is.word []).1), hopened]
    exact ⟨_, cmdRetr_refused hos hopened, rfl, hos, rfl⟩
  | some node =>
    rw [← Prod.mk.eta (p := opened c.host (c.is.word []).1), hopened]
    exact ⟨_, cmdRetr_plain hos hopened, rfl, hos, rfl⟩

/-- The loop takes the body from the string. -/
theorem storLoop_sent {n : ℤ} {body rest : Bytes} (hlink : c.link = body ++ rest)
    (hbody : body.length = n.toNat) (path : Path) (writable : ℕ) :
    ∃ c', (storLoop .plain path n n.toNat 0 writable).run c = .ok () c' ∧ Replied c c' rest [] := by
  have hloop := storLoop_run plain_carries path n n.toNat 0 writable hlink (by rw [Int.sub_zero])
  rw [Int.sub_zero, ← hbody, if_pos (by rw [List.length_append]; exact Nat.le_add_right _ _),
    List.drop_left] at hloop
  obtain ⟨l, hrun, hl, -⟩ := hloop
  rw [← hbody]
  exact ⟨_, hrun, hl, hos, (List.append_nil _).symm⟩

/-- **An upload**: its body is taken from the string if it is accepted. -/
theorem stor_sent {tail body rest : Bytes} (his : c.is = { rest := tail })
    (hlink : c.link = body ++ rest)
    (hsized : ∀ name, parola name = true → tokens tail ≠ [name, text "Size:"])
    (hbody : body.length = if storStatus c.host 0 (tokens tail) = .ok then
      (sizeRead 0 ((tokens tail).drop 2)).toNat else 0) :
    ∃ c', (cmdStor .plain).run c = .ok () c' ∧
      Replied c c' rest [(storStatus c.host 0 (tokens tail)).reply] := by
  have hc : c.reading tail = c := by rw [Client.reading, ← his]
  rw [← storStatus_of_named hsized c.host c.stale] at hbody ⊢
  rcases stor_cases .plain c tail with ⟨hne, is, host, -, hrun⟩ | ⟨hok, name, ws, hasks, hopen⟩
  · -- refused: there is no body
    rw [if_neg hne] at hbody
    rw [List.length_eq_zero_iff.mp hbody, List.nil_append] at hlink
    rw [hc] at hrun
    refine ⟨_, hrun.trans (answer_plain _ (by exact hos) _), hlink, hos, rfl⟩
  · obtain ⟨is, path, was, -, hrun⟩ := stor_accepts (t := .plain) hasks hopen
    have hwords : ws ≠ [] := by
      rintro rfl
      exact hsized name hasks.2.1 hasks.1
    have hsize : body.length = (sizeRead c.stale ws).toNat := by
      rw [hbody, if_pos hok, hasks.1, sizeRead_of_named hwords c.stale]
      rfl
    rw [hc] at hrun
    have hanswer := answer_plain { c with
      is := is
      host := c.host.recalled.called .openOut (some (path, was, c.host.store.truncate path)) } hos .ok
    have hlimit := onHost_of_ok (c := { c with
      is := is
      host := c.host.recalled.called .openOut (some (path, was, c.host.store.truncate path))
      packets := c.packets ++ [Status.ok.reply] }) (Host.run_limit (sizeRead c.stale ws).toNat _)
    obtain ⟨c', hloop, hsent⟩ := storLoop_sent (c := { c with
      is := is
      host := (c.host.recalled.called .openOut
        (some (path, was, c.host.store.truncate path))).limited
      packets := c.packets ++ [Status.ok.reply] }) hos hlink hsize path
        (c.host.limits.headD (sizeRead c.stale ws).toNat)
    refine ⟨c', ?_, hsent.link, hsent.os, ?_⟩
    · exact hrun.trans ((Exec.bind_of_ok hanswer).trans ((Exec.bind_of_ok hlimit).trans hloop))
    · rw [hok, hsent.packets, List.append_nil]

end Handlers

/-- A handler that is run by the loop. -/
theorem handle_run {c c' : Client Bytes} {h : Handler} {m : EStateM Ex (Client Bytes) Unit}
    (hrun : m.run { c with handlers := c.handlers ++ [h] } = .ok () c') :
    (handle h m >>= fun _ => pure true).run c = .ok true c' :=
  Exec.bind_of_ok hrun

theorem bodySize_of_ne {h : Host} {w : Bytes} {ws : List Bytes} (hw : w ≠ text "STOR") :
    bodySize h w ws = 0 := if_neg fun h => hw h.1

/-- **The choice of a command**: its reply is sent, and its body is taken from the string. -/
theorem dispatch_sent {c : Client Bytes} (hos : c.os = []) {w tail body rest : Bytes}
    (his : c.is = { rest := tail }) (hlink : c.link = body ++ rest)
    (hsized : w = text "STOR" → ∀ name, parola name = true → tokens tail ≠ [name, text "Size:"])
    (hbody : body.length = bodySize c.host w (tokens tail)) :
    ∃ c', (dispatch .plain w).run c = .ok (decide (w ≠ text "QUIT")) c' ∧
      Replied c c' rest (answerTo c.host w (tokens tail)).packets := by
  have hready : c.is.Ready := .inl (by rw [his]; rfl)
  have hrest : tokens c.is.rest = tokens tail := by rw [his]
  by_cases hstor : w = text "STOR"
  · subst hstor
    have hsize : body.length = if storStatus c.host 0 (tokens tail) = .ok then
        (sizeRead 0 ((tokens tail).drop 2)).toNat else 0 := by
      rw [hbody, bodySize]
      simp only [true_and]
    obtain ⟨c', hrun, hsent⟩ := stor_sent (c := { c with handlers := c.handlers ++ [.stor] }) hos
      his hlink (hsized rfl) hsize
    exact ⟨c', handle_run hrun, hsent.link, hsent.os, hsent.packets⟩
  · rw [bodySize_of_ne hstor, List.length_eq_zero_iff] at hbody
    rw [hbody, List.nil_append] at hlink
    subst hlink
    rw [← hrest]
    by_cases hdele : w = text "DELE"
    · subst hdele
      obtain ⟨c', hrun, hsent⟩ := dele_sent (c := { c with handlers := c.handlers ++ [.dele] }) hos
        hready
      exact ⟨c', handle_run hrun, hsent.link, hsent.os, hsent.packets⟩
    by_cases hlist : w = text "LIST"
    · subst hlist
      obtain ⟨c', hrun, hsent⟩ := list_sent (c := { c with handlers := c.handlers ++ [.list] }) hos
      exact ⟨c', handle_run hrun, hsent.link, hsent.os, hsent.packets⟩
    by_cases hretr : w = text "RETR"
    · subst hretr
      obtain ⟨c', hrun, hsent⟩ := retr_sent (c := { c with handlers := c.handlers ++ [.retr] }) hos
        hready
      exact ⟨c', handle_run hrun, hsent.link, hsent.os, hsent.packets⟩
    by_cases hquit : w = text "QUIT"
    · subst hquit
      obtain ⟨c', hrun, hsent⟩ := answer_sent hos .ok
      exact ⟨c', Exec.bind_of_ok hrun, hsent⟩
    · obtain ⟨c', hrun, hsent⟩ := answer_sent hos .commandNotImplemented
      refine ⟨c', ?_, ?_⟩
      · unfold dispatch
        rw [if_neg hdele, if_neg hlist, if_neg hquit, if_neg hretr, if_neg hstor, decide_eq_true hquit]
        exact Exec.bind_of_ok hrun
      · unfold answerTo
        rw [if_neg hdele, if_neg hlist, if_neg hquit, if_neg hretr, if_neg hstor]
        exact hsent

/-- The request ends the session. -/
def Command.quits (r : Command) : Bool :=
  (commandOf r.header).any fun x => decide (x.1 = text "QUIT")

/-- What a round sends for a header. -/
def repliesTo (h : Host) (header : Bytes) : List Bytes :=
  match commandOf header with
  | none => []
  | some (cmd, ws) => (answerTo h cmd ws).packets

/-- **A round** reads a request with its body and sends the reply. -/
theorem round_replies {c : Client Bytes} (hos : c.os = []) {r : Command} {rest : Bytes}
    (hlink : c.link = r.header ++ (r.body ++ rest)) (hr : WellFormed c.host r) :
    ∃ c', (iteration .plain).run c = .ok (!r.quits) c' ∧ Replied c c' rest (repliesTo c.host r.header) := by
  have hscan := Transport.scanHeader_of_endsFirst hr.ends hr.fits (r.body ++ rest)
  rw [← hlink] at hscan
  have hbody := hr.body
  have hsized := hr.sized
  unfold Command.quits repliesTo
  unfold commandOf at hbody hsized ⊢
  cases hword : firstWord (upToZero r.header) with
  | none =>
    rw [hword] at hbody
    rw [List.length_eq_zero_iff.mp hbody, List.nil_append] at hscan
    exact iteration_of_no_word hos hscan hword
  | some x =>
    obtain ⟨w, tail⟩ := x
    rw [hword] at hbody hsized
    obtain ⟨c', hrun, hsent⟩ := dispatch_sent (c := { c with
      link := r.body ++ rest, is := { rest := tail }, cmd := w }) hos rfl rfl
      (fun hstor => hsized _ (by rw [← hstor]; rfl)) hbody
    refine ⟨c', ?_, hsent.link, hsent.os, hsent.packets⟩
    rw [iteration_of_word hscan hword, hrun, decide_not]
    rfl

/-! ### Sessions -/

theorem Loop.after_last {τ : Type} (t : Transport τ) (n : ℕ) (l : Loop τ) :
    Loop.after t (n + 1) l = (Loop.step t (Loop.after t n l) ()).1 :=
  Loop.after_add t n 1 l

section Session

variable {c : Client Bytes} {rs : List Command}

/-- What is sent for a header fits into the array of `Crypto::send`.  Only a listing can be longer. -/
def AnswerFits (h : Host) (header : Bytes) : Prop := ∀ p ∈ repliesTo h header, p.length ≤ bufferSize

instance (h : Host) (header : Bytes) : Decidable (AnswerFits h header) :=
  inferInstanceAs (Decidable (∀ p ∈ repliesTo h header, p.length ≤ bufferSize))

/-- Every request is well formed for the host that it finds, what is sent for it fits, and none but the
last one ends the session. -/
def Proceeds (c : Client Bytes) (rs : List Command) : Prop :=
  ∀ i r, rs[i]? = some r → WellFormed (Loop.after .plain i ⟨true, c⟩).client.host r ∧
    AnswerFits (Loop.after .plain i ⟨true, c⟩).client.host r.header ∧
    (i + 1 < rs.length → r.quits = false)

/-- A loop at a request. -/
structure At (l : Loop Bytes) (rs : List Command) : Prop where
  link : l.client.link = streamOf rs
  os : l.client.os = []
  running : rs ≠ [] → l.running = true

/-- **One round** of the loop. -/
theorem At.step {l : Loop Bytes} {r : Command} (h : At l (r :: rs))
    (hr : WellFormed l.client.host r) (hlast : rs ≠ [] → r.quits = false) :
    At (Loop.step .plain l ()).1 rs ∧ (Loop.step .plain l ()).1.client.packets
      = l.client.packets ++ repliesTo l.client.host r.header := by
  have hlink : l.client.link = r.header ++ (r.body ++ streamOf rs) := by
    rw [h.link, streamOf, List.flatMap_cons, List.append_assoc]
    rfl
  obtain ⟨c', hrun, hsent⟩ := round_replies h.os hlink hr
  have hstep : (Loop.step .plain l ()).1 = ⟨!r.quits, c'⟩ := by
    rw [Loop.step, if_pos (h.running (List.cons_ne_nil _ _)), hrun]
  rw [hstep]
  refine ⟨⟨hsent.link, hsent.os, fun hne => ?_⟩, hsent.packets⟩
  rw [hlast hne]
  rfl

/-- **After some rounds** as many requests have been read. -/
theorem at_after (hos : c.os = []) (hlink : c.link = streamOf rs) (h : Proceeds c rs) {i : ℕ}
    (hi : i ≤ rs.length) : At (Loop.after .plain i ⟨true, c⟩) (rs.drop i) := by
  induction i with
  | zero => exact ⟨hlink, hos, fun _ => rfl⟩
  | succ i ih =>
    have hat := ih (Nat.le_of_succ_le hi)
    rw [List.drop_eq_getElem_cons hi] at hat
    obtain ⟨hr, -, hlast⟩ := h i rs[i] (List.getElem?_eq_getElem hi)
    rw [Loop.after_last]
    refine (hat.step hr fun hne => hlast ?_).1
    exact not_le.mp fun hle => hne (List.drop_eq_nil_of_le hle)

/-- **One reply for each request.**  In any sequence of requests, of which none but the last one is
`QUIT` and none asks for a listing that does not fit, each header that has a first word gets exactly one
status reply, and the body that belongs to it, in the order of the headers; the reply is a function of
the words of its header and of the host that it finds, without the variables that were not written.  A
header without a first word gets none. -/
theorem one_reply_each (hos : c.os = []) (hlink : c.link = streamOf rs) (h : Proceeds c rs) :
    ∀ i r, rs[i]? = some r → match commandOf r.header with
      | none => (Loop.after .plain (i + 1) ⟨true, c⟩).client.packets
          = (Loop.after .plain i ⟨true, c⟩).client.packets
      | some (cmd, ws) =>
          (Loop.after .plain (i + 1) ⟨true, c⟩).client.packets
            = (Loop.after .plain i ⟨true, c⟩).client.packets
              ++ (answerTo (Loop.after .plain i ⟨true, c⟩).client.host cmd ws).packets ∧
          (∀ p ∈ (answerTo (Loop.after .plain i ⟨true, c⟩).client.host cmd ws).packets,
            p.length ≤ bufferSize) ∧
          StatusReply (answerTo (Loop.after .plain i ⟨true, c⟩).client.host cmd ws).header ∧
          ∀ stale, answerTo { (Loop.after .plain i ⟨true, c⟩).client.host with stale := stale } cmd ws
            = answerTo (Loop.after .plain i ⟨true, c⟩).client.host cmd ws := by
  intro i r hi
  obtain ⟨hlt, rfl⟩ := List.getElem?_eq_some_iff.mp hi
  have hat := at_after hos hlink h hlt.le
  rw [List.drop_eq_getElem_cons hlt] at hat
  obtain ⟨hr, hanswer, hlast⟩ := h i rs[i] hi
  have hpackets := (hat.step hr fun hne =>
    hlast (not_le.mp fun hle => hne (List.drop_eq_nil_of_le hle))).2
  rw [← Loop.after_last, repliesTo] at hpackets
  rw [AnswerFits, repliesTo] at hanswer
  cases hcmd : commandOf rs[i].header with
  | none =>
    rw [hcmd, List.append_nil] at hpackets
    exact hpackets
  | some x =>
    rw [hcmd] at hpackets hanswer
    exact ⟨hpackets, hanswer, answerTo_statusReply _ _ _, fun stale => answerTo_stale _ stale _ _⟩

end Session

/-- An upload, a header without a word, and the end. -/
def threeCommands : List Command :=
  [⟨text "STOR a\nSize: 2\n\n", text "xy"⟩, ⟨text "\n\n", []⟩, ⟨text "QUIT\n\n", []⟩]

theorem threeCommands_proceed : Proceeds (emptyRoot (streamOf threeCommands)) threeCommands := by
  intro i r hi
  have hupload : commandOf (text "STOR a\nSize: 2\n\n")
      = some (text "STOR", [text "a", text "Size:", text "2"]) := by decide +kernel
  have hblank : commandOf (text "\n\n") = none := by decide +kernel
  have hquit : commandOf (text "QUIT\n\n") = some (text "QUIT", []) := by decide +kernel
  rcases i with - | - | - | i
  · cases hi
    refine ⟨⟨by decide +kernel, by decide, fun ws hws name _ hname => ?_, by decide +kernel⟩,
      by decide +kernel, fun _ => by decide +kernel⟩
    rw [hupload, hname] at hws
    cases hws
  · cases hi
    refine ⟨⟨by decide +kernel, by decide, fun ws hws => ?_, ?_⟩, by decide +kernel,
      fun _ => by decide +kernel⟩
    · rw [hblank] at hws
      cases hws
    · rw [hblank]
      rfl
  · cases hi
    refine ⟨⟨by decide +kernel, by decide, fun ws hws => ?_, ?_⟩, by decide +kernel, fun h => ?_⟩
    · rw [hquit] at hws
      cases hws
    · rw [hquit]
      exact (bodySize_of_ne (by decide)).symm
    · exact absurd h (by decide)
  · cases hi

theorem answerTo_quit (h : Host) (ws : List Bytes) :
    (answerTo h (text "QUIT") ws).packets = [Status.ok.reply] := rfl

/-- The third of them is answered. -/
theorem one_reply_quit :
    (Loop.after .plain (2 + 1) ⟨true, emptyRoot (streamOf threeCommands)⟩).client.packets
      = (Loop.after .plain 2 ⟨true, emptyRoot (streamOf threeCommands)⟩).client.packets
        ++ [Status.ok.reply] := by
  have hquit : commandOf (text "QUIT\n\n") = some (text "QUIT", []) := by decide +kernel
  have hreply := one_reply_each (c := emptyRoot (streamOf threeCommands)) rfl rfl
    threeCommands_proceed 2 ⟨text "QUIT\n\n", []⟩ rfl
  rw [hquit] at hreply
  have hpackets := hreply.1
  rwa [answerTo_quit] at hpackets

/-- **Headers without a reply**: one without a word, one in which a zero stands behind the word, and
one behind `QUIT`.  The reply to an upload without a size depends on what the variable held. -/
theorem no_reply :
    EndsFirst (text "\n\n") ∧ EndsFirst (text "LIST\x00\n\n") ∧
    (Loop.after .plain 1 ⟨true, emptyRoot (text "\n\n")⟩).running = true ∧
    (afterRequests 1 (text "\n\n")).packets = [] ∧
    (afterRequests 1 (text "LIST\x00\n\n")).packets = [] ∧
    (afterRequests 2 (text "QUIT\n\nLIST\n\n")).packets = [Status.ok.reply] ∧
    storStatus (emptyRoot []).host 0 (tokens (text " a\nSize:\n\n")) = .ok ∧
    storStatus (emptyRoot []).host (maxFileSize + 1) (tokens (text " a\nSize:\n\n"))
      = .commandNotImplemented := by
  decide +kernel

end ServerClient

end Cybrg
