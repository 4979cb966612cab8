import Cybrg.Conversation.Reading
import Cybrg.Conversation.Replies
import Cybrg.Library.Tokens

/-!
# The server's rounds, request by request

What a server that reads from a string does with the request texts of the client: which packets it
sends, and that it takes exactly the request (and its body) from the string.

* `iteration_of_word` — a round reads its request and chooses the handler;
* `Answers` — a round that takes a request and sends some packets;
* `list_answers`, `dele_answers`, `retr_answers`, `stor_refused`, `stor_accepted` — the requests.
-/

namespace Cybrg

open Streams Files ServerClient ClientMain

/-- A name that the client's user can type: a word. -/
def Word (name : Bytes) : Prop := ∀ b ∈ name, isSpace b = false

instance (name : Bytes) : Decidable (Word name) :=
  decidable_of_iff (name.all (!isSpace ·) = true) word_iff_all

theorem Word.no_newline {name : Bytes} (h : Word name) : 10 ∉ name :=
  fun h10 => absurd (h 10 h10) (by decide)

namespace ServerClient

/-! ### Texts of requests -/

theorem retrText_eq (name : Bytes) : retrText name = headerText [text "RETR " ++ name] := by
  simp only [retrText, headerText, List.flatMap_cons, List.flatMap_nil, List.append_assoc,
    List.nil_append]

theorem deleText_eq (name : Bytes) : deleText name = headerText [text "DELE " ++ name] := by
  simp only [deleText, headerText, List.flatMap_cons, List.flatMap_nil, List.append_assoc,
    List.nil_append]

theorem storText_eq (name : Bytes) (size : ℤ) :
    storText name size = headerText [text "STOR " ++ name, text "Size: " ++ decimal size] := by
  simp only [storText, headerText, List.flatMap_cons, List.flatMap_nil, List.append_assoc,
    List.nil_append]

theorem listText_eq : text "LIST\n\n" = headerText [text "LIST"] := by decide

/-! ### Reading a request -/

/-- A header is read from a string. -/
theorem recvCmd_plain {c : Client Bytes} {header rest : Bytes}
    (h : Transport.scanHeader c.link = some (header, rest)) :
    (recvCmd .plain).run c
      = .ok () { c with link := rest, is := { rest := header } } := by
  have hrecv := plain_carries.recvHeader (x := c.link) rfl
  rw [h] at hrecv
  obtain ⟨x, hrun, hx, -⟩ := hrecv
  subst hx
  have hread := onLink_of_ok (c := { c with is := (c.is.ignore bufferSize).clear }) hrun
  unfold recvCmd
  rw [Exec.bind_of_ok (EStateM.run_modify _ c), Exec.bind_of_ok hread]
  rfl

/-- **A round reads its request** and goes to the handler that its first word names. -/
theorem iteration_of_word {c : Client Bytes} {header rest w tail : Bytes}
    (h : Transport.scanHeader c.link = some (header, rest))
    (hword : firstWord header = some (w, tail)) :
    (iteration .plain).run c = (dispatch .plain w).run
      { c with link := rest, is := { rest := tail }, cmd := w } := by
  have hread := IStream.word_firstWord header c.cmd
  rw [hword] at hread
  rw [iteration_of_recvCmd .plain (recvCmd_plain h)]
  simp only [Client.wordRead, hread]
  rw [if_pos (by rfl)]

/-! ### Replies -/

/-- The packets that send a text: none if there is nothing to send. -/
def packetsOf (bs : Bytes) : List Bytes := if bs = [] then [] else [bs]

theorem packetsOf_flatten (bs : Bytes) : (packetsOf bs).flatten = bs := by
  unfold packetsOf
  split
  · rename_i h
    rw [h, List.flatten_nil]
  · rw [List.flatten_singleton]

theorem packetsOf_of_ne {bs : Bytes} (h : bs ≠ []) : packetsOf bs = [bs] := if_neg h

/-- What waits is sent. -/
theorem sendCmd_plain (c : Client Bytes) :
    (sendCmd .plain).run c
      = .ok () { c with packets := c.packets ++ packetsOf c.os, os := [] } := by
  by_cases h : c.os = []
  · rw [sendCmd_of_empty .plain h, packetsOf, if_pos h, List.append_nil, ← h]
  · rw [packetsOf, if_neg h]
    exact sendCmd_run .plain h

/-- A text is sent when nothing else waits. -/
theorem write_sendCmd {c : Client Bytes} (hos : c.os = []) (bs : Bytes) :
    (write bs >>= fun _ => sendCmd .plain).run c
      = .ok () { c with packets := c.packets ++ packetsOf bs } := by
  have hwrite : (write bs : EStateM Ex (Client Bytes) Unit).run c
      = .ok () { c with os := c.os ++ bs } := rfl
  rw [Exec.bind_of_ok hwrite, sendCmd_plain, hos, List.nil_append, ← hos]

theorem answer_plain (c : Client Bytes) (hos : c.os = []) (status : Status) :
    (answer .plain status).run c = .ok () { c with packets := c.packets ++ [status.reply] } := by
  rw [← packetsOf_of_ne status.reply_ne_nil]
  exact write_sendCmd hos status.reply

/-- The packets in which the loop of `cmd_retr` sends `content` after `count` bytes, of which `os` are
not sent yet; and what is not sent then. -/
def chunks : Bytes → ℕ → Bytes → List Bytes × Bytes
  | [], _, os => ([], os)
  | b :: content, count, os =>
      if count % bufferSize = 0 then
        ((os ++ [b]) :: (chunks content (count + 1) []).1, (chunks content (count + 1) []).2)
      else chunks content (count + 1) (os ++ [b])

theorem chunks_flatten (content : Bytes) (count : ℕ) (os : Bytes) :
    (chunks content count os).1.flatten ++ (chunks content count os).2 = os ++ content := by
  induction content generalizing count os with
  | nil => exact (List.append_nil _).symm
  | cons b content ih =>
    rw [chunks]
    split
    · rw [List.flatten_cons, List.append_assoc, ih, List.append_assoc]
      rfl
    · rw [ih, List.append_assoc]
      rfl

/-- **The loop of `cmd_retr`** sends the bytes that it reads, or leaves them to be sent. -/
theorem retrLoop_plain (content : Bytes) (count : ℕ) (c : Client Bytes) :
    (retrLoop .plain content count).run c = .ok () { c with
      packets := c.packets ++ (chunks content count c.os).1
      os := (chunks content count c.os).2 } := by
  induction content generalizing count c with
  | nil =>
    rw [chunks, List.append_nil]
    rfl
  | cons b content ih =>
    have hwrite : (write [b] : EStateM Ex (Client Bytes) Unit).run c
        = .ok () { c with os := c.os ++ [b] } := rfl
    rw [retrLoop, Exec.bind_of_ok hwrite, chunks]
    by_cases hcount : count % bufferSize = 0
    · have hne : c.os ++ [b] ≠ [] := List.append_ne_nil_of_right_ne_nil _ (List.cons_ne_nil _ _)
      rw [sendFull, if_pos hcount, if_pos hcount, Exec.bind_of_ok (sendCmd_plain _), ih]
      dsimp only
      rw [packetsOf_of_ne hne, List.append_assoc]
      rfl
    · rw [sendFull, if_neg hcount, if_neg hcount, Exec.bind_of_ok (EStateM.run_pure _ _), ih]

/-- The packets that `cmd_retr` sends behind the size. -/
def bodyPackets (content : Bytes) : List Bytes :=
  (chunks content 0 []).1 ++ packetsOf (chunks content 0 []).2

theorem bodyPackets_flatten (content : Bytes) : (bodyPackets content).flatten = content := by
  rw [bodyPackets, List.flatten_append, packetsOf_flatten, chunks_flatten, List.nil_append]

/-! ### File names -/

theorem upToZero_cons (b : Byte) (bs : Bytes) (hb : b ≠ 0) : upToZero (b :: bs) = b :: upToZero bs :=
  List.takeWhile_cons_of_pos (decide_eq_true hb)

/-- A name in the string of a header: what stands before its first zero, and if it has one, nothing
behind it. -/
theorem upToZero_name (name tail : Bytes) :
    upToZero (name ++ tail) = upToZero name ++ if 0 ∈ name then [] else upToZero tail := by
  by_cases h0 : 0 ∈ name
  · have hshort : ¬ (name.takeWhile (· ≠ 0)).length = name.length := by
      intro hlen
      have hall : name.takeWhile (· ≠ 0) = name :=
        (List.takeWhile_prefix _).eq_of_length hlen
      exact absurd rfl (of_decide_eq_true (List.takeWhile_eq_self_iff.mp hall 0 h0))
    rw [if_pos h0, List.append_nil, upToZero, upToZero, List.takeWhile_append, if_neg hshort]
  · rw [if_neg h0, upToZero_append h0, upToZero_of_nonzero h0]

/-- The stream when the word that names the request has been read. -/
def afterWord (name tail : Bytes) : IStream := { rest := 32 :: upToZero (name ++ tail) }

/-- **The file name of a request** is what stands before the first zero of the name. -/
theorem word_filename {name tail : Bytes} (hname : Word name) (hne : name ≠ [])
    (htail : ∀ b ∈ tail.head?, isSpace b) :
    ((afterWord name tail).word []).1 = upToZero name := by
  have hword : Word (upToZero name) := fun b hb => hname b ((List.takeWhile_prefix _).subset hb)
  rw [IStream.word_headD (.inl rfl), afterWord, tokens_space rfl, upToZero_name]
  by_cases hnil : upToZero name = []
  · -- the name begins with a zero
    have h0 : 0 ∈ name := by
      by_contra h0
      exact hne ((upToZero_of_nonzero h0).symm.trans hnil)
    rw [hnil, if_pos h0]
    rfl
  · have hstop : ∀ b ∈ (if 0 ∈ name then [] else upToZero tail).head?, isSpace b := by
      intro b hb
      split at hb
      · cases hb
      · refine htail b ?_
        cases tail with
        | nil => cases hb
        | cons x tail =>
          rw [upToZero, List.takeWhile_cons] at hb
          split at hb
          · exact hb
          · cases hb
    rw [tokens_word hnil hword hstop]
    rfl

/-! ### Rounds -/

/-- The object when a request has been read and its handler is entered. -/
def Client.requested (c : Client Unit) (h : Handler) (w tail : Bytes) : Client Unit :=
  { c with is := { rest := tail }, cmd := w, handlers := c.handlers ++ [h] }

/-- **A round** reads its request and runs the handler. -/
theorem round_run {c : Client Unit} {lines : List Bytes} (hlines : ∀ l ∈ lines, Line l)
    (hne : lines ≠ []) (hfits : (headerText lines).length < bufferSize) {w tail : Bytes}
    (hsplit : upToZero (headerText lines) = w ++ tail) (hw : Word w) (hw0 : w ≠ [])
    (htail : ∀ b ∈ tail.head?, isSpace b) (htail0 : tail ≠ []) {h : Handler}
    {m : EStateM Ex (Client Bytes) Unit}
    (hdispatch : dispatch .plain w = handle h m >>= fun _ => pure true) (more : Bytes) :
    (iteration .plain).run (c.withLink (headerText lines ++ more))
      = (m >>= fun _ => pure true).run ((c.requested h w tail).withLink more) := by
  have hscan : Transport.scanHeader (c.withLink (headerText lines ++ more)).link
      = some (w ++ tail, more) := by
    rw [← hsplit]
    exact Transport.scanHeader_headerText hlines hne hfits more
  rw [iteration_of_word hscan (firstWord_append hw0 hw htail htail0), hdispatch]
  rfl

theorem dispatch_list :
    dispatch .plain (text "LIST") = handle .list (cmdList .plain) >>= fun _ => pure true := rfl

theorem dispatch_dele :
    dispatch .plain (text "DELE") = handle .dele (cmdDele .plain) >>= fun _ => pure true := rfl

theorem dispatch_retr :
    dispatch .plain (text "RETR") = handle .retr (cmdRetr .plain) >>= fun _ => pure true := rfl

theorem dispatch_stor :
    dispatch .plain (text "STOR") = handle .stor (cmdStor .plain) >>= fun _ => pure true := rfl

theorem no_lines : ∀ l ∈ ([] : List Bytes), Line l := fun _ hl => nomatch hl

theorem size_lines (size : ℤ) : ∀ l ∈ [text "Size: " ++ decimal size], Line l := by
  intro l hl
  rw [List.mem_singleton.mp hl]
  exact line_size size

theorem isSpace_of_head_newline {ls : List Bytes} :
    ∀ b ∈ ((10 : Byte) :: headerText ls).head?, isSpace b := by
  intro b hb
  cases hb
  rfl

/-- **A round for a request with a name.** -/
theorem named_run {c : Client Unit} {w name : Bytes} (hw : Word w) (hw0 : w ≠ []) (hzero : 0 ∉ w)
    (hname : Word name) {ls : List Bytes} (hls : ∀ l ∈ ls, Line l)
    (hfits : (headerText ((w ++ 32 :: name) :: ls)).length < bufferSize) {h : Handler}
    {m : EStateM Ex (Client Bytes) Unit}
    (hdispatch : dispatch .plain w = handle h m >>= fun _ => pure true) (more : Bytes) :
    (iteration .plain).run (c.withLink (headerText ((w ++ 32 :: name) :: ls) ++ more))
      = (m >>= fun _ => pure true).run
        ((c.requested h w (afterWord name (10 :: headerText ls)).rest).withLink more) := by
  have hlines : ∀ l ∈ (w ++ 32 :: name) :: ls, Line l := by
    intro l hl
    rcases List.mem_cons.mp hl with rfl | hl
    · refine ⟨List.append_ne_nil_of_left_ne_nil hw0 _, fun h10 => ?_⟩
      rcases List.mem_append.mp h10 with h10 | h10
      · exact hw.no_newline h10
      · rcases List.mem_cons.mp h10 with h10 | h10
        · cases h10
        · exact hname.no_newline h10
    · exact hls l hl
  have hsplit : upToZero (headerText ((w ++ 32 :: name) :: ls))
      = w ++ (afterWord name (10 :: headerText ls)).rest := by
    rw [headerText_cons, List.append_assoc, upToZero_append hzero, List.cons_append,
      upToZero_cons 32 _ (by decide)]
    rfl
  refine round_run hlines (List.cons_ne_nil _ _) hfits hsplit hw hw0 ?_ (List.cons_ne_nil _ _)
    hdispatch more
  intro b hb
  cases hb
  rfl

/-! ### `cmd_list`, `cmd_dele`, `cmd_retr` -/

/-- The names of `SERVER_ROOT`, if it can be opened. -/
def lists (h : Host) : Option (List Name) :=
  h.tries (h.store.lists serverRoot)

/-- The packets that answer a request for a listing. -/
def listPackets : Option (List Name) → List Bytes
  | none => [Status.serverError.reply]
  | some names => sizeReply ((listing names).length % 2 ^ 64) :: packetsOf (listing names)

theorem cmdList_plain {c : Client Bytes} (hos : c.os = []) :
    (cmdList .plain).run c = .ok () { c with
      host := c.host.passed
      packets := c.packets ++ listPackets (lists c.host) } := by
  have hdir := onHost_of_ok (Host.run_readDir serverRoot c.host)
  unfold cmdList
  rw [Exec.bind_of_ok hdir]
  show (match lists c.host with | none => _ | some names => _ : EStateM Ex (Client Bytes) Unit).run _
    = _
  cases lists c.host with
  | none => exact answer_plain _ (by exact hos) .serverError
  | some names =>
    have hsize := write_sendCmd (c := { c with host := c.host.passed }) hos
      (sizeReply ((listing names).length % 2 ^ 64))
    rw [packetsOf_of_ne (sizeReply_ne_nil _)] at hsize
    have hbody := write_sendCmd (c := { c with
      host := c.host.passed
      packets := c.packets ++ [sizeReply ((listing names).length % 2 ^ 64)] }) hos (listing names)
    have hboth := Exec.bind_of_ok (f := fun _ => write (listing names) >>= fun _ => sendCmd .plain)
      hsize
    rw [bind_assoc] at hboth
    refine hboth.trans (hbody.trans ?_)
    rw [List.append_assoc]
    rfl

/-- A round that takes a request, answers with the packets `ps` and leaves the object `c₁`. -/
structure Answers (c : Client Unit) (request : Bytes) (ps : List Bytes) (c₁ : Client Unit) :
    Prop where
  run : ∀ more, (iteration .plain).run (c.withLink (request ++ more))
    = .ok true (c₁.withLink more)
  os : c₁.os = []
  packets : c₁.packets = c.packets ++ ps

/-- **A request for a listing.** -/
theorem list_answers {c : Client Unit} (hos : c.os = []) :
    ∃ c₁, Answers c (text "LIST\n\n") (listPackets (lists c.host)) c₁ ∧
      c₁.host.store = c.host.store := by
  refine ⟨{ c.requested .list (text "LIST") [10, 10] with
    host := c.host.passed
    packets := c.packets ++ listPackets (lists c.host) }, ⟨fun more => ?_, hos, rfl⟩, rfl⟩
  have hlines : ∀ l ∈ [text "LIST"], Line l := fun l hl => by
    rw [List.mem_singleton.mp hl]
    decide
  have hsplit : upToZero (headerText [text "LIST"]) = text "LIST" ++ [10, 10] := by decide
  have hround := round_run (c := c) hlines (List.cons_ne_nil _ _) (by decide) hsplit (by decide)
    (by decide) (fun b hb => by cases hb; rfl) (List.cons_ne_nil _ _) dispatch_list more
  rw [← listText_eq] at hround
  exact hround.trans (Exec.bind_of_ok (cmdList_plain hos))

/-- What `cmd_dele` answers, and the host it leaves. -/
def deleted (h : Host) (filename : Bytes) : Status × Host :=
  if parola filename = false then (.badFile, h)
  else (if (h.tries (h.store.removes (fullpath filename))).isSome then .ok else .badFile,
    h.called .remove ((h.tries (h.store.removes (fullpath filename))).map fun x =>
      (x.1, some x.2, h.store.erase x.1)))

theorem cmdDele_plain {c : Client Bytes} (hos : c.os = []) :
    (cmdDele .plain).run c = .ok () { c with
      is := (c.is.word []).2
      host := (deleted c.host (c.is.word []).1).2
      packets := c.packets ++ [(deleted c.host (c.is.word []).1).1.reply] } := by
  unfold cmdDele deleted
  rw [Exec.bind_of_ok (extractWord_run c [])]
  generalize (c.is.word []).1 = filename
  split
  · exact answer_plain _ (by exact hos) .badFile
  · have hremove := onHost_of_ok (c := { c with is := (c.is.word []).2 })
      (Host.run_remove (fullpath filename) c.host)
    rw [Exec.bind_of_ok hremove]
    split
    · exact answer_plain _ (by exact hos) .ok
    · exact answer_plain _ (by exact hos) .badFile

/-- What `cmd_retr` opens, and the host it leaves. -/
def opened (h : Host) (filename : Bytes) : Option Node × Host :=
  if parola filename = false then (none, h)
  else ((h.tries (h.store.reads (fullpath filename))).map Prod.snd,
    h.called .openIn ((h.tries (h.store.reads (fullpath filename))).map fun x =>
      (x.1, some x.2, h.store)))

/-- What can be read from what was opened. -/
def readableOf (h : Host) (node : Node) : Bytes :=
  (h.contents node).1.take (h.limits.headD (h.contents node).1.length)

/-- A download that is refused. -/
theorem cmdRetr_refused {c : Client Bytes} (hos : c.os = [])
    (h : (opened c.host (c.is.word []).1).1 = none) :
    (cmdRetr .plain).run c = .ok () { c with
      is := (c.is.word []).2
      host := (opened c.host (c.is.word []).1).2
      packets := c.packets ++ [Status.badFile.reply] } := by
  revert h
  unfold cmdRetr opened
  rw [Exec.bind_of_ok (extractWord_run c [])]
  generalize (c.is.word []).1 = filename
  intro h
  split
  · exact answer_plain _ (by exact hos) .badFile
  · rename_i hname
    rw [if_neg hname] at h
    dsimp only at h
    have hopen := onHost_of_ok (c := { c with is := (c.is.word []).2 })
      (Host.run_openIn (fullpath filename) c.host)
    rw [h] at hopen
    rw [Exec.bind_of_ok hopen]
    exact answer_plain _ (by exact hos) .badFile

/-- A download that goes on to send the file. -/
theorem cmdRetr_opened {τ : Type} (t : Transport τ) {c : Client τ} {node : Node}
    (h : (opened c.host (c.is.word []).1).1 = some node) :
    (cmdRetr t).run c = (write (sizeReply ((opened c.host (c.is.word []).1).2.contents node).2) >>=
      fun _ => sendCmd t >>= fun _ =>
        retrLoop t (readableOf (opened c.host (c.is.word []).1).2 node) 0 >>= fun _ =>
          sendCmd t).run { c with
            is := (c.is.word []).2, host := (opened c.host (c.is.word []).1).2.limited } := by
  revert h
  unfold cmdRetr opened
  rw [Exec.bind_of_ok (extractWord_run c [])]
  generalize (c.is.word []).1 = filename
  intro h
  split at h
  · cases h
  · rename_i hname
    have hopen := onHost_of_ok (c := { c with is := (c.is.word []).2 })
      (Host.run_openIn (fullpath filename) c.host)
    dsimp only at h
    rw [h] at hopen
    simp only [if_neg hname]
    rw [Exec.bind_of_ok hopen]
    generalize c.host.called .openIn _ = h₁
    have hlimit := onHost_of_ok (c := { c with is := (c.is.word []).2, host := h₁ })
      (Host.run_limit (h₁.contents node).1.length h₁)
    refine (Exec.bind_of_ok (EStateM.run_get _)).trans ?_
    exact Exec.bind_of_ok hlimit

/-- **A download**: the size, and behind it what can be read. -/
theorem cmdRetr_plain {c : Client Bytes} (hos : c.os = []) {node : Node}
    (h : (opened c.host (c.is.word []).1).1 = some node) :
    (cmdRetr .plain).run c = .ok () { c with
      is := (c.is.word []).2
      host := (opened c.host (c.is.word []).1).2.limited
      packets := c.packets ++ sizeReply ((opened c.host (c.is.word []).1).2.contents node).2 ::
        bodyPackets (readableOf (opened c.host (c.is.word []).1).2 node) } := by
  rw [cmdRetr_opened .plain h]
  generalize (opened c.host (c.is.word []).1).2 = h₁
  have hsize := write_sendCmd (c := { c with is := (c.is.word []).2, host := h₁.limited }) hos
    (sizeReply (h₁.contents node).2)
  rw [packetsOf_of_ne (sizeReply_ne_nil _)] at hsize
  have hloop := retrLoop_plain (readableOf h₁ node) 0 { c with
    is := (c.is.word []).2
    host := h₁.limited
    packets := c.packets ++ [sizeReply (h₁.contents node).2] }
  have hrest := Exec.bind_of_ok (f := fun _ => retrLoop .plain (readableOf h₁ node) 0 >>=
    fun _ => sendCmd .plain) hsize
  rw [bind_assoc, Exec.bind_of_ok hloop, sendCmd_plain] at hrest
  refine hrest.trans ?_
  simp only [bodyPackets, List.append_assoc, List.cons_append, List.nil_append, hos]

/-! ### `cmd_stor` -/

/-- Where an upload is written to, if `cmd_stor` accepts it. -/
def destination (h : Host) (name : Bytes) : Option Path :=
  if name ≠ [] ∧ parola name = true then (h.tries (h.store.truncates (fullpath name))).map Prod.fst
  else none

/-- The host when `cmd_stor` has opened the file. -/
def storOpened (h : Host) (name : Bytes) : Host :=
  h.recalled.called .openOut ((h.tries (h.store.truncates (fullpath name))).map fun x =>
    (x.1, x.2, h.store.truncate x.1))

/-- The second line of a request for an upload, as it is read. -/
theorem storTail_eq (size : ℤ) : 10 :: headerText [text "Size: " ++ decimal size] = sizeLine size := by
  simp only [sizeLine, headerText, newline, List.flatMap_cons, List.flatMap_nil, List.append_assoc]
  rfl

/-- A name with a zero ends the header. -/
theorem word_of_zero {name tail : Bytes} (hname : Word name) (h0 : 0 ∈ name) :
    ((afterWord name tail).word []).2.good = false := by
  have hrest : (afterWord name tail).rest = [32] ++ (upToZero name ++ []) := by
    rw [afterWord, upToZero_name, if_pos h0]
    rfl
  have hspaces : ∀ b ∈ [(32 : Byte)], isSpace b := List.all_eq_true.mp rfl
  have hword : Word (upToZero name) := fun b hb => hname b ((List.takeWhile_prefix _).subset hb)
  by_cases hnil : upToZero name = []
  · rw [hnil] at hrest
    have hfail := (IStream.word_none (s := afterWord name tail) (by rw [hrest]; exact hspaces) []).2
    rw [IStream.good, hfail]
    exact Bool.and_false _
  · rw [IStream.word_of rfl hrest hspaces hnil hword fun b hb => by cases hb]
    rfl

/-- A name behind the word of its command, at the end of a line. -/
theorem word_name {name s : Bytes} (hname : Word name) (hne : name ≠ []) (htail : s.head? = some 10) :
    ({ rest := 32 :: (name ++ s) } : IStream).word [] = (name, { rest := s }) := by
  have hspaces : ∀ b ∈ [(32 : Byte)], isSpace b := List.all_eq_true.mp rfl
  have hstop : ∀ b ∈ s.head?, isSpace b := by
    intro b hb
    rw [htail] at hb
    cases hb
    rfl
  have hempty : s.isEmpty = false := by
    cases s with
    | nil => cases htail
    | cons b s => rfl
  have hword := IStream.word_of (s := { rest := 32 :: (name ++ s) }) rfl rfl hspaces hne hname hstop []
  rwa [hempty] at hword

/-- A name without a zero is followed by the second line. -/
theorem word_of_nonzero {name : Bytes} (hname : Word name) (hne : name ≠ []) (h0 : 0 ∉ name)
    (size : ℤ) :
    (afterWord name (sizeLine size)).word [] = (name, { rest := sizeLine size }) := by
  have hrest : afterWord name (sizeLine size) = { rest := 32 :: (name ++ sizeLine size) } := by
    rw [afterWord, upToZero_append h0, upToZero_sizeLine]
  rw [hrest]
  exact word_name hname hne rfl

/-- No name at all: the second line is taken for one. -/
theorem word_of_nil (size : ℤ) : ((afterWord [] (sizeLine size)).word []).1 = text "Size:" := by
  have hrest : (afterWord [] (sizeLine size)).rest
      = [32, 10] ++ (text "Size:" ++ ([32] ++ (decimal size ++ [10, 10]))) := by
    rw [afterWord, List.nil_append, upToZero_sizeLine]
    rfl
  have hspaces : ∀ b ∈ [(32 : Byte), 10], isSpace b := List.all_eq_true.mp rfl
  have hword : Word (text "Size:") := by decide
  rw [IStream.word_of rfl hrest hspaces (by decide) hword fun b hb => by cases hb; rfl]

/-- The bytes of a good name lie behind the white space. -/
theorem parola_le {name : Bytes} (h : parola name = true) {b : Byte} (hb : b ∈ name) :
    46 ≤ b.toNat := by
  have hclass := List.all_eq_true.mp h b hb
  simp only [Bool.or_eq_true, Bool.and_eq_true, decide_eq_true_iff, UInt8.le_iff_toNat_le,
    beq_iff_eq] at hclass
  rcases hclass with (((hupper | hlower) | hdigit) | rfl) | rfl
  · exact le_trans (by decide) hupper.1
  · exact le_trans (by decide) hlower.1
  · exact le_trans (by decide) hdigit.1
  · decide
  · decide

theorem parola_word {name : Bytes} (h : parola name = true) : Word name := by
  intro b hb
  have hle := parola_le h hb
  have h32 : (b == 32) = false := by
    rw [beq_eq_false_iff_ne]
    rintro rfl
    exact absurd hle (by decide)
  have h13 : decide (b ≤ 13) = false := by
    rw [decide_eq_false_iff_not, UInt8.le_iff_toNat_le]
    exact fun hle' => absurd (le_trans hle hle') (by decide)
  rw [isSpace, h32, h13, Bool.and_false, Bool.or_false]

/-- **An upload that is refused.** -/
theorem cmdStor_refused {c : Client Unit} (hos : c.os = []) {name : Bytes} (hname : Word name)
    {size : ℤ} (hlo : -2 ^ 63 ≤ size) (hhi : size ≤ maxFileSize)
    (his : c.is = afterWord name (sizeLine size)) (h : destination c.host name = none) :
    ∃ (status : Status) (is' : IStream) (h' : Host), status ≠ .ok ∧ h'.store = c.host.store ∧
      ∀ more, (cmdStor .plain).run (c.withLink more) = .ok () (Client.withLink { c with
        is := is', host := h', packets := c.packets ++ [status.reply] } more) := by
  obtain ⟨filename, rest, hfile⟩ : ∃ filename rest,
      (afterWord name (sizeLine size)).word [] = (filename, rest) := ⟨_, _, rfl⟩
  have hfirst : ∀ more : Bytes, (c.withLink more).is.word [] = (filename, rest) :=
    fun more => (congrArg (·.word []) his).trans hfile
  by_cases hbad : parola filename = false
  · refine ⟨.badFile, rest, c.host, by decide, rfl, fun more => ?_⟩
    unfold cmdStor
    rw [word_bind (hfirst more), if_pos hbad]
    exact answer_plain _ (by exact hos) .badFile
  have hne : name ≠ [] := by
    rintro rfl
    have hsize : filename = text "Size:" := (congrArg Prod.fst hfile).symm.trans (word_of_nil size)
    rw [hsize] at hbad
    exact hbad (by decide)
  by_cases h0 : 0 ∈ name
  · -- the tag is missing
    have hend : ((afterWord name (sizeLine size)).word []).2.good = false := word_of_zero hname h0
    rw [hfile] at hend
    have htag : rest.word [] = ([], { rest with fail := true }) := by
      rw [IStream.word, if_neg (by rw [hend]; decide)]
    have hsize : ∀ old, ({ rest with fail := true } : IStream).int64 old
        = (old, { rest with fail := true }) := by
      intro old
      have hbad' : ({ rest with fail := true } : IStream).good = false := Bool.and_false _
      rw [IStream.int64, IStream.integer, if_neg (by rw [hbad']; decide)]
    have hwrong : ([] : Bytes) ≠ text "Size:" := by decide
    refine ⟨.syntaxError, { rest with fail := true }, c.host.recalled, by decide, rfl,
      fun more => ?_⟩
    unfold cmdStor
    rw [word_bind (hfirst more), if_neg hbad, word_bind htag, number_bind, hsize,
      if_pos hwrong]
    exact answer_plain _ (by exact hos) .syntaxError
  · rw [word_of_nonzero hname hne h0 size] at hfile
    obtain ⟨rfl, rfl⟩ := Prod.mk.inj hfile
    have hparola : name ≠ [] ∧ parola name = true := ⟨hne, by simpa using hbad⟩
    rw [destination, if_pos hparola, Option.map_eq_none_iff] at h
    refine ⟨.badFile, { rest := [10, 10] }, storOpened c.host name, by decide, ?_,
      fun more => ?_⟩
    · rw [storOpened, h]
      rfl
    · have hopen := onHost_of_ok (c := Client.withLink { c with
        is := { rest := [10, 10] }, host := c.host.recalled } more)
        (Host.run_openOut (fullpath name) c.host.recalled)
      have hnone : (c.host.recalled.tries (c.host.recalled.store.truncates (fullpath name))).map
          Prod.fst = none := Option.map_eq_none_iff.mpr h
      rw [hnone] at hopen
      unfold cmdStor
      rw [word_bind (hfirst more), if_neg hbad, word_bind (word_sizeReply size),
        number_bind, int64_sizeReply hlo (by
          have hmax : maxFileSize = 4294967296 := rfl
          omega), if_neg (not_not.mpr rfl), if_neg (not_lt.mpr hhi)]
      refine (Exec.bind_of_ok hopen).trans ?_
      exact answer_plain _ (by exact hos) .badFile

/-- **An upload that is accepted** goes on to read its body. -/
theorem cmdStor_accepted {c : Client Bytes} (hos : c.os = []) {name : Bytes} (hname : Word name)
    {size : ℤ} (hlo : -2 ^ 63 ≤ size) (hhi : size ≤ maxFileSize)
    (his : c.is = afterWord name (sizeLine size)) {path : Path}
    (h : destination c.host name = some path) :
    (cmdStor .plain).run c = (storLoop .plain path size size.toNat 0
        ((storOpened c.host name).limits.headD size.toNat)).run { c with
      is := { rest := [10, 10] }
      host := (storOpened c.host name).limited
      packets := c.packets ++ [Status.ok.reply] } := by
  unfold destination at h
  split at h
  · rename_i hok
    obtain ⟨hne, hparola⟩ := hok
    have hopen := onHost_of_ok (c := { c with is := { rest := [10, 10] }, host := c.host.recalled })
      (Host.run_openOut (fullpath name) c.host.recalled)
    have hsome : (c.host.recalled.tries (c.host.recalled.store.truncates (fullpath name))).map
        Prod.fst = some path := h
    rw [hsome] at hopen
    have hword : c.is.word [] = (name, { rest := sizeLine size }) := by
      rw [his]
      exact word_of_nonzero hname hne (parola_nonzero hparola) size
    unfold cmdStor
    rw [word_bind hword, if_neg (by rw [hparola]; decide), word_bind (c := { c with is := { rest := sizeLine size } }) (word_sizeReply size),
      number_bind, int64_sizeReply hlo (by
        have hmax : maxFileSize = 4294967296 := rfl
        omega), if_neg (not_not.mpr rfl), if_neg (not_lt.mpr hhi)]
    refine (Exec.bind_of_ok hopen).trans ?_
    refine (Exec.bind_of_ok (answer_plain _ (by exact hos) .ok)).trans ?_
    exact Exec.bind_of_ok (onHost_of_ok (Host.run_limit size.toNat (storOpened c.host name)))
  · cases h

/-! ### The requests of a client -/

/-- The object when a request for `name` has been read. -/
def Client.asked (c : Client Unit) (h : Handler) (w name tail : Bytes) : Client Unit :=
  c.requested h w (afterWord name tail).rest

/-- The file name that the server reads. -/
theorem asked_filename (c : Client Unit) (h : Handler) (w : Bytes) {name : Bytes}
    (hname : Word name) (hne : name ≠ []) (ls : List Bytes) :
    ((c.asked h w name (10 :: headerText ls)).is.word []).1 = upToZero name :=
  word_filename hname hne isSpace_of_head_newline

/-- **A request to remove a file.** -/
theorem dele_answers {c : Client Unit} (hos : c.os = []) {name : Bytes} (hname : Word name)
    (hne : name ≠ []) (hfits : (deleText name).length < bufferSize) :
    ∃ c₁, Answers c (deleText name) [(deleted c.host (upToZero name)).1.reply] c₁ ∧
      c₁.host = (deleted c.host (upToZero name)).2 := by
  have hfile := asked_filename c .dele (text "DELE") hname hne []
  refine ⟨{ c.asked .dele (text "DELE") name (10 :: headerText []) with
    is := ((c.asked .dele (text "DELE") name (10 :: headerText [])).is.word []).2
    host := (deleted c.host (upToZero name)).2
    packets := c.packets ++ [(deleted c.host (upToZero name)).1.reply] },
    ⟨fun more => ?_, hos, rfl⟩, rfl⟩
  rw [deleText_eq] at hfits ⊢
  have hround := named_run (c := c) (w := text "DELE") (by decide) (by decide) (by decide) hname
    no_lines hfits dispatch_dele more
  refine hround.trans ((Exec.bind_of_ok (cmdDele_plain (by exact hos))).trans ?_)
  rw [← hfile]
  rfl

/-- **A request for a file** that the server does not open. -/
theorem retr_refused {c : Client Unit} (hos : c.os = []) {name : Bytes} (hname : Word name)
    (hne : name ≠ []) (hfits : (retrText name).length < bufferSize)
    (h : (opened c.host (upToZero name)).1 = none) :
    ∃ c₁, Answers c (retrText name) [Status.badFile.reply] c₁ ∧
      c₁.host = (opened c.host (upToZero name)).2 := by
  have hfile := asked_filename c .retr (text "RETR") hname hne []
  refine ⟨{ c.asked .retr (text "RETR") name (10 :: headerText []) with
    is := ((c.asked .retr (text "RETR") name (10 :: headerText [])).is.word []).2
    host := (opened c.host (upToZero name)).2
    packets := c.packets ++ [Status.badFile.reply] },
    ⟨fun more => ?_, hos, rfl⟩, rfl⟩
  rw [retrText_eq] at hfits ⊢
  have hround := named_run (c := c) (w := text "RETR") (by decide) (by decide) (by decide) hname
    no_lines hfits dispatch_retr more
  rw [← hfile] at h ⊢
  exact hround.trans (Exec.bind_of_ok (cmdRetr_refused hos h))

/-- **A request for a file** that the server opens. -/
theorem retr_answers {c : Client Unit} (hos : c.os = []) {name : Bytes} (hname : Word name)
    (hne : name ≠ []) (hfits : (retrText name).length < bufferSize) {node : Node}
    (h : (opened c.host (upToZero name)).1 = some node) :
    ∃ c₁, Answers c (retrText name)
        (sizeReply ((opened c.host (upToZero name)).2.contents node).2 ::
          bodyPackets (readableOf (opened c.host (upToZero name)).2 node)) c₁ ∧
      c₁.host = (opened c.host (upToZero name)).2.limited := by
  have hfile := asked_filename c .retr (text "RETR") hname hne []
  refine ⟨{ c.asked .retr (text "RETR") name (10 :: headerText []) with
    is := ((c.asked .retr (text "RETR") name (10 :: headerText [])).is.word []).2
    host := (opened c.host (upToZero name)).2.limited
    packets := c.packets ++ sizeReply ((opened c.host (upToZero name)).2.contents node).2 ::
      bodyPackets (readableOf (opened c.host (upToZero name)).2 node) },
    ⟨fun more => ?_, hos, rfl⟩, rfl⟩
  rw [retrText_eq] at hfits ⊢
  have hround := named_run (c := c) (w := text "RETR") (by decide) (by decide) (by decide) hname
    no_lines hfits dispatch_retr more
  rw [← hfile] at h ⊢
  exact hround.trans (Exec.bind_of_ok (cmdRetr_plain hos h))

/-- **A request to store a file** that the server refuses. -/
theorem stor_refused {c : Client Unit} (hos : c.os = []) {name : Bytes} (hname : Word name)
    {size : ℤ} (hlo : -2 ^ 63 ≤ size) (hhi : size ≤ maxFileSize)
    (hfits : (storText name size).length < bufferSize) (h : destination c.host name = none) :
    ∃ (status : Status) (c₁ : Client Unit), status ≠ .ok ∧
      Answers c (storText name size) [status.reply] c₁ ∧ c₁.host.store = c.host.store := by
  have his : (c.asked .stor (text "STOR") name (sizeLine size)).is
      = afterWord name (sizeLine size) := rfl
  obtain ⟨status, is', h', hstatus, hstore, hrun⟩ := cmdStor_refused
    (c := c.asked .stor (text "STOR") name (sizeLine size)) hos hname hlo hhi his h
  refine ⟨status, { c.asked .stor (text "STOR") name (sizeLine size) with
    is := is', host := h', packets := c.packets ++ [status.reply] }, hstatus,
    ⟨fun more => ?_, hos, rfl⟩, hstore⟩
  rw [storText_eq] at hfits ⊢
  have hround := named_run (c := c) (w := text "STOR") (by decide) (by decide) (by decide) hname
    (size_lines size) hfits dispatch_stor more
  rw [storTail_eq] at hround
  exact hround.trans (Exec.bind_of_ok (hrun more))

/-- The object when it has answered a request to store a file, and the body is to come. -/
def Client.storing (c : Client Unit) (name : Bytes) (size : ℤ) : Client Unit :=
  { c.asked .stor (text "STOR") name (sizeLine size) with
    is := { rest := [10, 10] }
    host := (storOpened c.host name).limited
    packets := c.packets ++ [Status.ok.reply] }

/-- **A request to store a file** that the server accepts. -/
theorem stor_accepted {c : Client Unit} (hos : c.os = []) {name : Bytes} (hname : Word name)
    {size : ℤ} (hlo : -2 ^ 63 ≤ size) (hhi : size ≤ maxFileSize)
    (hfits : (storText name size).length < bufferSize) {path : Path}
    (h : destination c.host name = some path) (more : Bytes) :
    (iteration .plain).run (c.withLink (storText name size ++ more))
      = (storLoop .plain path size size.toNat 0 ((storOpened c.host name).limits.headD size.toNat) >>=
        fun _ => pure true).run ((c.storing name size).withLink more) := by
  rw [storText_eq] at hfits ⊢
  have hround := named_run (c := c) (w := text "STOR") (by decide) (by decide) (by decide) hname
    (size_lines size) hfits dispatch_stor more
  rw [storTail_eq] at hround
  have hstor := cmdStor_accepted (c := (c.asked .stor (text "STOR") name (sizeLine size)).withLink
    more) hos hname hlo hhi rfl h
  rw [EStateM.run_bind] at hround ⊢
  refine hround.trans ?_
  rw [show (c.requested .stor (text "STOR") (afterWord name (sizeLine size)).rest).withLink more
    = (c.asked .stor (text "STOR") name (sizeLine size)).withLink more from rfl, hstor]
  rfl

end ServerClient

end Cybrg
