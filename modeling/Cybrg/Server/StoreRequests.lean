import Cybrg.Library.Tokens
import Cybrg.Server.Confinement
import Cybrg.Server.Streaming

/-!
# Requests to store a file

`Client::cmd_stor` extracts a file name, a tag and a number from what is left of the header, and looks
at the three values, but not at how their extraction went.

* `Upload` — the requests of the protocol: a file name, `Size:` and a number in range;
* `Refuses`, `Accepts` — an error and nothing else, or a file that is truncated and a body;
* `sizeRead` — the number that `cmd_stor` works with;
* `storStatus`, `stor_cases` — what `cmd_stor` does with any header;
* `stor_grammar` — when it accepts nothing but a request of the protocol, for its size.
-/

namespace Cybrg

open Streams Files

namespace ServerClient

variable {τ : Type}

/-! ### Requests and what becomes of them -/

/-- The words behind `STOR` ask for a body of `n` bytes to be stored under `name`. -/
def Upload (ws : List Bytes) (name : Bytes) (n : ℤ) : Prop :=
  ∃ num, ws = [name, text "Size:", num] ∧ parola name = true ∧ Numeral num n ∧
    0 ≤ n ∧ n ≤ maxFileSize

/-- `cmd_stor` answers with `status`, reads nothing and leaves the file store as it is. -/
def RefusesWith (t : Transport τ) (c : Client τ) (status : Status) : Prop :=
  ∃ (is : IStream) (host : Host), host.store = c.host.store ∧
    (cmdStor t).run c = (answer t status).run { c with is := is, host := host }

/-- `cmd_stor` answers with an error, reads nothing and leaves the file store as it is. -/
def Refuses (t : Transport τ) (c : Client τ) : Prop :=
  ∃ status : Status, status ≠ .ok ∧ RefusesWith t c status

/-- `cmd_stor` opens and truncates the file `name` of `SERVER_ROOT`, answers that this is fine, and
waits for a body of `n` bytes. -/
def Accepts (t : Transport τ) (c : Client τ) (name : Bytes) (n : ℤ) : Prop :=
  ∃ (is : IStream) (path : Path) (was : Option Node),
    c.host.store.truncates (fullpath name) = some (path, was) ∧
    (cmdStor t).run c = (answer t .ok >>= fun _ => onHost (Host.limit n.toNat) >>= fun writable =>
      storLoop t path n n.toNat 0 writable).run { c with
        is := is
        host := c.host.recalled.called .openOut (some (path, was, c.host.store.truncate path)) }

/-- The grammar is kept: only a request of the protocol is accepted, and for its own size. -/
def KeepsGrammar (t : Transport τ) (c : Client τ) : Prop :=
  Refuses t c ∨ ∃ name n, Upload (tokens c.is.rest) name n ∧ Accepts t c name n

/-! ### What `cmd_stor` does -/

/-- The object when `STOR` has been read from a header and `s` is left of it. -/
def Client.reading (c : Client τ) (s : Bytes) : Client τ := { c with is := { rest := s } }

/-- What the variable `size` holds before the extraction. -/
def Client.stale (c : Client τ) : ℤ := toInt64 (c.host.stale.headD 0)

/-- The number that is read from the words behind the tag into a variable that holds `stale`. -/
def sizeRead (stale : ℤ) : List Bytes → ℤ
  | [] => stale
  | w :: _ => max (-2 ^ 63) (min (2 ^ 63 - 1) (leading w))

/-- The number that the words behind the tag name: the beginning of the first one, or `stale`. -/
def sizeNamed (stale : ℤ) (ws : List Bytes) : ℤ := (ws.head?.map leading).getD stale

/-- The limit lies within an `int64_t`. -/
theorem sizeRead_le {stale : ℤ} {ws : List Bytes} :
    sizeRead stale ws ≤ maxFileSize ↔ sizeNamed stale ws ≤ maxFileSize := by
  have hmax : maxFileSize = 4294967296 := rfl
  cases ws with
  | nil => exact Iff.rfl
  | cons w ws =>
    show max (-2 ^ 63) (min (2 ^ 63 - 1) (leading w)) ≤ maxFileSize ↔ leading w ≤ maxFileSize
    omega

theorem sizeRead_numeral {num : Bytes} {n : ℤ} (h : Numeral num n) (stale : ℤ) :
    sizeRead stale [num] = max (-2 ^ 63) (min (2 ^ 63 - 1) n) := by
  rw [sizeRead, leading_of_numeral h]

/-- The file can be opened for writing. -/
def Opens (h : Host) (name : Bytes) : Prop := (h.tries (h.store.truncates (fullpath name))).isSome

instance (h : Host) (name : Bytes) : Decidable (Opens h name) :=
  inferInstanceAs (Decidable ((h.tries (h.store.truncates (fullpath name))).isSome = true))

variable {t : Transport τ} {c : Client τ} {s : Bytes}

theorem reading_ready (c : Client τ) (s : Bytes) : (c.reading s).is.Ready := .inl rfl

/-- The size is read from the words that are left, as far as the tag was there. -/
theorem int64_words {is : IStream} {ws : List Bytes} (hready : is.Ready) (h : tokens is.rest = ws)
    (stale : ℤ) : (is.int64 stale).1 = sizeRead stale ws := by
  cases ws with
  | nil => exact IStream.integer_nil (.inr h) _ _ stale
  | cons w ws => exact IStream.integer_cons hready h _ _ stale

theorem refuses_of_name {name : Bytes} {is : IStream} (hword : c.is.word [] = (name, is))
    (hname : parola name = false) : RefusesWith t c .badFile := by
  refine ⟨is, c.host, rfl, ?_⟩
  unfold cmdStor
  rw [word_bind hword, if_pos hname]

/-- The object when the tag has been read and `is` is left, and then the number. -/
def Client.extracted (c : Client τ) (is : IStream) : Client τ :=
  { c with is := (is.int64 c.stale).2, host := c.host.recalled }

section Named

variable {name tag : Bytes} {is is' : IStream} (hword : c.is.word [] = (name, is))
  (hname : parola name = true) (htag : is.word [] = (tag, is'))

include hword hname htag

/-- The three extractions, and what is then asked. -/
theorem cmdStor_extracted : (cmdStor t).run c =
    (if tag ≠ text "Size:" then answer t .syntaxError
    else if maxFileSize < (is'.int64 c.stale).1 then answer t .commandNotImplemented
    else onHost (Host.openOut (fullpath name)) >>= fun file => match file with
      | none => answer t .badFile
      | some path => answer t .ok >>= fun _ =>
          onHost (Host.limit (is'.int64 c.stale).1.toNat) >>= fun writable =>
            storLoop t path (is'.int64 c.stale).1 (is'.int64 c.stale).1.toNat 0 writable).run
      (c.extracted is') := by
  unfold cmdStor
  rw [word_bind hword, if_neg (by rw [hname]; decide), word_bind htag, number_bind]
  rfl

theorem refuses_of_tag (hne : tag ≠ text "Size:") : RefusesWith t c .syntaxError := by
  refine ⟨(is'.int64 c.stale).2, c.host.recalled, rfl, ?_⟩
  rw [cmdStor_extracted hword hname htag, if_pos hne]
  rfl

variable (hsize : tag = text "Size:")

include hsize

theorem refuses_of_size (hlarge : maxFileSize < (is'.int64 c.stale).1) :
    RefusesWith t c .commandNotImplemented := by
  refine ⟨(is'.int64 c.stale).2, c.host.recalled, rfl, ?_⟩
  rw [cmdStor_extracted hword hname htag, if_neg (not_not.mpr hsize), if_pos hlarge]
  rfl

theorem refuses_of_open (hfits : (is'.int64 c.stale).1 ≤ maxFileSize)
    (hopen : ¬ Opens c.host name) : RefusesWith t c .badFile := by
  have hnone : c.host.recalled.tries (c.host.recalled.store.truncates (fullpath name)) = none :=
    Option.not_isSome_iff_eq_none.mp hopen
  have hrun := onHost_of_ok (c := c.extracted is')
    (Host.run_openOut (fullpath name) c.host.recalled)
  rw [hnone] at hrun
  refine ⟨(is'.int64 c.stale).2, c.host.recalled.called .openOut none, rfl, ?_⟩
  rw [cmdStor_extracted hword hname htag, if_neg (not_not.mpr hsize), if_neg (not_lt.mpr hfits),
    Exec.bind_of_ok hrun]
  rfl

theorem accepts_of_open (hfits : (is'.int64 c.stale).1 ≤ maxFileSize) (hopen : Opens c.host name) :
    Accepts t c name (is'.int64 c.stale).1 := by
  obtain ⟨⟨path, was⟩, htries⟩ := Option.isSome_iff_exists.mp hopen
  have hrun := onHost_of_ok (c := c.extracted is')
    (Host.run_openOut (fullpath name) c.host.recalled)
  have htries' : c.host.recalled.tries (c.host.recalled.store.truncates (fullpath name))
      = some (path, was) := htries
  rw [htries'] at hrun
  refine ⟨(is'.int64 c.stale).2, path, was, Host.of_tries htries, ?_⟩
  rw [cmdStor_extracted hword hname htag, if_neg (not_not.mpr hsize), if_neg (not_lt.mpr hfits),
    Exec.bind_of_ok hrun]
  rfl

end Named

/-! ### From the words of a header -/

/-- `cmd_stor` goes on to open the file: the header begins with a file name and the tag, and the
number that is read is in range. -/
def Asks (c : Client τ) (ws : List Bytes) (name : Bytes) (rest : List Bytes) : Prop :=
  ws = name :: text "Size:" :: rest ∧ parola name = true ∧ sizeRead c.stale rest ≤ maxFileSize

theorem stor_accepts {name : Bytes} {rest : List Bytes} (h : Asks c (tokens s) name rest)
    (hopen : Opens c.host name) : Accepts t (c.reading s) name (sizeRead c.stale rest) := by
  obtain ⟨htokens, hname, hfits⟩ := h
  obtain ⟨is, hword, hready, hwords⟩ := IStream.word_cons (reading_ready c s) htokens []
  obtain ⟨is', htag, hready', hwords'⟩ := IStream.word_cons hready hwords []
  have hread := int64_words hready' hwords' c.stale
  rw [← hread] at hfits ⊢
  exact accepts_of_open hword hname htag rfl hfits hopen

/-- The status that `cmd_stor` answers the words `ws` with. -/
def storStatus (h : Host) (stale : ℤ) : List Bytes → Status
  | [] => .syntaxError
  | [name] => if parola name = false then .badFile else .syntaxError
  | name :: tag :: rest =>
      if parola name = false then .badFile
      else if tag ≠ text "Size:" then .syntaxError
      else if maxFileSize < sizeRead stale rest then .commandNotImplemented
      else if Opens h name then .ok else .badFile

/-- A size that is there is read, whatever the variable held. -/
theorem sizeRead_of_named {rest : List Bytes} (h : rest ≠ []) (stale : ℤ) :
    sizeRead stale rest = sizeRead 0 rest := by
  cases rest with
  | nil => exact absurd rfl h
  | cons w rest => rfl

theorem storStatus_of_named {ws : List Bytes}
    (h : ∀ name, parola name = true → ws ≠ [name, text "Size:"]) (host : Host) (stale : ℤ) :
    storStatus host stale ws = storStatus host 0 ws := by
  rcases ws with - | ⟨name, - | ⟨tag, - | ⟨num, rest⟩⟩⟩
  · rfl
  · rfl
  · rw [storStatus, storStatus]
    split
    · rfl
    split
    · rfl
    · rename_i hname hsize
      exact absurd (by rw [not_not.mp hsize]) (h name (by simpa using hname))
  · rfl

/-- **What `cmd_stor` does with a header**: it refuses it with its status, or goes on. -/
theorem stor_cases (t : Transport τ) (c : Client τ) (s : Bytes) :
    storStatus c.host c.stale (tokens s) ≠ .ok ∧
        RefusesWith t (c.reading s) (storStatus c.host c.stale (tokens s)) ∨
      storStatus c.host c.stale (tokens s) = .ok ∧
        ∃ name rest, Asks c (tokens s) name rest ∧ Opens c.host name := by
  cases htokens : tokens s with
  | nil =>
    -- no file name, so there is no tag either
    obtain ⟨hword, hfail⟩ := IStream.word_nil (s := (c.reading s).is) htokens []
    rw [storStatus]
    refine .inl ⟨by decide, ?_⟩
    exact refuses_of_tag (Prod.ext hword rfl) rfl (IStream.word_of_fail hfail []) (by decide)
  | cons name ws =>
    obtain ⟨is, hword, hready, hwords⟩ := IStream.word_cons (reading_ready c s) htokens []
    by_cases hname : parola name = false
    · have hstatus : storStatus c.host c.stale (name :: ws) = .badFile := by
        cases ws with
        | nil => rw [storStatus, if_pos hname]
        | cons tag rest => rw [storStatus, if_pos hname]
      rw [hstatus]
      exact .inl ⟨by decide, refuses_of_name hword hname⟩
    have hname' : parola name = true := by simpa using hname
    cases ws with
    | nil =>
      have htag : is.word [] = ([], (is.word []).2) :=
        Prod.ext (IStream.word_nil hwords []).1 rfl
      rw [storStatus, if_neg hname]
      exact .inl ⟨by decide, refuses_of_tag hword hname' htag (by decide)⟩
    | cons tag rest =>
      obtain ⟨is', htag, hready', hwords'⟩ := IStream.word_cons hready hwords []
      have hread := int64_words hready' hwords' c.stale
      rw [storStatus, if_neg hname]
      by_cases hsize : tag = text "Size:"
      · rw [if_neg (not_not.mpr hsize)]
        by_cases hlarge : maxFileSize < sizeRead c.stale rest
        · rw [if_pos hlarge]
          exact .inl ⟨by decide, refuses_of_size hword hname' htag hsize (hread ▸ hlarge)⟩
        · rw [if_neg hlarge]
          have hfits := not_lt.mp hlarge
          by_cases hopen : Opens c.host name
          · rw [if_pos hopen, hsize]
            exact .inr ⟨rfl, name, rest, ⟨rfl, hname', hfits⟩, hopen⟩
          · rw [if_neg hopen]
            exact .inl ⟨by decide, refuses_of_open hword hname' htag hsize (hread ▸ hfits) hopen⟩
      · rw [if_pos hsize]
        exact .inl ⟨by decide, refuses_of_tag hword hname' htag hsize⟩

theorem stor_refuses (h : ∀ name rest, Asks c (tokens s) name rest → ¬ Opens c.host name) :
    Refuses t (c.reading s) := by
  rcases stor_cases t c s with ⟨hne, hrefuses⟩ | ⟨-, name, rest, hasks, hopen⟩
  · exact ⟨_, hne, hrefuses⟩
  · exact absurd hopen (h name rest hasks)

/-! ### Refused or accepted -/

/-- An answer is sent, behind what was not sent yet. -/
theorem answer_run (t : Transport τ) (status : Status) (c : Client τ) :
    (answer t status).run c = match (t.send (c.os ++ status.reply)).run c.link with
      | .ok _ l => .ok () { c with
          link := l, os := [], packets := c.packets ++ [c.os ++ status.reply] }
      | .error e l => .error e { c with
          link := l, os := c.os ++ status.reply, packets := c.packets ++ [c.os ++ status.reply] } := by
  have hwrite : (write status.reply : EStateM Ex (Client τ) Unit).run c
      = .ok () { c with os := c.os ++ status.reply } := rfl
  have hne : c.os ++ status.reply ≠ [] :=
    List.append_ne_nil_of_right_ne_nil _ status.reply_ne_nil
  rw [answer, Exec.bind_of_ok hwrite, sendCmd_run t hne]
  rfl

/-- The packet that an answer gives to `Crypto::send`. -/
theorem answer_packets (t : Transport τ) (status : Status) (c : Client τ) :
    (Exec.endState ((answer t status).run c)).packets = c.packets ++ [c.os ++ status.reply] := by
  rw [answer_run]
  cases (t.send (c.os ++ status.reply)).run c.link <;> rfl

/-- The code of an answer can be read from its packet. -/
theorem reply_inj {os : Bytes} {status status' : Status}
    (h : os ++ status.reply = os ++ status'.reply) : status = status' := by
  have hreply := List.append_cancel_left h
  revert hreply
  cases status <;> cases status' <;> decide

theorem Accepts.not_refuses {name : Bytes} {n : ℤ} (h : Accepts t c name n) : ¬ Refuses t c := by
  rintro ⟨status, hstatus, is', host', -, hrefused⟩
  obtain ⟨is, path, was, -, haccepted⟩ := h
  have herror := answer_packets t status { c with is := is', host := host' }
  have hok := answer_packets t .ok { c with
    is := is
    host := c.host.recalled.called .openOut (some (path, was, c.host.store.truncate path)) }
  -- nothing else is given to `Crypto::send` after the answer
  have hrest : Exec.Leaves Client.packets (onHost (Host.limit n.toNat) >>= fun writable =>
      storLoop t path n n.toNat 0 writable) :=
    .bind (.zoom fun _ _ => rfl) fun _ => storLoop_leaves_packets t path n n.toNat 0 _
  have hpackets : (Exec.endState ((cmdStor t).run c)).packets
      = c.packets ++ [c.os ++ Status.ok.reply] := by
    rw [haccepted, ← hok]
    cases hr : (answer t .ok).run { c with
        is := is
        host := c.host.recalled.called .openOut (some (path, was, c.host.store.truncate path)) } with
    | error e c' => rw [Exec.bind_of_error hr]
    | ok u c' =>
      rw [Exec.bind_of_ok hr]
      exact hrest c'
  rw [hrefused, herror] at hpackets
  exact hstatus (reply_inj (List.singleton_inj.mp (List.append_cancel_left hpackets)))

/-- **What `STOR` accepts.**  Of a header in which `s` follows `STOR`, `cmd_stor` accepts only what
the protocol says if and only if what stands behind a good file name and the tag is one number that
is not negative, or names a number that is too large, or the file cannot be opened. -/
theorem stor_grammar (t : Transport τ) (c : Client τ) (s : Bytes) :
    KeepsGrammar t (c.reading s) ↔
      ∀ name rest, tokens s = name :: text "Size:" :: rest → parola name = true →
        maxFileSize < sizeNamed c.stale rest ∨ ¬ Opens c.host name ∨
          ∃ num n, rest = [num] ∧ Numeral num n ∧ 0 ≤ n := by
  constructor
  · intro hkeeps name rest htokens hname
    by_cases hfits : sizeNamed c.stale rest ≤ maxFileSize
    · by_cases hopen : Opens c.host name
      · have haccepts := stor_accepts (t := t) ⟨htokens, hname, sizeRead_le.mpr hfits⟩ hopen
        rcases hkeeps with hrefuses | ⟨name', n, ⟨num, hwords, -, hnum, hpos, -⟩, -⟩
        · exact absurd hrefuses haccepts.not_refuses
        · obtain ⟨-, htail⟩ := List.cons.inj (htokens.symm.trans hwords)
          exact .inr (.inr ⟨num, n, (List.cons.inj htail).2, hnum, hpos⟩)
      · exact .inr (.inl hopen)
    · exact .inl (not_le.mp hfits)
  · intro h
    by_cases hasks : ∃ name rest, Asks c (tokens s) name rest ∧ Opens c.host name
    · obtain ⟨name, rest, hasks, hopen⟩ := hasks
      have haccepts := stor_accepts (t := t) hasks hopen
      obtain ⟨htokens, hname, hfits⟩ := hasks
      rcases h name rest htokens hname with hlarge | hclosed | ⟨num, n, rfl, hnum, hpos⟩
      · exact absurd hlarge (not_lt.mpr (sizeRead_le.mp hfits))
      · exact absurd hopen hclosed
      · have hread : sizeRead c.stale [num] = n := by
          have hmax : maxFileSize = 4294967296 := rfl
          rw [sizeRead_numeral hnum] at hfits ⊢
          omega
        rw [hread] at hfits haccepts
        exact .inr ⟨name, n, ⟨num, htokens, hname, hnum, hpos, hfits⟩, haccepts⟩
    · refine .inl (stor_refuses fun name rest hasks' hopen => ?_)
      exact hasks ⟨name, rest, hasks', hopen⟩

/-- What is accepted although it is no request of the protocol. -/
theorem not_keeps {name : Bytes} {rest : List Bytes} (h : Asks c (tokens s) name rest)
    (hopen : Opens c.host name)
    (hno : ∀ num n, rest = [num] → Numeral num n → n < 0) : ¬ KeepsGrammar t (c.reading s) := by
  rintro (hrefuses | ⟨name', n, ⟨num, hwords, -, hnum, hpos, -⟩, -⟩)
  · exact (stor_accepts h hopen).not_refuses hrefuses
  · obtain ⟨-, htail⟩ := List.cons.inj (h.1.symm.trans hwords)
    exact absurd (hno num n (List.cons.inj htail).2 hnum) (not_lt.mpr hpos)

instance (c : Client τ) (ws : List Bytes) (name : Bytes) (rest : List Bytes) :
    Decidable (Asks c ws name rest) :=
  inferInstanceAs (Decidable (ws = name :: text "Size:" :: rest ∧ parola name = true ∧
    sizeRead c.stale rest ≤ maxFileSize))

/-- **A size that is missing, is negative or has something behind it** is accepted: the file is
truncated. -/
theorem grammar_not_kept :
    ¬ KeepsGrammar .plain ((emptyRoot []).reading (text " a\nSize:\n\n")) ∧
    ¬ KeepsGrammar .plain ((emptyRoot []).reading (text " a\nSize: -1\n\n")) ∧
    ¬ KeepsGrammar .plain ((emptyRoot []).reading (text " a\nSize: 1x\n\n")) := by
  have hopen : Opens (emptyRoot []).host (text "a") := by decide
  have hmissing : Asks (emptyRoot []) (tokens (text " a\nSize:\n\n")) (text "a") [] := by decide
  have hnegative : Asks (emptyRoot []) (tokens (text " a\nSize: -1\n\n")) (text "a")
      [text "-1"] := by decide
  have hgarbage : Asks (emptyRoot []) (tokens (text " a\nSize: 1x\n\n")) (text "a")
      [text "1x"] := by decide
  refine ⟨not_keeps hmissing hopen ?_, not_keeps hnegative hopen ?_, not_keeps hgarbage hopen ?_⟩
  · exact fun _ _ h _ => nomatch h
  · intro num n h hnum
    obtain rfl := List.singleton_inj.mp h
    rw [← leading_of_numeral hnum]
    decide
  · intro num n h hnum
    obtain rfl := List.singleton_inj.mp h
    exact absurd (hnum.digits 120 (by decide)) (by decide)

end ServerClient

end Cybrg
