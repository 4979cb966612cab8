import Cybrg.Conversation.AnyNetwork
import Cybrg.Conversation.HeaderTrips
import Cybrg.Conversation.Shelf
import Cybrg.Library.Trips

/-!
# What an attacker can do to the files

A client sends jobs to the server, one after the other, and an attacker decides which bytes arrive.

* `Job`, `Job.bytes` — a request, with all that the client sends for it;
* `Job.result` — what it does to the files that the server keeps;
* `Ready.round`, `Ready.cut` — a round of the server on a job, and on a part of one;
* `CutShort` — the files behind the first jobs, with a part of the next upload maybe;
* `session_cut_short` — an attacker can cut the session short, and that is all.
-/

namespace Cybrg

open Octets Streams Files
open ServerClient hiding cmdStor_refused cmdRetr_refused
open ClientMain (destination_of_not_served opened_store view_deleted)

variable {P : Primitives} {o o' : ByteOrder}

/-- The files that the server keeps. -/
def kept (s : Store) (name : Name) : Option Bytes := fileAt s (keptAt name)

theorem kept_set (s : Store) (name : Name) (content : Bytes) :
    kept (s.set (keptAt name) (.file content)) = Function.update (kept s) name (some content) := by
  funext other
  rw [kept, fileAt_set]
  exact congrFun (update_keptAt (fileAt s) name (some content)) other

/-! ### Jobs -/

/-- A request of the client, with the file that is to be stored. -/
inductive Job where
  | list
  | quit
  | retr (name : Bytes)
  | dele (name : Bytes)
  | stor (name content : Bytes)
  deriving DecidableEq

namespace Job

/-- What its header says. -/
def header : Job → RequestHeader
  | list => .list
  | quit => .quit
  | retr name => .retr name
  | dele name => .dele name
  | stor name content => .stor name content.length

/-- What the client sends behind the header: a file, if the server asks for it. -/
def body : Job → Bytes
  | stor name content => if Served name then content else []
  | _ => []

/-- All that the client sends. -/
def bytes (job : Job) : Bytes := job.header.toBytes ++ job.body

/-- A name is a word, and a file is not too long. -/
def Named : Job → Prop
  | list | quit => True
  | retr name => Word name ∧ name ≠ []
  | dele name => (Word name ∧ name ≠ []) ∧ 0 ∉ name
  | stor name content => Word name ∧ sendable content = true

instance : (job : Job) → Decidable job.Named
  | list | quit => inferInstanceAs (Decidable True)
  | retr name => inferInstanceAs (Decidable (Word name ∧ name ≠ []))
  | dele name => inferInstanceAs (Decidable ((Word name ∧ name ≠ []) ∧ 0 ∉ name))
  | stor name content => inferInstanceAs (Decidable (Word name ∧ sendable content = true))

/-- A job that a client can have: its header fits the buffer. -/
structure Formed (job : Job) : Prop where
  fits : job.header.toBytes.length < bufferSize
  named : job.Named

instance (job : Job) : Decidable job.Formed :=
  decidable_of_iff (job.header.toBytes.length < bufferSize ∧ job.Named)
    ⟨fun h => ⟨h.1, h.2⟩, fun h => ⟨h.fits, h.named⟩⟩

/-- The files that the server keeps when the job is done. -/
def result (files : Name → Option Bytes) : Job → Name → Option Bytes
  | dele name => if Served name then Function.update files name none else files
  | stor name content => if Served name then Function.update files name (some content) else files
  | _ => files

/-- A job that was begun may have stored a part of its file. -/
inductive Begun (files : Name → Option Bytes) : Job → (Name → Option Bytes) → Prop
  | nothing (job : Job) : Begun files job files
  | partly {name content : Bytes} {m : ℕ} (hserved : Served name) (hm : m < content.length) :
      Begun files (.stor name content) (Function.update files name (some (content.take m)))

theorem lines_of_named {job : Job} (h : job.Named) : ∀ l ∈ job.header.lines, Line l := by
  have hline : ∀ {w name : Bytes}, w ≠ [] → 10 ∉ w → Word name → Line (w ++ name) := by
    intro w name hw h10 hname
    refine ⟨List.append_ne_nil_of_left_ne_nil hw name, fun h => ?_⟩
    exact (List.mem_append.mp h).elim h10 hname.no_newline
  cases job with
  | list | quit =>
    intro l hl
    rw [List.mem_singleton.mp hl]
    decide
  | retr name =>
    exact List.forall_mem_singleton.mpr (hline (by decide) (by decide) h.1)
  | dele name =>
    exact List.forall_mem_singleton.mpr (hline (by decide) (by decide) h.1.1)
  | stor name content =>
    exact List.forall_mem_cons.mpr ⟨hline (by decide) (by decide) h.1, size_lines _⟩

/-- The header is read. -/
theorem Formed.scanHeader {job : Job} (h : job.Formed) (s : Bytes) :
    Transport.scanHeader (job.header.toBytes ++ s) = some (upToZero job.header.toBytes, s) := by
  have hfits := h.fits
  rw [RequestHeader.toBytes_lines] at hfits ⊢
  exact Transport.scanHeader_headerText (lines_of_named h.named) (RequestHeader.lines_ne_nil _) hfits s

theorem Formed.no_header {job : Job} (h : job.Formed) {s : Bytes}
    (hs : s <+: job.header.toBytes) (hne : s ≠ job.header.toBytes) :
    Transport.scanHeader s = none := by
  have hall := h.scanHeader []
  rw [List.append_nil] at hall
  exact Transport.scanHeader_part hall hs hne

end Job

/-! ### Rounds -/

/-- A server that waits for a request, on a tidy system that refuses nothing. -/
structure Ready (c : Client Unit) : Prop where
  os : c.os = []
  willing : c.host.Willing
  tidy : ServerTidy c.host.store

/-- **A request to end the session** is answered, and the server stops. -/
theorem quit_answers {c : Client Unit} (hos : c.os = []) : ∃ c₁ : Client Unit,
    (∀ rest, (iteration .plain).run (c.withLink (text "QUIT\n\n" ++ rest))
      = .ok false (c₁.withLink rest)) ∧
      c₁.os = [] ∧ c₁.packets = c.packets ++ [Status.ok.reply] ∧ c₁.host = c.host := by
  refine ⟨{ c with
    is := { rest := [10, 10] }
    cmd := text "QUIT"
    packets := c.packets ++ [Status.ok.reply] }, fun rest => ?_, hos, rfl, rfl⟩
  have hsound : RequestHeader.quit.Sound := trivial
  have hlink : (c.withLink (text "QUIT\n\n" ++ rest)).link = RequestHeader.quit.toBytes ++ rest := rfl
  obtain ⟨l, hround, rfl⟩ := iteration_understood plain_carries hsound (by decide) hlink
  rw [hround]
  exact Exec.bind_of_ok (answer_plain _ (by exact hos) .ok)

namespace Ready

variable {c : Client Unit}

/-- The system after a round. -/
theorem willing_of_run (h : Ready c) {s : Bytes} {more : Bool} {d : Client Bytes}
    (hrun : (iteration .plain).run (c.withLink s) = .ok more d) : d.host.Willing := by
  have hmoves := (iteration_moves (moves_since .plain) (c.withLink s)).1
  rw [hrun] at hmoves
  exact h.willing.since hmoves

/-- The server behind a request that was answered. -/
theorem of_answers (h : Ready c) {request : Bytes} {ps : List Bytes} {c₁ : Client Unit}
    (hanswers : Answers c request ps c₁) (htidy : ServerTidy c₁.host.store) : Ready c₁ :=
  ⟨hanswers.os, h.willing_of_run (hanswers.run []), htidy⟩

/-- The server does a job, takes no byte of what follows, and is ready again. -/
structure Does (c : Client Unit) (job : Job) (more : Bool) (c₁ : Client Unit) : Prop where
  run : ∀ rest, (iteration .plain).run (c.withLink (job.bytes ++ rest))
    = .ok more (c₁.withLink rest)
  ready : Ready c₁
  files : kept c₁.host.store = job.result (kept c.host.store)

/-- A request without a body that was answered. -/
theorem does_of_answers (h : Ready c) (job : Job) (hbody : job.body = []) {ps : List Bytes}
    {c₁ : Client Unit} (hanswers : Answers c job.header.toBytes ps c₁)
    (htidy : ServerTidy c₁.host.store)
    (hfiles : kept c₁.host.store = job.result (kept c.host.store)) : Does c job true c₁ := by
  have hrun : ∀ rest, (iteration .plain).run (c.withLink (job.bytes ++ rest))
      = .ok true (c₁.withLink rest) := by
    intro rest
    rw [Job.bytes, hbody, List.append_nil]
    exact hanswers.run rest
  exact ⟨hrun, h.of_answers hanswers htidy, hfiles⟩

theorem list (h : Ready c) : ∃ c₁, Does c .list true c₁ := by
  obtain ⟨c₁, hanswers, hstore⟩ := list_answers h.os
  exact ⟨c₁, h.does_of_answers .list rfl hanswers (hstore ▸ h.tidy) (by rw [hstore]; rfl)⟩

theorem quit (h : Ready c) : ∃ c₁, Does c .quit false c₁ := by
  obtain ⟨c₁, hrun, hos, -, hhost⟩ := quit_answers h.os
  exact ⟨c₁, hrun, ⟨hos, hhost ▸ h.willing, hhost ▸ h.tidy⟩, by rw [hhost]; rfl⟩

theorem retr (h : Ready c) {name : Bytes} (hj : (Job.retr name).Formed) :
    ∃ c₁, Does c (.retr name) true c₁ := by
  obtain ⟨hname, hne⟩ := hj.named
  have hstore := opened_store c.host (upToZero name)
  have hdone : ∀ {ps c₁}, Answers c (ClientMain.retrText name) ps c₁ →
      c₁.host.store = c.host.store → Does c (.retr name) true c₁ :=
    fun {ps c₁} hanswers heq =>
      h.does_of_answers (.retr name) rfl hanswers (heq ▸ h.tidy) (by rw [heq]; rfl)
  cases hopened : (opened c.host (upToZero name)).1 with
  | none =>
    obtain ⟨c₁, hanswers, hhost⟩ := retr_refused h.os hname hne hj.fits hopened
    exact ⟨c₁, hdone hanswers (by rw [hhost, hstore])⟩
  | some node =>
    obtain ⟨c₁, hanswers, hhost⟩ := retr_answers h.os hname hne hj.fits hopened
    exact ⟨c₁, hdone hanswers (by rw [hhost]; exact hstore)⟩

theorem dele (h : Ready c) {name : Bytes} (hj : (Job.dele name).Formed) :
    ∃ c₁, Does c (.dele name) true c₁ := by
  obtain ⟨⟨hname, hne⟩, hzero⟩ := hj.named
  obtain ⟨c₁, hanswers, hhost⟩ := dele_answers h.os hname hne hj.fits
  rw [upToZero_of_nonzero hzero] at hhost
  -- the user's files play no part here
  obtain ⟨htidy, hview⟩ := view_deleted h.willing h.tidy hne c.host.store
  rw [← hhost] at htidy hview
  refine ⟨c₁, h.does_of_answers (.dele name) rfl hanswers htidy ?_⟩
  have hshelf : kept c₁.host.store = Mirror.Pair.shelf (Mirror.step sendable
      (view c.host.store c.host.store) (if Served name then .remove name else .other)) :=
    congrArg Mirror.Pair.shelf hview
  rw [hshelf, Job.result]
  split <;> rfl

/-- Where an upload is written to. -/
theorem destination_served (h : Ready c) {name : Bytes} (hserved : Served name) :
    destination c.host name = some (keptAt name) := by
  rw [destination, if_pos ⟨hserved.ne_nil, hserved.parola⟩, h.willing.tries,
    truncates_keptAt hserved.parola hserved.proper h.tidy.root (h.tidy.files name)]
  rfl

/-- The files when `content` has been written to an upload. -/
theorem kept_written (h : Ready c) {name : Bytes} (hserved : Served name) (content : Bytes) :
    ((storOpened c.host name).limited.appended (keptAt name) content).store
      = c.host.store.set (keptAt name) (.file content) := by
  obtain ⟨-, was, -, hopened⟩ := storOpened_store (h.destination_served hserved)
  have hspecial : ∀ reads, c.host.store.get (keptAt name) ≠ some (.special reads) :=
    fun reads hget => h.tidy.files name _ hget
  rw [← Store.append_truncate hspecial content, ← hopened]
  rfl

/-- Every byte of an upload can be written. -/
theorem writable (h : Ready c) (name : Bytes) (size : ℕ) :
    (storOpened c.host name).limits.headD size = size := by
  have hlimits : (storOpened c.host name).limits = [] := by
    rw [storOpened, Host.called_limits]
    exact h.willing.limits
  rw [hlimits]
  rfl

/-- The files behind an upload. -/
theorem stored (h : Ready c) {name : Bytes} (hserved : Served name) (content : Bytes) :
    (c.stored name content.length (keptAt name) content).host.store
      = c.host.store.set (keptAt name) (.file content) := by
  rw [← h.kept_written hserved content, Client.stored, h.writable]
  show (Host.appended _ _ (content.take _)).store = _
  rw [Int.toNat_natCast, List.take_length]

theorem stor (h : Ready c) {name content : Bytes} (hj : (Job.stor name content).Formed) :
    ∃ c₁, Does c (.stor name content) true c₁ := by
  obtain ⟨hname, hsendable⟩ := hj.named
  have hsize := sendable_iff.mp hsendable
  have hlo : -2 ^ 63 ≤ (content.length : ℤ) := by omega
  by_cases hserved : Served name
  · have hlength : content.length = (content.length : ℤ).toNat := rfl
    have hanswers := stor_stored h.os hname hlo hsize hj.fits (h.destination_served hserved) hlength
    have hstore := h.stored hserved content
    have hbytes : (Job.stor name content).bytes
        = ClientMain.storText name content.length ++ content := by
      rw [Job.bytes, Job.body, if_pos hserved]
      rfl
    have hrun : ∀ rest, (iteration .plain).run (c.withLink ((Job.stor name content).bytes ++ rest))
        = .ok true (Client.withLink (c.stored name content.length (keptAt name) content) rest) := by
      rw [hbytes]
      exact hanswers.run
    refine ⟨_, hrun, h.of_answers hanswers ?_, ?_⟩
    · rw [hstore]
      exact h.tidy.set hsendable
    · rw [hstore, kept_set, Job.result, if_pos hserved]
  · obtain ⟨status, c₁, -, hanswers, hstore⟩ := stor_refused h.os hname hlo hsize hj.fits
      (destination_of_not_served hserved)
    refine ⟨c₁, h.does_of_answers (.stor name content) (if_neg hserved) hanswers
      (hstore ▸ h.tidy) ?_⟩
    rw [hstore, Job.result, if_neg hserved]

/-- **A round on a job.** -/
theorem round (h : Ready c) {job : Job} (hj : job.Formed) : ∃ more c₁, Does c job more c₁ := by
  cases job with
  | list => exact ⟨true, h.list⟩
  | quit => exact ⟨false, h.quit⟩
  | retr name => exact ⟨true, h.retr hj⟩
  | dele name => exact ⟨true, h.dele hj⟩
  | stor name content => exact ⟨true, h.stor hj⟩

/-! ### A part of a job -/

/-- **A server that has read a part of a header** waits for the rest. -/
theorem header_waits (c : Client Unit) {s : Bytes} (hs : Transport.scanHeader s = none) :
    ∃ e d, (iteration .plain).run (c.withLink s) = .error e d ∧ d.packets = c.packets ∧
      d.host = c.host := by
  have hrecv := plain_carries.recvHeader (x := s) rfl
  rw [hs] at hrecv
  obtain ⟨e, l, hrun, -⟩ := hrecv
  have hlink := onLink_of_error (c := Client.withLink { c with
      is := (c.is.ignore bufferSize).clear } s) hrun
  have hcmd : (recvCmd .plain).run (c.withLink s) = .error e (Client.withLink { c with
      is := (c.is.ignore bufferSize).clear } l) := by
    unfold recvCmd
    rw [Exec.bind_of_ok (EStateM.run_modify _ _)]
    exact Exec.bind_of_error hlink
  exact ⟨e, _, Exec.bind_of_error hcmd, rfl, rfl⟩

/-- **A server that reads something behind a request to store a file** has replied, and it has stored
what there was, up to the size of the file. -/
theorem file_answered (h : Ready c) {name content : Bytes} (hj : (Job.stor name content).Formed)
    (hserved : Served name) (s : Bytes) :
    (Exec.endState ((iteration .plain).run
        (c.withLink (ClientMain.storText name content.length ++ s)))).packets
      = c.packets ++ [Status.ok.reply] ∧ (s.length < content.length →
    ∃ e d, (iteration .plain).run (c.withLink (ClientMain.storText name content.length ++ s))
        = .error e d ∧ d.host.store = c.host.store.set (keptAt name) (.file s)) := by
  obtain ⟨hname, hsendable⟩ := hj.named
  have hsize := sendable_iff.mp hsendable
  have hround := stor_accepted h.os hname (by omega) hsize hj.fits (h.destination_served hserved) s
  have hloop := storLoop_run plain_carries (keptAt name) content.length content.length 0 content.length
    (c := (c.storing name content.length).withLink s) (s := s) rfl (by omega)
  rw [Int.toNat_natCast, h.writable] at hround
  rw [sub_zero, Int.toNat_natCast] at hloop
  rw [hround]
  split at hloop
  · rename_i hlen
    obtain ⟨l, hrun, -⟩ := hloop
    rw [Exec.bind_of_ok hrun]
    exact ⟨rfl, fun hshort => absurd hlen (not_le.mpr hshort)⟩
  · rename_i hlen
    obtain ⟨e, l, hrun, -⟩ := hloop
    rw [List.take_of_length_le (not_le.mp hlen).le] at hrun
    rw [Exec.bind_of_error hrun]
    exact ⟨rfl, fun _ => ⟨e, _, rfl, h.kept_written hserved s⟩⟩

/-- **A server that has read a part of a file** has stored it, and waits for the rest. -/
theorem file_waits (h : Ready c) {name content part : Bytes} (hj : (Job.stor name content).Formed)
    (hserved : Served name) (hpart : part <+: content) (hne : part ≠ content) :
    ∃ e d, (iteration .plain).run (c.withLink (ClientMain.storText name content.length ++ part))
        = .error e d ∧ d.packets = c.packets ++ [Status.ok.reply] ∧
      d.host.store = c.host.store.set (keptAt name) (.file part) := by
  have hshort : part.length < content.length :=
    lt_of_le_of_ne hpart.length_le fun hlen => hne (hpart.eq_of_length hlen)
  obtain ⟨hpackets, hwaits⟩ := h.file_answered hj hserved part
  obtain ⟨e, d, hrun, hstore⟩ := hwaits hshort
  rw [hrun] at hpackets
  exact ⟨e, d, hrun, hpackets, hstore⟩

/-- **A round on a part of a job**: the server waits for the rest, and has begun the job. -/
theorem cut (h : Ready c) {job : Job} (hj : job.Formed) {s : Bytes} (hs : s <+: job.bytes)
    (hne : s ≠ job.bytes) :
    ∃ e d, (iteration .plain).run (c.withLink s) = .error e d ∧
      Job.Begun (kept c.host.store) job (kept d.host.store) := by
  rcases Trips.part_or_rest hs (List.prefix_append _ job.body) with ⟨hheader, hheaderne⟩ | ⟨part, rfl⟩
  · obtain ⟨e, d, hrun, -, hhost⟩ := header_waits c (hj.no_header hheader hheaderne)
    refine ⟨e, d, hrun, ?_⟩
    rw [hhost]
    exact .nothing job
  · -- the header is there, so a part of the body is missing
    have hpart : part <+: job.body := (List.prefix_append_right_inj _).mp hs
    have hpartne : part ≠ job.body := fun heq => hne (by rw [heq]; rfl)
    have hnonempty : job.body ≠ [] := by
      intro hnil
      rw [hnil] at hpart hpartne
      exact hpartne (List.prefix_nil.mp hpart)
    cases job with
    | stor name content =>
      by_cases hserved : Served name
      · have hbody : (Job.stor name content).body = content := if_pos hserved
        rw [hbody] at hpart hpartne
        obtain ⟨e, d, hrun, -, hstore⟩ := h.file_waits hj hserved hpart hpartne
        have hlen : part.length < content.length :=
          lt_of_le_of_ne hpart.length_le fun hlen => hpartne (hpart.eq_of_length hlen)
        refine ⟨e, d, hrun, ?_⟩
        rw [hstore, kept_set, List.prefix_iff_eq_take.mp hpart]
        exact .partly hserved hlen
      · exact absurd (if_neg hserved) hnonempty
    | list | quit | retr | dele => exact absurd rfl hnonempty

end Ready

/-! ### Sessions -/

/-- After `n` rounds the files are those of the first jobs, with a part of the next upload maybe. -/
def CutShort (files : Name → Option Bytes) (jobs : List Job) (n : ℕ)
    (files' : Name → Option Bytes) : Prop :=
  ∃ k ≤ n, files' = (jobs.take k).foldl Job.result files ∨
    ∃ job, k < n ∧ jobs[k]? = some job ∧
      Job.Begun ((jobs.take k).foldl Job.result files) job files'

theorem CutShort.cons {files files' : Name → Option Bytes} {job : Job} {jobs : List Job} {n : ℕ}
    (h : CutShort (job.result files) jobs n files') : CutShort files (job :: jobs) (n + 1) files' := by
  obtain ⟨k, hk, h⟩ := h
  refine ⟨k + 1, Nat.succ_le_succ hk, ?_⟩
  rw [List.take_succ_cons, List.foldl_cons, List.getElem?_cons_succ]
  rcases h with hfiles | ⟨next, hlt, hnext, hbegun⟩
  · exact .inl hfiles
  · exact .inr ⟨next, Nat.succ_lt_succ hlt, hnext, hbegun⟩

theorem CutShort.nothing (files : Name → Option Bytes) (jobs : List Job) (n : ℕ) :
    CutShort files jobs n files := ⟨0, Nat.zero_le n, .inl rfl⟩

/-- **A server that reads a part of what was sent** has done the first jobs. -/
theorem Ready.after {c : Client Unit} (h : Ready c) {jobs : List Job}
    (hjobs : ∀ job ∈ jobs, job.Formed) {s : Bytes} (hs : s <+: jobs.flatMap Job.bytes) (n : ℕ) :
    CutShort (kept c.host.store) jobs n
      (kept (Loop.after .plain n ⟨true, c.withLink s⟩).client.host.store) := by
  induction n generalizing c jobs s with
  | zero => exact .nothing _ jobs 0
  | succ n ih =>
    cases jobs with
    | nil =>
      obtain rfl : s = [] := List.prefix_nil.mp hs
      obtain ⟨e, d, hrun, -, hhost⟩ := iteration_of_nil c
      rw [Loop.after_error hrun, hhost]
      exact .nothing _ [] (n + 1)
    | cons job jobs =>
      have hj := hjobs job List.mem_cons_self
      rw [List.flatMap_cons] at hs
      rcases Trips.part_or_rest hs (List.prefix_append _ _) with ⟨hpart, hpartne⟩ | ⟨rest, rfl⟩
      · obtain ⟨e, d, hrun, hbegun⟩ := h.cut hj hpart hpartne
        rw [Loop.after_error hrun]
        exact ⟨0, Nat.zero_le _, .inr ⟨job, Nat.succ_pos n, rfl, hbegun⟩⟩
      · have hlater : ∀ later ∈ jobs, later.Formed :=
          fun later hmem => hjobs later (List.mem_cons_of_mem job hmem)
        obtain ⟨more, c₁, hdoes⟩ := h.round hj
        cases more with
        | false =>
          show CutShort _ _ _ (kept (Loop.after .plain n
            (Loop.step .plain ⟨true, c.withLink (job.bytes ++ rest)⟩ ()).1).client.host.store)
          rw [Loop.step, if_pos rfl, hdoes.run rest, Loop.after_stopped]
          refine .cons ?_
          show CutShort _ jobs n (kept c₁.host.store)
          rw [hdoes.files]
          exact .nothing _ jobs n
        | true =>
          rw [Loop.after_of_iteration (hdoes.run rest)]
          have hrest := ih hdoes.ready hlater ((List.prefix_append_right_inj _).mp hs)
          rw [hdoes.files] at hrest
          exact hrest.cons

/-- **An attacker can cut the session short, and that is all.**  A client sends its jobs in packets that
fit, the last of which may throw, and any bytes at all reach a server on a tidy system that refuses
nothing.  If all tags that it finds right are the client's (none is forged, and none of its own comes
back to it) and the sizes of the packets cannot be confused, then after any number of rounds, as long as
the server has sequence numbers left, the files that it keeps are those of the first jobs, each done once
and in order; of the next job nothing is done, or it is an upload and a part of its file is stored. -/
theorem session_cut_short (P : Primitives) (o o' : ByteOrder) (k : SessionKeys) (rets : List ℤ)
    {jobs : List Job} (hjobs : ∀ job ∈ jobs, job.Formed) {ps : List Bytes}
    (hps : ps.flatten <+: jobs.flatMap Job.bytes) (hfits : ∀ p ∈ ps, Fits p)
    (hcount : ps.length < 2 ^ 31) (hu : Link.Unconfused (ps.map List.length)) {wire : Bytes}
    (hideal : OnlyTagsOf P o o' k
      (Exec.endState ((ps.mapM (Crypto.send P o)).run (Session.new k { sendRets := rets }))) wire)
    {c : Client Unit} (hc : c.packets = []) (hready : Ready c) (n : ℕ) :
    let d := Exec.endState ((serve (.crypto P o') n).run (c.connected k [] wire))
    d.packets.length < 2 ^ 31 →
      CutShort (kept c.host.store) jobs n (kept d.host.store) := by
  intro d hd
  have hpart := (authentic_of_tags k rets hfits hcount hu hideal).trans hps
  rcases (answered_authentic P o' k wire hc n).same with hfull | ⟨hrest, -⟩
  · exact absurd hfull hd.ne
  · have hhost : d.host = (Exec.endState ((serve .plain n).run
        (c.withLink (authenticBytes P o' k wire)))).host := congrArg Client.host hrest
    rw [hhost, serve_eq_run]
    exact hready.after hjobs hpart n

/-- The packets of a removal, of an upload in two parts, and of a request for a listing. -/
def threeJobs : List Bytes :=
  [text "DELE a\n\n", text "STOR b\nSize: 4\n\nwo", text "rd", text "LIST\n\n"]

/-- The last two of them are lost, and the first one comes again. -/
def lossyWire : Bytes :=
  (wireOf .sample .little (.sample 1) threeJobs).take 190
    ++ wireOf .sample .little (.sample 1) [text "DELE a\n\n"]

/-- The server behind this wire. -/
def afterLoss : Client Endpoint :=
  Exec.endState ((serve (.crypto .sample .little) 5).run (oneFile.connected (.sample 1) [] lossyWire))

theorem session_cut_short_three :
    CutShort (kept oneFile.host.store) [.dele (text "a"), .stor (text "b") (text "word"), .list] 5
        (kept afterLoss.host.store) ∧
      kept afterLoss.host.store (text "a") = none ∧
      kept afterLoss.host.store (text "b") = some (text "wo") := by
  have hjobs : ∀ job ∈ [Job.dele (text "a"), .stor (text "b") (text "word"), .list], job.Formed := by
    decide +kernel
  have hps : threeJobs.flatten <+:
      [Job.dele (text "a"), .stor (text "b") (text "word"), .list].flatMap Job.bytes := by
    decide +kernel
  have hu : Link.Unconfused (threeJobs.map List.length) :=
    fun k m hk _ => absurd (List.mem_of_getElem? hk) (by decide)
  have hideal : OnlyTagsOf .sample .little .little (.sample 1) (Exec.endState
      ((threeJobs.mapM (Crypto.send .sample .little)).run (Session.new (.sample 1) {}))) lossyWire := by
    decide +kernel
  have hready : Ready oneFile := ⟨rfl, ⟨rfl, rfl⟩, ClientMain.oneFile_tidy⟩
  have hcut := session_cut_short .sample .little .little (.sample 1) [] hjobs hps (by decide)
    (by decide) hu hideal rfl hready 5
  have hfiles := hcut (by decide +kernel)
  refine ⟨?_, by decide +kernel, by decide +kernel⟩
  unfold afterLoss
  exact hfiles

end Cybrg
