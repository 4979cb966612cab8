import Cybrg.Client.Streaming
import Cybrg.Conversation.CutShort

/-!
# Errands

Both programs read strings.  A line of the user is an errand to the server.

* `Asks` — the client sends a request and waits for the header of a reply;
* `Errand`, `Upload` — what becomes of a request on both sides, without a file behind it and with one;
* `Orderly` — lines whose words leave room in a header;
* `stays_or_sends`, `Sends.errand` — a line sends nothing, or it is an errand.
-/

namespace Cybrg

open Octets Streams Files
open ServerClient hiding onLink onHost sendCmd onLink_of_ok onHost_of_ok cmdStor_refused
  cmdRetr_refused dispatch

namespace ClientMain

/-! ### A client that reads a string -/

theorem sendCmd_plain (cmd : Bytes) (g : Globals Bytes) :
    (sendCmd .plain cmd).run g = .ok () { g with packets := g.packets ++ [cmd] } := sendCmd_of_ok rfl

/-- **The loop of `send_file`** on a string. -/
theorem sendLoop_plain (n : ℕ) (file buffer : Bytes) (remaining : ℤ) (g : Globals Bytes) :
    (sendLoop .plain n file buffer remaining).run g
      = .ok () { g with packets := g.packets ++ fragments n file buffer remaining } := by
  induction n generalizing file buffer remaining g with
  | zero =>
    rw [fragments, List.append_nil]
    rfl
  | succ n ih =>
    rw [sendLoop, fragments]
    split
    · refine (Exec.bind_of_ok (sendCmd_plain _ g)).trans ((ih _ _ _ _).trans ?_)
      show EStateM.Result.ok () { g with packets := (g.packets ++ [_]) ++ _ } = _
      rw [List.append_assoc]
      rfl
    · rw [List.append_nil]
      rfl

/-- **A listing** is read from a string, or as much of it as there is. -/
theorem recvList_plain {size : ℤ} (hlo : 0 ≤ size) (hhi : size ≤ 2 ^ 63 - 1) {v : Globals Bytes}
    (his : v.is = { rest := sizeReply size }) :
    if size.toNat ≤ v.link.length then
      ∃ v', (recvList .plain).run v = .ok () v' ∧ v'.link = v.link.drop size.toNat ∧
        v'.packets = v.packets ∧ v'.host.store = v.host.store
    else ∃ e v', (recvList .plain).run v = .error e v' ∧ v'.packets = v.packets ∧
      v'.host.store = v.host.store := by
  have hloop := listLoop_ends plain_carries size size.toNat (List.replicate bufferSize 0) 0
    (g := { v with host := v.host.recalled.recalled, is := {} }) (s := v.link) rfl (by omega)
  rw [sub_zero] at hloop
  rw [recvList_run hlo hhi his]
  split at hloop
  · rename_i hlen
    obtain ⟨v', hrun, hhost, hpackets, hlink, -⟩ := hloop
    rw [if_pos hlen]
    exact ⟨v', hrun, hlink, hpackets, by rw [hhost]; rfl⟩
  · rename_i hlen
    obtain ⟨e, v', hrun, hhost, hpackets, -⟩ := hloop
    rw [if_neg hlen]
    exact ⟨e, v', hrun, hpackets, by rw [hhost]; rfl⟩

/-- **A file** is read from a string and stored, or as much of it as there is. -/
theorem recvFile_plain {size : ℤ} (hlo : 0 ≤ size) (hhi : size ≤ 2 ^ 63 - 1) {v : Globals Bytes}
    (his : v.is = { rest := sizeReply size }) (hw : v.host.Willing) (htidy : ClientTidy v.host.store)
    {name : Bytes} (hserved : Served name) :
    if size.toNat ≤ v.link.length then
      ∃ v', (recvFile .plain name).run v = .ok () v' ∧ v'.link = v.link.drop size.toNat ∧
        v'.packets = v.packets ∧
        v'.host.store = v.host.store.set (fetchedAt name) (.file (v.link.take size.toNat))
    else ∃ e v', (recvFile .plain name).run v = .error e v' ∧ v'.packets = v.packets ∧
      v'.host.store = v.host.store.set (fetchedAt name) (.file v.link) := by
  have hopen := Host.run_openOut (clientRoot ++ name) v.host.recalled.recalled
  have hfile : v.host.recalled.recalled.tries
      (v.host.recalled.recalled.store.truncates (clientRoot ++ name))
        = some (fetchedAt name, v.host.store.get (fetchedAt name)) := by
    rw [hw.recalled.recalled.tries]
    exact truncates_fetched htidy hserved
  rw [hfile] at hopen
  have hspecial : ∀ reads, v.host.store.get (fetchedAt name) ≠ some (.special reads) :=
    fun reads hget => htidy.files name _ hget
  obtain ⟨h', hh, hopened⟩ : ∃ h', v.host.recalled.recalled.called .openOut (some (fetchedAt name,
      v.host.store.get (fetchedAt name), v.host.store.truncate (fetchedAt name))) = h' ∧
      (Host.openOut (clientRoot ++ name)).run v.host.recalled.recalled = .ok (some (fetchedAt name)) h' :=
    ⟨_, rfl, hopen⟩
  have hrun := recvFile_opens (t := .plain) hlo hhi his name hopened
  have hlimits : h'.limits.headD size.toNat = size.toNat := by
    rw [← hh, (hw.recalled.recalled.called _ _).limits]
    rfl
  have hstored : ∀ bs, (h'.limited.appended (fetchedAt name) bs).store
      = v.host.store.set (fetchedAt name) (.file bs) := by
    intro bs
    rw [← Store.append_truncate hspecial bs, ← hh]
    rfl
  have hloop := fileLoop_ends plain_carries (fetchedAt name) size size.toNat
    (g := { v with host := h'.limited, is := {} }) (s := v.link) rfl
  rw [hrun]
  dsimp only
  rw [hlimits]
  split at hloop
  · rename_i hlen
    obtain ⟨l, hloop, hlink, -⟩ := hloop
    rw [if_pos hlen]
    refine ⟨_, hloop, hlink, rfl, ?_⟩
    show (h'.limited.appended _ _).store = _
    rw [hstored, List.take_take, min_self]
  · rename_i hlen
    obtain ⟨e, l, hloop, -⟩ := hloop
    rw [if_neg hlen]
    refine ⟨e, _, hloop, rfl, ?_⟩
    show (h'.limited.appended _ _).store = _
    rw [hstored, List.take_of_length_le (by omega)]

/-- The line makes the client look at its files and send a request, and behind the header of the reply
it goes on with `next`. -/
structure Asks (g : Globals Unit) (line : Option Bytes) (request : Bytes)
    (next : EStateM Ex (Globals Bytes) Bool) (h : Host) : Prop where
  run : ∀ u, ∃ is, (round .plain line).run (g.withLink u) = (sendCmd .plain request >>= fun _ =>
    recvResponse .plain >>= fun _ => next).run { g.withLink u with is, host := h }
  store : h.store = g.host.store
  grows : Grows next

namespace Asks

variable {g : Globals Unit} {line : Option Bytes} {request : Bytes}
  {next : EStateM Ex (Globals Bytes) Bool} {h₁ : Host}

/-- The request is sent first. -/
theorem first (h : Asks g line request next h₁) (u : Bytes) :
    g.packets ++ [request] <+: (Exec.endState ((round .plain line).run (g.withLink u))).packets := by
  obtain ⟨is, hrun⟩ := h.run u
  rw [hrun]
  exact sendCmd_first (fun _ => .bind grows_path recvResponse_packets.grows fun _ => h.grows)
    { g.withLink u with is, host := h₁ }

/-- **Without the header of a reply** the client waits. -/
theorem waits (h : Asks g line request next h₁) {u : Bytes} (hu : Transport.scanHeader u = none) :
    ∃ e g', (round .plain line).run (g.withLink u) = .error e g' ∧
      g'.packets = g.packets ++ [request] ∧ g'.host.store = g.host.store := by
  obtain ⟨is, hrun⟩ := h.run u
  have hrecv := plain_carries.recvHeader (x := u) rfl
  rw [hu] at hrecv
  obtain ⟨e, l, hrecv, -⟩ := hrecv
  have hresponse := recvResponse_of_error (g := { g.withLink u with
    is, host := h₁, packets := g.packets ++ [request] }) hrecv
  rw [hrun, Exec.bind_of_ok (sendCmd_plain _ _)]
  exact ⟨e, _, Exec.bind_of_error hresponse, rfl, h.store⟩

/-- **With it** it goes on. -/
theorem goes (h : Asks g line request next h₁) {u header rest : Bytes}
    (hu : Transport.scanHeader u = some (header, rest)) :
    (round .plain line).run (g.withLink u) = next.run { g.withLink rest with
      is := { rest := header }, host := h₁, packets := g.packets ++ [request] } := by
  obtain ⟨is, hrun⟩ := h.run u
  have hrecv := plain_carries.recvHeader (x := u) rfl
  rw [hu] at hrecv
  obtain ⟨l, hrecv, rfl, -⟩ := hrecv
  have hresponse := recvResponse_of_ok (g := { g.withLink u with
    is, host := h₁, packets := g.packets ++ [request] }) hrecv
  rw [hrun, Exec.bind_of_ok (sendCmd_plain _ _)]
  exact Exec.bind_of_ok hresponse

end Asks

section Commands

variable {g : Globals Unit} {line : Option Bytes} {arg : Bytes}

theorem asks_quit (hline : lineWords line = (text "q", arg)) :
    Asks g line (text "QUIT\n\n") (pure false) g.host := by
  refine ⟨fun u => ?_, rfl, .pure grows_path false⟩
  obtain ⟨is, hround⟩ := round_command (g := g.withLink u) (t := .plain) hline (by decide)
  have hdispatch : dispatch .plain (text "q") arg = cmdQuit .plain >>= fun _ => pure false := rfl
  rw [hdispatch, cmdQuit, bind_assoc] at hround
  exact ⟨is, hround⟩

theorem asks_list (hline : lineWords line = (text "rls", arg)) :
    Asks g line (text "LIST\n\n") (recvList .plain >>= fun _ => pure true) g.host := by
  refine ⟨fun u => ?_, rfl, .bind grows_path recvList_packets.grows fun _ => .pure grows_path true⟩
  obtain ⟨is, hround⟩ := round_command (g := g.withLink u) (t := .plain) hline (by decide)
  have hdispatch : dispatch .plain (text "rls") arg = cmdRemoteList .plain >>= fun _ => pure true := rfl
  rw [hdispatch, cmdRemoteList] at hround
  simp only [bind_assoc] at hround
  exact ⟨is, hround⟩

theorem asks_retr (hline : lineWords line = (text "get", arg)) (hne : arg ≠ []) :
    Asks g line (retrText arg) (recvFile .plain arg >>= fun _ => pure true) g.host := by
  refine ⟨fun u => ?_, rfl, .bind grows_path (recvFile_packets arg).grows fun _ =>
    .pure grows_path true⟩
  obtain ⟨is, hround⟩ := round_command (g := g.withLink u) (t := .plain) hline (by decide)
  rw [dispatch_get, cmdRetr, if_neg hne] at hround
  simp only [bind_assoc] at hround
  exact ⟨is, hround⟩

theorem asks_dele (hline : lineWords line = (text "rm", arg)) (hne : arg ≠ []) :
    Asks g line (deleText arg) (onHost Host.uninitialised >>= fun stale => extract (·.int32 stale) >>=
      fun _ => pure true) g.host := by
  refine ⟨fun u => ?_, rfl, .bind grows_path (onHost_packets _).grows fun _ =>
    .bind grows_path (extract_packets _).grows fun _ => .pure grows_path true⟩
  obtain ⟨is, hround⟩ := round_command (g := g.withLink u) (t := .plain) hline (by decide)
  have hdispatch : dispatch .plain (text "rm") arg = cmdDele .plain arg >>= fun _ => pure true := rfl
  rw [hdispatch, cmdDele, if_neg hne] at hround
  simp only [bind_assoc, pure_bind] at hround
  exact ⟨is, hround⟩

/-- What `put` does behind the header of the reply. -/
def putRest (filepath : Bytes) (size : ℤ) : EStateM Ex (Globals Bytes) Bool :=
  onHost Host.uninitialised >>= fun stale => extract (·.int32 stale) >>= fun response =>
    (if response = Status.ok.code then sendFile .plain filepath size else pure ()) >>= fun _ => pure true

theorem asks_stor (hline : lineWords line = (text "put", arg)) (hne : arg ≠ []) {size : ℤ} {h₁ : Host}
    (hcheck : (checkAndGetFileSize arg).run g.host = .ok (some size) h₁)
    (hstore : h₁.store = g.host.store) :
    Asks g line (storText (lastComponent arg) size) (putRest arg size) h₁ := by
  have hgrows : Grows (putRest arg size) := by
    refine .bind grows_path (onHost_packets _).grows fun stale => ?_
    refine .bind grows_path (extract_packets _).grows fun response => ?_
    exact .bind grows_path (.ite (sendFile_grows arg size) (.pure grows_path ())) fun _ =>
      .pure grows_path true
  refine ⟨fun u => ?_, hstore, hgrows⟩
  obtain ⟨is, hround⟩ := round_command (g := g.withLink u) (t := .plain) hline (by decide)
  have hcheck' := onHost_of_ok (g := { g.withLink u with is }) hcheck
  rw [dispatch_put, cmdStor, if_neg hne, bind_assoc, Exec.bind_of_ok hcheck'] at hround
  simp only [bind_assoc] at hround
  exact ⟨is, hround⟩

theorem putRest_refused (filepath : Bytes) (size : ℤ) {status : Status} (hstatus : status ≠ .ok)
    {v : Globals Bytes} (his : v.is = { rest := status.reply }) :
    (putRest filepath size).run v = .ok true (v.recalled { rest := [10, 10] }) := by
  have hread : ∀ old, v.is.int32 old = ((status.code : ℤ), { rest := [10, 10] }) := by
    rw [his]
    exact int32_reply status
  have hne : (status.code : ℤ) ≠ Status.ok.code := by
    cases status <;> first | exact absurd rfl hstatus | decide
  unfold putRest
  rw [number_bind (f := (·.int32 ·)) hread, if_neg hne]
  rfl

/-- **A file is sent.** -/
theorem putRest_sends {filepath content : Bytes} (hsize : content.length ≤ maxFileSize)
    {v : Globals Bytes} (his : v.is = { rest := Status.ok.reply }) (hw : v.host.Willing) {p : Path}
    (hfile : v.host.store.reads filepath = some (p, .file content)) :
    ∃ v' ps, (putRest filepath content.length).run v = .ok true v' ∧ v'.link = v.link ∧
      v'.packets = v.packets ++ ps ∧ ps.flatten = content ∧ v'.host.store = v.host.store := by
  have hread : ∀ old, v.is.int32 old = ((Status.ok.code : ℤ), { rest := [10, 10] }) := by
    rw [his]
    exact int32_reply .ok
  have hopen := Host.run_openIn filepath v.host.recalled
  have hopened : v.host.recalled.tries (v.host.recalled.store.reads filepath) = some (p, .file content) := by
    rw [hw.recalled.tries]
    exact hfile
  rw [hopened] at hopen
  obtain ⟨h', hw', hstore, hopen⟩ : ∃ h' : Host, h'.Willing ∧ h'.store = v.host.store ∧
      (Host.openIn filepath).run v.host.recalled = .ok (some (.file content)) h' :=
    ⟨_, hw.recalled.called .openIn (some (p, some (.file content), v.host.store)), rfl, hopen⟩
  have hsend := sendFile_opens .plain (g := v.recalled { rest := [10, 10] }) filepath content.length hopen
  dsimp only at hsend
  rw [sendLoop_plain] at hsend
  have hreadable : readableOf h' (.file content) = content := by
    rw [hw'.readableOf, Host.contents_file _ hsize]
  have hrun : (putRest filepath content.length).run v = .ok true { v.recalled { rest := [10, 10] } with
      host := h'.limited
      packets := v.packets ++ putFragments h' (.file content) content.length } := by
    unfold putRest
    rw [number_bind (f := (·.int32 ·)) hread, if_pos rfl]
    exact Exec.bind_of_ok hsend
  refine ⟨_, _, hrun, rfl, rfl, ?_, hstore⟩
  rw [putFragments, hreadable]
  exact fragments_flatten _ (by rw [List.length_map, List.length_range]) (le_refl _) rfl

end Commands

/-! ### Errands -/

/-- A client that waits for a line, on a tidy system that refuses nothing. -/
structure Waiting (g : Globals Unit) : Prop where
  willing : g.host.Willing
  tidy : ClientTidy g.host.store

/-- The files on both sides are `m'`, or a command has begun to make them so. -/
abbrev Halfway (m : Mirror.Pair Path Name Bytes) (line : Option Bytes)
    (m' : Mirror.Pair Path Name Bytes) : Prop :=
  Mirror.Cut sendable (· <+: ·) m [asked line] m'

/-- A line that sends a request, which the server answers without reading anything behind it. -/
structure Errand (g : Globals Unit) (c : Client Unit) (line : Option Bytes) (request : Bytes)
    (reply : List Bytes) (more : Bool) (c₁ : Client Unit) : Prop where
  serves : ∀ y, (iteration .plain).run (c.withLink (request ++ y)) = .ok more (c₁.withLink y)
  ready : Ready c₁
  packets : c₁.packets = c.packets ++ reply
  cut : ∀ u, u <+: reply.flatten → u ≠ reply.flatten →
    ∃ e g', (round .plain line).run (g.withLink u) = .error e g' ∧
      g'.packets = g.packets ++ [request] ∧
      Halfway (view g.host.store c.host.store) line (view g'.host.store c₁.host.store)
  goes : ∀ u, ∃ g₁ : Globals Unit,
    (round .plain line).run (g.withLink (reply.flatten ++ u)) = .ok more (g₁.withLink u) ∧
      g₁.packets = g.packets ++ [request] ∧ ClientTidy g₁.host.store ∧
      view g₁.host.store c₁.host.store
        = Mirror.step sendable (view g.host.store c.host.store) (asked line)

namespace Errand

variable {g : Globals Unit} {c c₁ : Client Unit} {line : Option Bytes} {request : Bytes}
  {next : EStateM Ex (Globals Bytes) Bool} {h₁ : Host} {more : Bool}

/-- **A reply without a body.** -/
theorem of_status (hasks : Asks g line request next h₁) (htidy : ClientTidy g.host.store)
    {status : Status}
    (hserves : ∀ y, (iteration .plain).run (c.withLink (request ++ y)) = .ok more (c₁.withLink y))
    (hready : Ready c₁) (hpackets : c₁.packets = c.packets ++ [status.reply])
    (hview : view g.host.store c₁.host.store
      = Mirror.step sendable (view g.host.store c.host.store) (asked line))
    (hnext : ∀ v : Globals Bytes, v.is = { rest := status.reply } → v.host = h₁ →
      ∃ v', next.run v = .ok more v' ∧ v'.link = v.link ∧ v'.packets = v.packets ∧
        v'.host.store = v.host.store) :
    Errand g c line request [status.reply] more c₁ := by
  have hflat : [status.reply].flatten = status.reply := List.flatten_singleton
  refine ⟨hserves, hready, hpackets, fun u hu hne => ?_, fun u => ?_⟩
  · rw [hflat] at hu hne
    have hall := Transport.scanHeader_reply status []
    rw [List.append_nil] at hall
    obtain ⟨e, g', hrun, hsent, hstore⟩ := hasks.waits (Transport.scanHeader_part hall hu hne)
    refine ⟨e, g', hrun, hsent, ?_⟩
    rw [hstore, hview]
    exact .one _ []
  · obtain ⟨v', hrun, hlink, hsent, hstore⟩ := hnext { g.withLink u with
      is := { rest := status.reply }, host := h₁, packets := g.packets ++ [request] } rfl rfl
    have hlater : v'.host.store = g.host.store := hstore.trans hasks.store
    have hrest : v'.link = u := hlink
    refine ⟨v'.withLink (), ?_, hsent, ?_, ?_⟩
    · rw [hflat, hasks.goes (Transport.scanHeader_reply status u), hrun, ← hrest]
      rfl
    · show ClientTidy v'.host.store
      rw [hlater]
      exact htidy
    · show view v'.host.store _ = _
      rw [hlater, hview]

/-- **A reply with a body.** -/
theorem of_sized (hasks : Asks g line request next h₁) {size : ℤ} (hsize : size.natAbs < 10 ^ 20)
    {body : List Bytes}
    (hserves : ∀ y, (iteration .plain).run (c.withLink (request ++ y)) = .ok more (c₁.withLink y))
    (hready : Ready c₁) (hpackets : c₁.packets = c.packets ++ (sizeReply size :: body))
    (hview : view g.host.store c₁.host.store = view g.host.store c.host.store)
    (hcut : ∀ v : Globals Bytes, v.is = { rest := sizeReply size } → v.host = h₁ →
      v.link <+: body.flatten → v.link ≠ body.flatten →
      ∃ e v', next.run v = .error e v' ∧ v'.packets = v.packets ∧
        Halfway (view g.host.store c.host.store) line (view v'.host.store c₁.host.store))
    (hgoes : ∀ (v : Globals Bytes) (s : Bytes), v.is = { rest := sizeReply size } → v.host = h₁ →
      v.link = body.flatten ++ s →
      ∃ v', next.run v = .ok more v' ∧ v'.link = s ∧ v'.packets = v.packets ∧
        ClientTidy v'.host.store ∧ view v'.host.store c₁.host.store
          = Mirror.step sendable (view g.host.store c.host.store) (asked line)) :
    Errand g c line request (sizeReply size :: body) more c₁ := by
  have hflat : (sizeReply size :: body).flatten = sizeReply size ++ body.flatten := rfl
  refine ⟨hserves, hready, hpackets, fun u hu hne => ?_, fun u => ?_⟩
  · rw [hflat] at hu hne
    rcases Trips.part_or_rest hu (List.prefix_append _ _) with ⟨hpart, hpartne⟩ | ⟨s, rfl⟩
    · have hall := Transport.scanHeader_sizeReply hsize []
      rw [List.append_nil] at hall
      obtain ⟨e, g', hrun, hsent, hstore⟩ :=
        hasks.waits (Transport.scanHeader_part hall hpart hpartne)
      refine ⟨e, g', hrun, hsent, ?_⟩
      rw [hstore, hview]
      exact .nothing _
    · have hs := (List.prefix_append_right_inj _).mp hu
      obtain ⟨e, v', hrun, hsent, hhalf⟩ := hcut { g.withLink s with
        is := { rest := sizeReply size }, host := h₁, packets := g.packets ++ [request] } rfl rfl hs
        fun heq => hne (congrArg (sizeReply size ++ ·) heq)
      refine ⟨e, v', ?_, hsent, hhalf⟩
      rw [hasks.goes (Transport.scanHeader_sizeReply hsize s), hrun]
  · obtain ⟨v', hrun, hlink, hsent, htidy, hfiles⟩ := hgoes { g.withLink (body.flatten ++ u) with
      is := { rest := sizeReply size }, host := h₁, packets := g.packets ++ [request] } u rfl rfl rfl
    refine ⟨v'.withLink (), ?_, hsent, htidy, hfiles⟩
    rw [hflat, List.append_assoc, hasks.goes (Transport.scanHeader_sizeReply hsize _), hrun, ← hlink]
    rfl

end Errand

/-- A line that sends a file, after a request that the server accepts. -/
structure Upload (g : Globals Unit) (c : Client Unit) (line : Option Bytes) (request : Bytes)
    (name : Name) (content : Bytes) (c₁ : Client Unit) : Prop where
  serves : ∀ y, (iteration .plain).run (c.withLink (request ++ (content ++ y)))
    = .ok true (c₁.withLink y)
  ready : Ready c₁
  packets : c₁.packets = c.packets ++ [Status.ok.reply]
  stored : c₁.host.store = c.host.store.set (keptAt name) (.file content)
  replies : ∀ y, (Exec.endState ((iteration .plain).run (c.withLink (request ++ y)))).packets
    = c.packets ++ [Status.ok.reply]
  part : ∀ y, y <+: content → y ≠ content →
    ∃ e d, (iteration .plain).run (c.withLink (request ++ y)) = .error e d ∧
      d.packets = c.packets ++ [Status.ok.reply] ∧
      d.host.store = c.host.store.set (keptAt name) (.file y)
  cut : ∀ u, u <+: Status.ok.reply → u ≠ Status.ok.reply →
    ∃ e g', (round .plain line).run (g.withLink u) = .error e g' ∧
      g'.packets = g.packets ++ [request] ∧ g'.host.store = g.host.store
  goes : ∀ u, ∃ g₁ : Globals Unit,
    (round .plain line).run (g.withLink (Status.ok.reply ++ u)) = .ok true (g₁.withLink u) ∧
      g₁.packets.flatten = g.packets.flatten ++ (request ++ content) ∧
      g₁.host.store = g.host.store

/-! ### The commands -/

section Commands

variable {g : Globals Unit} {c : Client Unit} {line : Option Bytes} {arg : Bytes} (h : Ready c)
  (w : Waiting g)

include h w

theorem errand_quit (hline : lineWords line = (text "q", arg)) :
    ∃ c₁, Errand g c line (text "QUIT\n\n") [Status.ok.reply] false c₁ := by
  obtain ⟨c₁, hserves, hos, hpackets, hhost⟩ := quit_answers h.os
  have hready : Ready c₁ := ⟨hos, hhost ▸ h.willing, hhost ▸ h.tidy⟩
  refine ⟨c₁, .of_status (asks_quit hline) w.tidy hserves hready hpackets ?_
    fun v _ _ => ⟨v, rfl, rfl, rfl, rfl⟩⟩
  rw [hhost, asked_of_line hline, command_other (by decide) (by decide) (by decide)]
  rfl

/-- A listing, if it fits into a packet. -/
theorem errand_list (hline : lineWords line = (text "rls", arg)) {y : Bytes}
    (hfits : ∀ p ∈ (Exec.endState ((iteration .plain).run
      (c.withLink (text "LIST\n\n" ++ y)))).packets, p.length ≤ bufferSize) :
    ∃ reply c₁, Errand g c line (text "LIST\n\n") reply true c₁ := by
  obtain ⟨c₁, hanswers, hstore⟩ := list_answers h.os
  have hready := h.of_answers hanswers (hstore ▸ h.tidy)
  have hasked : asked line = .other := by
    rw [asked_of_line hline, command_other (by decide) (by decide) (by decide)]
  have hasks := asks_list (g := g) hline
  have hview : view g.host.store c₁.host.store = view g.host.store c.host.store := by rw [hstore]
  have hsame : ∀ {v v' : Globals Bytes}, v.host = g.host → v'.host.store = v.host.store →
      view v'.host.store c₁.host.store = view g.host.store c.host.store := by
    intro v v' hhost hlater
    rw [hlater, hhost, hview]
  rw [hanswers.run y] at hfits
  cases hlists : lists c.host with
  | none =>
    rw [hlists] at hanswers
    refine ⟨_, c₁, .of_status hasks w.tidy hanswers.run hready hanswers.packets ?_ fun v his _ => ?_⟩
    · rw [hview, hasked]
      rfl
    · exact ⟨_, Exec.bind_of_ok (recvList_refused (by decide) his), rfl, rfl, rfl⟩
  | some names =>
    rw [hlists] at hanswers
    have hb : bufferSize = 4096 := rfl
    have hlen : (listing names).length ≤ bufferSize := by
      by_cases hnil : listing names = []
      · rw [hnil]
        exact Nat.zero_le _
      · refine hfits _ ?_
        show _ ∈ c₁.packets
        rw [hanswers.packets, listPackets, packetsOf_of_ne hnil]
        simp
    have hpackets := hanswers.packets
    rw [listPackets, show (((listing names).length : ℤ) % 2 ^ 64) = (listing names).length by omega]
      at hpackets
    have hflat := packetsOf_flatten (listing names)
    have hrecv : ∀ v : Globals Bytes, v.is = { rest := sizeReply (listing names).length } →
        _ := fun v his => recvList_plain (by omega) (by omega) his
    refine ⟨_, c₁, .of_sized hasks (by omega) hanswers.run hready
      hpackets hview (fun v his hhost hpart hne => ?_) fun v s his hhost hlink => ?_⟩
    · rw [hflat] at hpart hne
      have hlt : v.link.length < (listing names).length :=
        lt_of_le_of_ne hpart.length_le fun hlen => hne (hpart.eq_of_length hlen)
      have hends := hrecv v his
      rw [if_neg (by omega)] at hends
      obtain ⟨e, v', hrun, hsent, hlater⟩ := hends
      refine ⟨e, v', Exec.bind_of_error hrun, hsent, ?_⟩
      rw [hsame hhost hlater]
      exact .nothing _
    · rw [hflat] at hlink
      have hends := hrecv v his
      rw [if_pos (by rw [hlink, List.length_append]; omega)] at hends
      obtain ⟨v', hrun, hrest, hsent, hlater⟩ := hends
      refine ⟨v', Exec.bind_of_ok hrun, ?_, hsent, ?_, ?_⟩
      · rw [hrest, hlink, Int.toNat_natCast, List.drop_left]
      · rw [hlater, hhost]
        exact w.tidy
      · rw [hsame hhost hlater, hasked]
        rfl

/-- A removal. -/
theorem errand_dele (hline : lineWords line = (text "rm", arg)) (hne : arg ≠ []) (hzero : (0 : Byte) ∉ arg)
    (hshort : arg.length + 25 < bufferSize) :
    ∃ reply c₁, Errand g c line (deleText arg) reply true c₁ := by
  obtain ⟨c₁, hanswers, hhost⟩ := dele_answers h.os (word_of_line hline) hne (deleText_fits hshort)
  rw [upToZero_of_nonzero hzero] at hhost
  generalize (deleted c.host (upToZero arg)).1 = status at hanswers
  obtain ⟨htidy, hview⟩ := view_deleted h.willing h.tidy hne g.host.store
  rw [← hhost] at htidy hview
  refine ⟨_, c₁, .of_status (asks_dele hline hne) w.tidy hanswers.run
    (h.of_answers hanswers htidy) hanswers.packets ?_ fun v his _ => ?_⟩
  · rw [hview, asked_of_line hline, command_rm]
  · have hstatus : ∀ old, v.is.int32 old = ((status.code : ℤ), { rest := [10, 10] }) := by
      rw [his]
      exact int32_reply status
    refine ⟨v.recalled { rest := [10, 10] }, ?_, rfl, rfl, rfl⟩
    rw [number_bind (f := (·.int32 ·)) hstatus]
    rfl

/-- A download that is refused. -/
theorem errand_refused (hline : lineWords line = (text "get", arg)) (hne : arg ≠ [])
    (hzero : (0 : Byte) ∉ arg) (hshort : arg.length + 25 < bufferSize)
    (hnone : (opened c.host arg).1 = none)
    (hsame : Mirror.step sendable (view g.host.store c.host.store) (asked line)
      = view g.host.store c.host.store) :
    ∃ reply c₁, Errand g c line (retrText arg) reply true c₁ := by
  rw [← upToZero_of_nonzero hzero] at hnone
  obtain ⟨c₁, hanswers, hhost⟩ := ServerClient.retr_refused h.os (word_of_line hline) hne
    (retrText_fits hshort) hnone
  have hstore : c₁.host.store = c.host.store := by rw [hhost, opened_store]
  refine ⟨_, c₁, .of_status (asks_retr hline hne) w.tidy hanswers.run
    (h.of_answers hanswers (hstore ▸ h.tidy)) hanswers.packets ?_ fun v his _ => ?_⟩
  · rw [hstore, hsame]
  · exact ⟨_, Exec.bind_of_ok (recvFile_refused (by decide) his arg), rfl, rfl, rfl⟩

/-- **A download.** -/
theorem errand_retr (hline : lineWords line = (text "get", arg)) (hzero : (0 : Byte) ∉ arg)
    (hshort : arg.length + 25 < bufferSize) (hserved : Served arg) {content : Bytes}
    (hfile : fileAt c.host.store (keptAt arg) = some content) :
    ∃ reply c₁, Errand g c line (retrText arg) reply true c₁ := by
  have hsendable := h.tidy.sizes arg content hfile
  have hsize := sendable_iff.mp hsendable
  have hmax : maxFileSize = 4294967296 := rfl
  have hopened := opened_of_file h.willing h.tidy hserved hfile
  rw [← upToZero_of_nonzero hzero] at hopened
  obtain ⟨c₁, hanswers, hhost⟩ := retr_answers h.os (word_of_line hline) hserved.ne_nil
    (retrText_fits hshort) (congrArg Prod.fst hopened)
  rw [upToZero_of_nonzero hzero] at hopened hanswers hhost
  rw [hopened] at hanswers hhost
  have hw := h.willing.called .openIn (some (keptAt arg, some (.file content), c.host.store))
  have hpackets := hanswers.packets
  rw [hw.readableOf, Host.contents_file _ hsize] at hpackets
  have hstore : c₁.host.store = c.host.store := by
    rw [hhost]
    rfl
  have hshelf : (view g.host.store c.host.store).shelf arg = some content := hfile
  have hasked : asked line = .get arg (fetchedAt arg) := by
    rw [asked_of_line hline, command_get, if_pos hserved]
  have hflat := bodyPackets_flatten content
  -- what the client makes of a part of the file, and of the whole
  have hrecv : ∀ v : Globals Bytes, v.is = { rest := sizeReply content.length } → v.host = g.host →
      _ := fun v his hhost => recvFile_plain (by omega) (by omega) his
        (by rw [hhost]; exact w.willing) (by rw [hhost]; exact w.tidy) hserved
  refine ⟨_, c₁, .of_sized (asks_retr hline hserved.ne_nil) (by omega)
    hanswers.run (h.of_answers hanswers (hstore ▸ h.tidy)) hpackets (by rw [hstore])
    (fun v his hhost hpart hne => ?_) fun v s his hhost hlink => ?_⟩
  · rw [hflat] at hpart hne
    have hlt : v.link.length < content.length :=
      lt_of_le_of_ne hpart.length_le fun hlen => hne (hpart.eq_of_length hlen)
    have hends := hrecv v his hhost
    rw [if_neg (by omega)] at hends
    obtain ⟨e, v', hrun, hsent, hlater⟩ := hends
    refine ⟨e, v', Exec.bind_of_error hrun, hsent, ?_⟩
    rw [hlater, hhost, hstore, view_set_client]
    exact .begun (hasked ▸ .get hshelf hpart) []
  · rw [hflat] at hlink
    have hends := hrecv v his hhost
    rw [if_pos (by rw [hlink, List.length_append]; omega)] at hends
    obtain ⟨v', hrun, hrest, hsent, hlater⟩ := hends
    have htaken : v.link.take (content.length : ℤ).toNat = content := by
      rw [hlink, Int.toNat_natCast, List.take_left]
    rw [htaken, hhost] at hlater
    refine ⟨v', Exec.bind_of_ok hrun, ?_, hsent, ?_, ?_⟩
    · rw [hrest, hlink, Int.toNat_natCast, List.drop_left]
    · rw [hlater]
      exact w.tidy.set hsendable
    · rw [hlater, hstore, view_set_client, hasked, Mirror.step_get hshelf]
      rfl

/-- An upload that is refused. -/
theorem errand_stor_refused (hline : lineWords line = (text "put", arg)) (hne : arg ≠ [])
    (hshort : arg.length + 25 < bufferSize) {content : Bytes}
    (hreads : g.host.store.reads arg = some (below arg, .file content))
    (hsendable : sendable content = true) (hserved : ¬ Served (lastComponent arg)) :
    ∃ reply c₁, Errand g c line (storText (lastComponent arg) content.length) reply true c₁ := by
  have hsize := sendable_iff.mp hsendable
  have hlength := lastComponent_length arg
  have hfits : (storText (lastComponent arg) content.length).length < bufferSize :=
    storText_fits (by omega) (Int.natCast_nonneg _) hsize
  obtain ⟨h₁, hcheck, -, hsame⟩ := checkAndGetFileSize_file w.willing hreads hsize
  obtain ⟨status, c₁, hstatus, hanswers, hstore⟩ := ServerClient.stor_refused h.os
    (word_of_line hline).lastComponent (by omega) hsize hfits (destination_of_not_served hserved)
  refine ⟨_, c₁, .of_status (asks_stor hline hne hcheck hsame) w.tidy hanswers.run
    (h.of_answers hanswers (hstore ▸ h.tidy)) hanswers.packets ?_ fun v his _ => ?_⟩
  · rw [hstore, asked_of_line hline, command_put, if_neg hserved]
    rfl
  · exact ⟨_, putRest_refused arg _ hstatus his, rfl, rfl, rfl⟩

/-- **An upload.** -/
theorem upload (hline : lineWords line = (text "put", arg)) (hshort : arg.length + 25 < bufferSize)
    {content : Bytes} (hreads : g.host.store.reads arg = some (below arg, .file content))
    (hsendable : sendable content = true) (hserved : Served (lastComponent arg)) :
    ∃ c₁, Upload g c line (storText (lastComponent arg) content.length) (lastComponent arg) content
      c₁ := by
  have hsize := sendable_iff.mp hsendable
  have hlength := lastComponent_length arg
  have hname := (word_of_line hline).lastComponent
  have hfits : (storText (lastComponent arg) content.length).length < bufferSize :=
    storText_fits (by omega) (Int.natCast_nonneg _) hsize
  have hj : (Job.stor (lastComponent arg) content).Formed := ⟨hfits, hname, hsendable⟩
  have hne : arg ≠ [] := by
    rintro rfl
    exact hserved.ne_nil rfl
  obtain ⟨h₁, hcheck, hw, hsame⟩ := checkAndGetFileSize_file w.willing hreads hsize
  have hasks := asks_stor hline hne hcheck hsame
  have hlen : content.length = (content.length : ℤ).toNat := rfl
  have hanswers := stor_stored h.os hname (by omega) hsize hfits (h.destination_served hserved) hlen
  have hstored := h.stored hserved content
  refine ⟨_, fun y => ?_, h.of_answers hanswers (hstored ▸ h.tidy.set hsendable), hanswers.packets,
    hstored, fun y => (h.file_answered hj hserved y).1,
    fun y hpart hne => h.file_waits hj hserved hpart hne, fun u hu hune => ?_, fun u => ?_⟩
  · rw [← List.append_assoc]
    exact hanswers.run y
  · have hall := Transport.scanHeader_reply .ok []
    rw [List.append_nil] at hall
    exact hasks.waits (Transport.scanHeader_part hall hu hune)
  · have hagain : h₁.store.reads arg = some (below arg, .file content) := hsame ▸ hreads
    obtain ⟨v', ps, hrun, hlink, hsent, hflat, hlater⟩ := putRest_sends hsize
      (v := { g.withLink u with
        is := { rest := Status.ok.reply }, host := h₁
        packets := g.packets ++ [storText (lastComponent arg) content.length] }) rfl hw hagain
    have hrest : v'.link = u := hlink
    refine ⟨v'.withLink (), ?_, ?_, hlater.trans hsame⟩
    · rw [hasks.goes (Transport.scanHeader_reply .ok u), hrun, ← hrest]
      rfl
    · show v'.packets.flatten = _
      rw [hsent, List.flatten_append, List.flatten_append, List.flatten_singleton, hflat,
        List.append_assoc]

end Commands

/-! ### Lines -/

/-- A line with words that leave room in a header, no `put` of a path that goes up or begins elsewhere,
and no `get` of a directory that is always there. -/
structure Orderly (strCmd arg : Bytes) : Prop where
  nonzero : (0 : Byte) ∉ arg
  short : arg.length + 25 < bufferSize
  direct : strCmd = text "put" → Direct arg
  child : strCmd = text "get" → arg ≠ dot ∧ arg ≠ dotDot

/-- A line that sends nothing, and asks for nothing. -/
structure Stays (g : Globals Unit) (line : Option Bytes) : Prop where
  run : ∀ u, ∃ g₁ : Globals Unit, (round .plain line).run (g.withLink u) = .ok true (g₁.withLink u) ∧
    g₁.packets = g.packets ∧ g₁.host.store = g.host.store
  idle : Mirror.Idle sendable (fileAt g.host.store) (asked line)

/-- A line that sends a request. -/
inductive Sends (g : Globals Unit) (line : Option Bytes) : Bytes → Prop
  | quit {arg : Bytes} (hline : lineWords line = (text "q", arg)) : Sends g line (text "QUIT\n\n")
  | list {arg : Bytes} (hline : lineWords line = (text "rls", arg)) : Sends g line (text "LIST\n\n")
  | retr {name : Bytes} (hline : lineWords line = (text "get", name)) (hne : name ≠ []) :
      Sends g line (retrText name)
  | dele {name : Bytes} (hline : lineWords line = (text "rm", name)) (hne : name ≠ []) :
      Sends g line (deleText name)
  | stor {path content : Bytes} (hline : lineWords line = (text "put", path)) (hne : path ≠ [])
      (hreads : g.host.store.reads path = some (below path, .file content))
      (hsendable : sendable content = true) : Sends g line (storText (lastComponent path) content.length)

section Lines

variable {g : Globals Unit} {line : Option Bytes}

theorem Stays.of_dispatch {strCmd arg : Bytes} (hline : lineWords line = (strCmd, arg))
    (hrun : ∀ v : Globals Bytes, v.host = g.host →
      ∃ v', (dispatch .plain strCmd arg).run v = .ok true v' ∧ v'.link = v.link ∧
        v'.packets = v.packets ∧ v'.host.store = v.host.store)
    (hidle : Mirror.Idle sendable (fileAt g.host.store) (asked line)) : Stays g line := by
  refine ⟨fun u => ?_, hidle⟩
  have hround := round_line .plain line (g.withLink u)
  rw [hline] at hround
  split at hround
  · exact ⟨{ g with is := { rest := line.getD (text "q") } }, hround, rfl, rfl⟩
  · obtain ⟨v', hrun, hlink, hsent, hstore⟩ := hrun { g.withLink u with
      is := ((({ rest := line.getD (text "q") } : IStream).word []).2.word []).2 } rfl
    have hrest : v'.link = u := hlink
    refine ⟨v'.withLink (), ?_, hsent, hstore⟩
    rw [hround, hrun, ← hrest]
    rfl

/-- A `put` of what cannot be sent. -/
theorem stays_put (w : Waiting g) {path : Bytes} (hline : lineWords line = (text "put", path))
    (hne : path ≠ []) (horderly : Orderly (text "put") path) {h₁ : Host}
    (hcheck : (checkAndGetFileSize path).run g.host = .ok none h₁) : Stays g line := by
  have hstore : h₁.store = g.host.store := by
    have hkeeps := checkAndGetFileSize_keeps (Host.quiet_store (· = g.host.store)) path g.host rfl
    rwa [hcheck] at hkeeps
  refine .of_dispatch hline (fun v hhost => ⟨{ v with host := h₁ }, ?_, rfl, rfl, ?_⟩) ?_
  · have hcheck' : (onHost (checkAndGetFileSize path)).run v = .ok none { v with host := h₁ } :=
      onHost_of_ok (hhost ▸ hcheck)
    rw [dispatch_put, cmdStor, if_neg hne, bind_assoc, Exec.bind_of_ok hcheck']
    rfl
  · rw [hhost]
    exact hstore
  · intro shelf
    rw [asked_of_line hline, command_put]
    split
    · rename_i hserved
      refine Mirror.step_put_none (fun content hfile => ?_) _
      by_contra hsendable
      have hsome : sendable content = true := by simpa using hsendable
      obtain ⟨h', hsize, -, -⟩ := checkAndGetFileSize_file w.willing
        (reads_of_file w.tidy (horderly.direct rfl) (proper_of_served horderly.nonzero hserved) hfile)
        (sendable_iff.mp hsome)
      rw [hcheck] at hsize
      cases hsize
    · rfl

/-- A command that does nothing. -/
theorem stays_idle {strCmd arg : Bytes} (hline : lineWords line = (strCmd, arg))
    (hrun : ∀ v : Globals Bytes, (dispatch .plain strCmd arg).run v = .ok true v)
    (hother : command strCmd arg = .other) : Stays g line := by
  refine .of_dispatch hline (fun v _ => ⟨v, hrun v, rfl, rfl, rfl⟩) fun shelf => ?_
  rw [asked_of_line hline, hother]
  rfl

/-- `lls` looks at the client's own files. -/
theorem stays_lls {arg : Bytes} (hline : lineWords line = (text "lls", arg)) : Stays g line := by
  refine .of_dispatch hline (fun v _ => ?_) fun shelf => ?_
  · obtain ⟨_, v', hrun⟩ := cmdLocalList_returns (τ := Bytes) arg v
    obtain ⟨hlink, hsent⟩ := Prod.mk.inj ((cmdLocalList_aside arg).of_ok hrun)
    have hstore := cmdLocalList_keeps (Host.quiet_store (· = v.host.store)) arg v rfl
    rw [hrun] at hstore
    refine ⟨v', ?_, hlink, hsent, hstore⟩
    have hdispatch : dispatch .plain (text "lls") arg = cmdLocalList arg >>= fun _ => pure true := rfl
    rw [hdispatch]
    exact Exec.bind_of_ok hrun
  · rw [asked_of_line hline, command_other (by decide) (by decide) (by decide)]
    rfl

/-- **A line sends a request or stays.** -/
theorem stays_or_sends (w : Waiting g) {line : Option Bytes}
    (horderly : Orderly (lineWords line).1 (lineWords line).2) :
    Stays g line ∨ ∃ request, Sends g line request := by
  rcases hline : lineWords line with ⟨strCmd, arg⟩
  rw [hline] at horderly
  by_cases hq : strCmd = text "q"
  · exact .inr ⟨_, .quit (hq ▸ hline)⟩
  by_cases hrls : strCmd = text "rls"
  · exact .inr ⟨_, .list (hrls ▸ hline)⟩
  by_cases hlls : strCmd = text "lls"
  · exact .inl (stays_lls (hlls ▸ hline))
  by_cases hget : strCmd = text "get"
  · subst hget
    by_cases hne : arg = []
    · subst hne
      exact .inl (stays_idle hline (fun _ => rfl) (by decide))
    · exact .inr ⟨_, .retr hline hne⟩
  by_cases hrm : strCmd = text "rm"
  · subst hrm
    by_cases hne : arg = []
    · subst hne
      exact .inl (stays_idle hline (fun _ => rfl) (by decide))
    · exact .inr ⟨_, .dele hline hne⟩
  by_cases hput : strCmd = text "put"
  · subst hput
    by_cases hne : arg = []
    · subst hne
      exact .inl (stays_idle hline (fun _ => rfl) (by decide))
    obtain ⟨r, h₁, hcheck, -⟩ := run_checkAndGetFileSize arg g.host
    cases r with
    | none => exact .inl (stays_put w hline hne horderly hcheck)
    | some size =>
      obtain ⟨content, -, hsendable, -, hreads⟩ := checkAndGetFileSize_some w.willing w.tidy
        (horderly.direct rfl) hcheck
      exact .inr ⟨_, .stor hline hne hreads hsendable⟩
  -- any other word is not a command
  refine .inl (stays_idle hline (fun v => ?_) (command_other hput hget hrm))
  rw [dispatch, if_neg hq, if_neg hlls, if_neg hrls, if_neg hget, if_neg hput, if_neg hrm]
  rfl

namespace Sends

variable {request : Bytes}

theorem asks (h : Sends g line request) (w : Waiting g) : ∃ next h₁, Asks g line request next h₁ := by
  cases h with
  | quit hline => exact ⟨_, _, asks_quit hline⟩
  | list hline => exact ⟨_, _, asks_list hline⟩
  | retr hline hne => exact ⟨_, _, asks_retr hline hne⟩
  | dele hline hne => exact ⟨_, _, asks_dele hline hne⟩
  | stor hline hne hreads hsendable =>
    obtain ⟨h₁, hcheck, -, hsame⟩ :=
      checkAndGetFileSize_file w.willing hreads (sendable_iff.mp hsendable)
    exact ⟨_, _, asks_stor hline hne hcheck hsame⟩

/-- The request is that of a job. -/
theorem job (h : Sends g line request) (horderly : Orderly (lineWords line).1 (lineWords line).2) :
    ∃ job : Job, job.Formed ∧ job.header.toBytes = request := by
  have hshort := horderly.short
  have hzero := horderly.nonzero
  cases h with
  | quit hline => exact ⟨.quit, by decide, rfl⟩
  | list hline => exact ⟨.list, by decide, rfl⟩
  | @retr name hline hne =>
    rw [hline] at hshort
    exact ⟨.retr name, ⟨retrText_fits hshort, word_of_line hline, hne⟩, rfl⟩
  | @dele name hline hne =>
    rw [hline] at hshort hzero
    exact ⟨.dele name, ⟨deleText_fits hshort, ⟨word_of_line hline, hne⟩, hzero⟩, rfl⟩
  | @stor path content hline hne hreads hsendable =>
    rw [hline] at hshort
    have hroom : path.length + 25 < bufferSize := hshort
    have hlength := lastComponent_length path
    have hfits : (storText (lastComponent path) content.length).length < bufferSize :=
      storText_fits (by omega) (Int.natCast_nonneg _) (sendable_iff.mp hsendable)
    exact ⟨.stor (lastComponent path) content, ⟨hfits, (word_of_line hline).lastComponent, hsendable⟩, rfl⟩

/-- **What becomes of a request** that a server has read, if its packets fit. -/
theorem errand {c : Client Unit} (hsends : Sends g line request) (h : Ready c) (w : Waiting g)
    (horderly : Orderly (lineWords line).1 (lineWords line).2) {y : Bytes}
    (hfits : ∀ p ∈ (Exec.endState ((iteration .plain).run (c.withLink (request ++ y)))).packets,
      p.length ≤ bufferSize) :
    (∃ reply more c₁, Errand g c line request reply more c₁) ∨
      ∃ place name content c₁, Upload g c line request name content c₁ ∧
        asked line = .put place name ∧ fileAt g.host.store place = some content ∧
        sendable content = true := by
  have hshort := horderly.short
  have hzero := horderly.nonzero
  cases hsends with
  | quit hline =>
    obtain ⟨c₁, herrand⟩ := errand_quit h w hline
    exact .inl ⟨_, _, c₁, herrand⟩
  | list hline =>
    obtain ⟨reply, c₁, herrand⟩ := errand_list h w hline hfits
    exact .inl ⟨reply, _, c₁, herrand⟩
  | @retr name hline hne =>
    have hchild := horderly.child
    rw [hline] at hshort hzero hchild
    by_cases hserved : Served name
    · cases hfile : fileAt c.host.store (keptAt name) with
      | some content =>
        obtain ⟨reply, c₁, herrand⟩ := errand_retr h w hline hzero hshort hserved hfile
        exact .inl ⟨reply, _, c₁, herrand⟩
      | none =>
        obtain ⟨reply, c₁, herrand⟩ := errand_refused h w hline hne hzero hshort
          (opened_of_absent h.tidy hserved hfile) (by
            rw [asked_of_line hline, command_get, if_pos hserved]
            exact Mirror.step_get_none hfile _)
        exact .inl ⟨reply, _, c₁, herrand⟩
    · obtain ⟨hdot, hdotDot⟩ := hchild rfl
      obtain ⟨reply, c₁, herrand⟩ := errand_refused h w hline hne hzero hshort (by
          rw [opened, if_pos (not_served hserved hne hdot hdotDot)]) (by
          rw [asked_of_line hline, command_get, if_neg hserved]
          rfl)
      exact .inl ⟨reply, _, c₁, herrand⟩
  | dele hline hne =>
    rw [hline] at hshort hzero
    obtain ⟨reply, c₁, herrand⟩ := errand_dele h w hline hne hzero hshort
    exact .inl ⟨reply, _, c₁, herrand⟩
  | @stor path content hline hne hreads hsendable =>
    have hdirect := horderly.direct
    rw [hline] at hshort hdirect
    by_cases hserved : Served (lastComponent path)
    · obtain ⟨c₁, hupload⟩ := upload h w hline hshort hreads hsendable hserved
      refine .inr ⟨_, _, _, c₁, hupload, ?_, (reads_of_tidy w.tidy (hdirect rfl) hreads).2, hsendable⟩
      rw [asked_of_line hline, command_put, if_pos hserved]
    · obtain ⟨reply, c₁, herrand⟩ :=
        errand_stor_refused h w hline hne hshort hreads hsendable hserved
      exact .inl ⟨reply, _, c₁, herrand⟩

end Sends

end Lines

end ClientMain

end Cybrg
