import Cybrg.Conversation.Copies

/-!
# A session is a shelf

Between tidy systems that refuse nothing, both programs together do to the files what the commands of
a shelf do.

* `Fair` — a line after which the session goes on;
* `Shows` — both programs at the beginning of a request, and the files as the user sees them;
* `put_shows`, `get_shows`, `rm_shows`, `other_shows` — the commands;
* `session_is_shelf` — the files at the end of a session are those of the shelf;
* `backup_restore` — what one session puts on the server another one gets back.
-/

namespace Cybrg

open Octets Streams Files
open ServerClient hiding onLink onHost sendCmd onLink_of_ok onHost_of_ok cmdStor_refused
  cmdRetr_refused dispatch

variable {P : Primitives} {o : ByteOrder}

/-- A later host of a system that refuses nothing. -/
theorem Host.Willing.since {h h' : Host} (hw : h.Willing) (hsince : h.Since h') : h'.Willing := by
  refine ⟨?_, ?_⟩
  · have hsuffix := hsince.faults
    rw [hw.faults] at hsuffix
    exact List.suffix_nil.mp hsuffix
  · have hsuffix := hsince.limits
    rw [hw.limits] at hsuffix
    exact List.suffix_nil.mp hsuffix

namespace ClientMain

variable {k : SessionKeys} {c₀ c : ServerClient.Client Unit} {g : Globals Talk}

/-- **The system of the server** refuses nothing if it did not at the beginning. -/
theorem AtPrompt.willing (h : AtPrompt P o k c₀ c g) (hw : c₀.host.Willing) : c.host.Willing := by
  obtain ⟨r, -, hrounds⟩ := h.settled.rounds
  have hlater := ServerClient.Loop.after_later .plain r ⟨true, c₀.withLink g.packets.flatten⟩
  rw [hrounds] at hlater
  exact hw.since hlater

/-! ### Lines -/

/-- A line after which the session goes on: it does not end it, its words leave room in a header, the
path of a `put` begins in the working directory and does not go up, a `get` names no directory that is
always there, a listing fits into a packet, and there are numbers for the packets of the longest
file. -/
structure Fair (server : Host) (sent replied : ℕ) (strCmd arg : Bytes) : Prop where
  stays : strCmd ≠ text "q"
  nonzero : (0 : Byte) ∉ arg
  short : arg.length + 25 < bufferSize
  direct : strCmd = text "put" → Direct arg
  child : strCmd = text "get" → arg ≠ dot ∧ arg ≠ dotDot
  listing : strCmd = text "rls" →
    ∀ names, lists server = some names → (listing names).length ≤ bufferSize
  room : Room sent replied (2 ^ 20 + 1) (2 ^ 20 + 2)

/-- Both programs are at the beginning of a request, and the user sees these files. -/
structure Shows (P : Primitives) (o : ByteOrder) (k : SessionKeys)
    (c₀ c : ServerClient.Client Unit) (m : Mirror.Pair Path Name Bytes) (g : Globals Talk) : Prop where
  atPrompt : AtPrompt P o k c₀ c g
  willing : c₀.host.Willing
  clientWilling : g.host.Willing
  serverTidy : ServerTidy c.host.store
  clientTidy : ClientTidy g.host.store
  view : view g.host.store c.host.store = m

/-- After the line both programs are at the beginning of a request, and have these files. -/
def LeadsTo (P : Primitives) (o : ByteOrder) (k : SessionKeys) (c₀ : ServerClient.Client Unit)
    (line : Option Bytes) (g : Globals Talk) (server client : Store) : Prop :=
  ∃ c₁ g', (round (.talk P o) line).run g = .ok true g' ∧ AtPrompt P o k c₀ c₁ g' ∧
    c₁.host.store = server ∧ g'.host.store = client

theorem word_of_line {line : Option Bytes} {strCmd arg : Bytes}
    (hline : lineWords line = (strCmd, arg)) : Word arg := by
  have hw := IStream.word_word (({ rest := line.getD (text "q") } : IStream).word []).2
  rwa [show _ = arg from (Prod.mk.inj hline).2] at hw

theorem ne_of_line {line : Option Bytes} {strCmd arg cmd : Bytes}
    (hline : lineWords line = (strCmd, arg)) (hne : strCmd ≠ cmd) : (lineWords line).1 ≠ cmd := by
  rw [hline]
  exact hne

/-- A line without a `get`, by what it does to the server. -/
theorem LeadsTo.of_server {line : Option Bytes} (hget : (lineWords line).1 ≠ text "get")
    {c₁ : ServerClient.Client Unit} {g' : Globals Talk}
    (hrun : (round (.talk P o) line).run g = .ok true g') (hprompt : AtPrompt P o k c₀ c₁ g') :
    LeadsTo P o k c₀ line g c₁.host.store g.host.store := by
  have hstore := round_store (.talk P o) hget g
  rw [hrun] at hstore
  exact ⟨c₁, g', hrun, hprompt, rfl, hstore⟩

/-! ### `put` -/

theorem lastComponent_length (path : Bytes) : (lastComponent path).length ≤ path.length := by
  rw [lastComponent, List.getLastD_eq_getLast?]
  have hall : ∀ c ∈ components path, c.length ≤ path.length := by
    induction path with
    | nil =>
      intro c hc
      rw [List.mem_singleton.mp hc]
    | cons b path ih =>
      intro c hc
      rw [components] at hc
      split at hc
      · rcases List.mem_cons.mp hc with rfl | hc
        · exact Nat.zero_le _
        · exact (ih c hc).trans (Nat.le_succ _)
      · split at hc
        · rename_i c' cs hsplit
          rw [hsplit] at ih
          rcases List.mem_cons.mp hc with rfl | hc
          · exact Nat.succ_le_succ (ih c' List.mem_cons_self)
          · exact (ih c (List.mem_cons_of_mem c' hc)).trans (Nat.le_succ _)
        · rw [List.mem_singleton.mp hc]
          exact Nat.succ_le_succ (Nat.zero_le _)
  cases hlast : (components path).getLast? with
  | none => exact Nat.zero_le _
  | some c => exact hall c (List.mem_of_getLast? hlast)

theorem storText_fits {name : Bytes} {size : ℤ} (hname : name.length + 25 < bufferSize)
    (hlo : 0 ≤ size) (hhi : size ≤ maxFileSize) : (storText name size).length < bufferSize := by
  have hmax : maxFileSize = 4294967296 := rfl
  have hlen := decimal_length_le (z := size) (k := 10) (by decide) (by omega)
  have hstor : (text "STOR ").length = 5 := rfl
  have hsize : (text "Size: ").length = 6 := rfl
  have hnewline : newline.length = 1 := rfl
  simp only [storText, List.length_append, hstor, hsize, hnewline]
  omega

theorem follow_of_tidy {s : Store} (h : ClientTidy s) (p : Path) : s.follow p = p :=
  Store.follow_of_ne_link (h.links p)

/-- What is opened for reading, if it is a regular file. -/
theorem reads_of_tidy {s : Store} (h : ClientTidy s) {path : Bytes} (hdirect : Direct path) {p : Path}
    {content : Bytes} (hreads : s.reads path = some (p, .file content)) :
    p = below path ∧ fileAt s (below path) = some content := by
  obtain ⟨hopened, hget⟩ := Store.place_of_reads hreads
  obtain ⟨q, hq, hfollow⟩ := Option.map_eq_some_iff.mp hopened
  rw [follow_of_tidy h] at hfollow
  have hp : p = below path := hfollow ▸ Store.place_of_direct hdirect h.links hq
  exact ⟨hp, fileAt_eq_some.mpr (hp ▸ hget)⟩

/-- **A file that may be sent** is a regular file that is not too long. -/
theorem checkAndGetFileSize_some {h h₁ : Host} (hw : h.Willing) (htidy : ClientTidy h.store)
    {filepath : Bytes} (hdirect : Direct filepath) {size : ℤ}
    (hcheck : (checkAndGetFileSize filepath).run h = .ok (some size) h₁) :
    ∃ content, fileAt h.store (below filepath) = some content ∧ sendable content = true ∧
      size = content.length ∧ h.store.reads filepath = some (below filepath, .file content) := by
  obtain ⟨regular, h', hregular, hcheck⟩ := Exec.bind_ok hcheck
  have hstore : h'.store = h.store := by
    have hkeeps := isFile_keeps (Host.quiet_store (· = h.store)) filepath h rfl
    rwa [hregular] at hkeeps
  have hwilling : h'.Willing := by
    have hsince := isFile_keeps (Host.quiet_since h) filepath h (Host.since_path.refl h)
    rw [hregular] at hsince
    exact hw.since hsince
  split at hcheck
  · rename_i htrue
    obtain ⟨file, h₂, hopen, hcheck⟩ := Exec.bind_ok hcheck
    rw [Host.run_openIn, hwilling.tries, hstore] at hopen
    cases hreads : h.store.reads filepath with
    | none =>
      rw [hreads] at hopen
      cases hopen
      cases hcheck
    | some x =>
      obtain ⟨p, node⟩ := x
      rw [hreads] at hopen
      cases hopen
      -- what is regular is a file
      unfold Host.isFile at hregular
      rw [Exec.bind_of_ok (EStateM.run_get h), Exec.bind_of_ok (EStateM.run_modify _ h), hw.tries,
        hreads] at hregular
      cases node with
      | file content =>
        obtain ⟨rfl, hfile⟩ := reads_of_tidy htidy hdirect hreads
        have hlong := htidy.sizes _ _ hfile
        have hend : toInt64 content.length = content.length :=
          Int.bmod_eq_of_le (by omega) (by omega)
        have hresult := (EStateM.Result.ok.inj hcheck).1
        simp only [Host.contents, hend] at hresult
        split at hresult
        · cases hresult
        · rename_i hle
          cases hresult
          exact ⟨content, hfile, sendable_iff.mpr (not_lt.mp hle), rfl, rfl⟩
      | dir =>
        cases hregular
        cases htrue
      | link q =>
        cases hregular
        cases htrue
      | special reads =>
        cases hregular
        cases htrue
  · cases hcheck

theorem reads_of_file {s : Store} (h : ClientTidy s) {path content : Bytes} (hdirect : Direct path)
    (hp : Proper path) (hfile : fileAt s (below path) = some content) :
    s.reads path = some (below path, .file content) := by
  have hget := fileAt_eq_some.mp hfile
  unfold Store.reads
  rw [Store.place_of_get hdirect hp h.parents hget, Option.map_some, follow_of_tidy h,
    Option.bind_some, hget]
  exact if_pos hp

/-- A file whose name is kept by the server has a proper path. -/
theorem proper_of_served {path : Bytes} (hzero : (0 : Byte) ∉ path)
    (h : Served (lastComponent path)) : Proper path := by
  obtain ⟨hne, hdot, hdotDot⟩ := (proper_fullpath_iff h.parola).mp h.proper
  have hlast : lastComponent path = (components path).getLast?.getD [] := by
    rw [lastComponent, List.getLastD_eq_getLast?]
  cases hc : (components path).getLast? with
  | none =>
    rw [hc] at hlast
    exact absurd hlast hne
  | some c =>
    rw [hc] at hlast
    have hname : lastComponent path = c := hlast
    rw [hname] at hne hdot hdotDot
    exact ⟨c, by rw [upToZero_of_nonzero hzero, hc], hne, hdot, hdotDot⟩

/-- What the server does not keep is not stored. -/
theorem destination_of_not_served {h : Host} {name : Bytes} (hserved : ¬ Served name) :
    destination h name = none := by
  unfold destination
  split
  · rename_i hname
    have hproper : ¬ Proper (fullpath name) := fun hp => hserved ⟨hname.2, hp⟩
    have hnone : h.store.truncates (fullpath name) = none := by
      unfold Store.truncates
      cases (h.store.place (fullpath name)).map h.store.follow with
      | none => rfl
      | some p => exact if_neg hproper
    rw [hnone, Host.tries]
    split <;> rfl
  · rfl

section Lines

variable {m : Mirror.Pair Path Name Bytes} {line : Option Bytes} {server client : Store}

/-- The files that the user sees after a line. -/
theorem LeadsTo.shows (hleads : LeadsTo P o k c₀ line g server client) (h : Shows P o k c₀ c m g)
    (hserver : ServerTidy server) (hclient : ClientTidy client) :
    ∃ c₁ g', (round (.talk P o) line).run g = .ok true g' ∧
      Shows P o k c₀ c₁ (Cybrg.view client server) g' := by
  obtain ⟨c₁, g', hrun, hprompt, rfl, rfl⟩ := hleads
  have hsince := round_since (.talk P o) line g
  rw [hrun] at hsince
  exact ⟨c₁, g', hrun, hprompt, h.willing, h.clientWilling.since hsince, hserver, hclient, rfl⟩

/-- A line that changes no file. -/
theorem LeadsTo.shows_same (hleads : LeadsTo P o k c₀ line g c.host.store g.host.store)
    (h : Shows P o k c₀ c m g) {cmd : Mirror.Command Path Name} (hcmd : Mirror.step sendable m cmd = m) :
    ∃ c₁ g', (round (.talk P o) line).run g = .ok true g' ∧
      Shows P o k c₀ c₁ (Mirror.step sendable m cmd) g' := by
  rw [hcmd, ← h.view]
  exact hleads.shows h h.serverTidy h.clientTidy

/-- A `put` that sends nothing, or is refused. -/
theorem put_same (h : Shows P o k c₀ c m g) {filepath : Bytes}
    (hline : lineWords line = (text "put", filepath))
    (hfair : Fair c.host g.packets.length c.packets.length (text "put") filepath)
    (hno : ¬ Served (lastComponent filepath) ∨
      ∀ content, fileAt g.host.store (below filepath) = some content → sendable content = false) :
    LeadsTo P o k c₀ line g c.host.store g.host.store := by
  obtain ⟨is, hround⟩ := round_command (g := g) (t := .talk P o) hline (by decide)
  have hget : (lineWords line).1 ≠ text "get" := ne_of_line hline (by decide)
  rw [dispatch_put] at hround
  by_cases hne : filepath = []
  · have hrun : (cmdStor (.talk P o) filepath).run { g with is } = .ok () { g with is } := by
      rw [cmdStor, if_pos hne]
      rfl
    exact .of_server hget (hround.trans (Exec.bind_of_ok hrun)) (h.atPrompt.of_eq rfl rfl)
  obtain ⟨r, h₁, hcheck, -⟩ := run_checkAndGetFileSize filepath g.host
  cases r with
  | none =>
    have hrun := cmdStor_eq (P := P) (o := o) (g := { g with is }) hne hcheck
    exact .of_server hget (hround.trans (Exec.bind_of_ok hrun)) (h.atPrompt.of_eq rfl rfl)
  | some size =>
    obtain ⟨content, hfile, hsendable, rfl, -⟩ :=
      checkAndGetFileSize_some h.clientWilling h.clientTidy (hfair.direct rfl) hcheck
    have hserved : ¬ Served (lastComponent filepath) := by
      refine hno.resolve_right fun hall => ?_
      rw [hall content hfile] at hsendable
      cases hsendable
    have hshort : (lastComponent filepath).length + 25 < bufferSize := by
      have hlen := lastComponent_length filepath
      have hfits := hfair.short
      omega
    have hfits := storText_fits hshort (Int.natCast_nonneg content.length)
      (sendable_iff.mp hsendable)
    have hrun := cmdStor_refused (P := P) (o := o) (g := { g with is }) (h.atPrompt.of_eq rfl rfl) hne
      (word_of_line hline).lastComponent hcheck hfits (destination_of_not_served hserved)
    have hroom := hfair.room
    unfold Room at hroom
    rw [if_pos ⟨by show g.packets.length + 1 < 2 ^ 31; omega, by omega⟩] at hrun
    obtain ⟨g', hrun, c₁, hprompt, hstore⟩ := hrun
    have hleads := LeadsTo.of_server hget (hround.trans (Exec.bind_of_ok hrun)) hprompt
    rwa [hstore] at hleads

/-- **`put`** -/
theorem put_shows (h : Shows P o k c₀ c m g) {filepath : Bytes}
    (hline : lineWords line = (text "put", filepath))
    (hfair : Fair c.host g.packets.length c.packets.length (text "put") filepath) :
    ∃ c₁ g', (round (.talk P o) line).run g = .ok true g' ∧
      Shows P o k c₀ c₁ (Mirror.step sendable m (command (text "put") filepath)) g' := by
  have hview := (home_of_view h.view (below filepath)).symm
  by_cases hserved : Served (lastComponent filepath)
  · rw [command_put, if_pos hserved]
    by_cases hno : ∀ content, fileAt g.host.store (below filepath) = some content →
        sendable content = false
    · refine (put_same h hline hfair (.inr hno)).shows_same h (Mirror.step_put_none ?_ _)
      rw [hview]
      exact hno
    · push Not at hno
      obtain ⟨content, hfile, hsendable⟩ := hno
      have hsendable' : sendable content = true := by simpa using hsendable
      have hlen := sendable_iff.mp hsendable'
      have hshort := lastComponent_length filepath
      have hfits := hfair.short
      have hputs : Puts c.host g.host filepath content := by
        refine ⟨h.atPrompt.willing h.willing, h.clientWilling,
          ⟨_, reads_of_file h.clientTidy (hfair.direct rfl) (proper_of_served hfair.nonzero hserved) hfile⟩, hlen, ?_, hserved.parola,
          hserved.proper, h.serverTidy.root, h.serverTidy.files _⟩
        exact storText_fits (by omega) (Int.natCast_nonneg _) hlen
      have hroom := hfair.room
      unfold Room at hroom
      have hmax : maxFileSize = 4294967296 := rfl
      have hb : bufferSize = 4096 := rfl
      obtain ⟨c₁, g', hrun, hprompt, hstore⟩ := put_back h.atPrompt hline hputs
        ⟨by rw [hb]; omega, by omega⟩
      have hget : (lineWords line).1 ≠ text "get" := ne_of_line hline (by decide)
      have hleads := LeadsTo.of_server hget hrun hprompt
      rw [hstore] at hleads
      have hstep : Mirror.step sendable m (.put (below filepath) (lastComponent filepath))
          = Cybrg.view g.host.store
            (c.host.store.set (keptAt (lastComponent filepath)) (.file content)) := by
        rw [Mirror.step_put (hview.trans hfile) hsendable', view_set_server, h.view]
      rw [hstep]
      exact hleads.shows h (h.serverTidy.set hsendable') h.clientTidy
  · rw [command_put, if_neg hserved]
    exact (put_same h hline hfair (.inl hserved)).shows_same h rfl

/-! ### `get` -/

theorem retrText_fits {name : Bytes} (h : name.length + 25 < bufferSize) :
    (retrText name).length < bufferSize := by
  have hretr : (text "RETR ").length = 5 := rfl
  have hnewline : newline.length = 1 := rfl
  simp only [retrText, List.length_append, hretr, hnewline]
  omega

/-- What the server opens for a download, if it has no such file. -/
theorem opened_of_absent {h : Host} (htidy : ServerTidy h.store) {name : Bytes} (hserved : Served name)
    (hfile : fileAt h.store (keptAt name) = none) : (opened h name).1 = none := by
  have hgone : h.store.get (keptAt name) = none := by
    by_contra hsome
    obtain ⟨node, hnode⟩ := Option.ne_none_iff_exists'.mp hsome
    have hregular := htidy.files name node hnode
    cases node with
    | file content => cases (fileAt_eq_some.mpr hnode).symm.trans hfile
    | dir => cases hregular
    | link q => cases hregular
    | special reads => cases hregular
  have hreads : h.store.reads (fullpath name) = none := by
    unfold Store.reads
    rw [opened_keptAt hserved.parola hserved.proper htidy.root (htidy.files name), Option.bind_some,
      hgone]
  rw [opened, if_neg (by rw [hserved.parola]; decide), hreads, Host.tries]
  split <;> rfl

/-- And if it has one. -/
theorem opened_of_file {h : Host} (hw : h.Willing) (htidy : ServerTidy h.store)
    {name content : Bytes} (hserved : Served name)
    (hfile : fileAt h.store (keptAt name) = some content) :
    opened h name = (some (.file content),
      h.called .openIn (some (keptAt name, some (.file content), h.store))) := by
  rw [opened, if_neg (by rw [hserved.parola]; decide), hw.tries,
    reads_keptAt hserved.parola hserved.proper htidy.root (fileAt_eq_some.mp hfile)]
  rfl

/-- A `get` that sends nothing, or is refused. -/
theorem get_same (h : Shows P o k c₀ c m g) {name : Bytes}
    (hline : lineWords line = (text "get", name))
    (hfair : Fair c.host g.packets.length c.packets.length (text "get") name)
    (hnone : name ≠ [] → (opened c.host name).1 = none) :
    LeadsTo P o k c₀ line g c.host.store g.host.store := by
  obtain ⟨is, hround⟩ := round_command (g := g) (t := .talk P o) hline (by decide)
  rw [dispatch_get] at hround
  by_cases hne : name = []
  · have hrun : (cmdRetr (.talk P o) name).run { g with is } = .ok () { g with is } := by
      rw [cmdRetr, if_pos hne]
      rfl
    exact ⟨c, _, hround.trans (Exec.bind_of_ok hrun), h.atPrompt.of_eq rfl rfl, rfl, rfl⟩
  · have hopened := hnone hne
    rw [← upToZero_of_nonzero hfair.nonzero] at hopened
    have hfits := retrText_fits hfair.short
    obtain ⟨c₁, hanswers, hhost⟩ := ServerClient.retr_refused h.atPrompt.settled.os (word_of_line hline)
      hne hfits hopened
    have hfits' : Fits (retrText name) := fits_of_text hfits
    have h' : AtPrompt P o k c₀ c { g with is } := h.atPrompt.of_eq rfl rfl
    have hstatus := status_run h' hfits' hanswers (recvFile (.talk P o) name)
    have hroom := hfair.room
    unfold Room at hroom
    rw [if_pos ⟨by show g.packets.length + 1 < 2 ^ 31; omega, by omega⟩] at hstatus
    obtain ⟨x', hprompt, hstatus⟩ := hstatus
    rw [recvFile_refused (by decide) rfl] at hstatus
    have hcmd : cmdRetr (.talk P o) name = sendCmd (.talk P o) (retrText name) >>= fun _ =>
        recvResponse (.talk P o) >>= fun _ => recvFile (.talk P o) name := if_neg hne
    rw [← hcmd] at hstatus
    refine ⟨c₁, _, hround.trans (Exec.bind_of_ok hstatus), hprompt _ rfl rfl, ?_, rfl⟩
    rw [hhost, opened_store]

/-- What a `get` opens on its own side. -/
theorem truncates_fetched {s : Store} (h : ClientTidy s) {name : Bytes} (hserved : Served name) :
    s.truncates (clientRoot ++ name) = some (fetchedAt name, s.get (fetchedAt name)) := by
  unfold Store.truncates
  rw [hserved.place_fetched h.downloads, Option.map_some, follow_of_tidy h, Option.bind_some,
    if_pos hserved.proper_fetched]
  cases hget : s.get (fetchedAt name) with
  | none => exact if_pos ⟨by simp [fetchedAt], h.downloads⟩
  | some node =>
    have hfile := h.files name node hget
    cases node with
    | file was => rfl
    | dir => cases hfile
    | link q => cases hfile
    | special reads => cases hfile

/-- What the client has when it has read a file. -/
theorem received_store {h : Host} (hw : h.Willing) (htidy : ClientTidy h.store) {name : Bytes}
    (hserved : Served name) (content : Bytes) :
    (received h name content.length (content.take content.length)).store
      = h.store.set (fetchedAt name) (.file content) := by
  have htruncates := truncates_fetched htidy hserved
  have hspecial : ∀ reads, h.store.get (fetchedAt name) ≠ some (.special reads) :=
    fun reads hget => htidy.files name _ hget
  rw [received, if_neg (by omega), hw.tries, htruncates, ← Store.append_truncate hspecial]
  show Store.append _ _ (List.take _ _) = _
  rw [hw.limits, List.take_length]
  exact congrArg _ List.take_length

/-- A `get` of a file that the server keeps. -/
theorem get_leads (h : Shows P o k c₀ c m g) {name content : Bytes}
    (hline : lineWords line = (text "get", name))
    (hfair : Fair c.host g.packets.length c.packets.length (text "get") name)
    (hserved : Served name) (hfile : fileAt c.host.store (keptAt name) = some content) :
    LeadsTo P o k c₀ line g c.host.store (g.host.store.set (fetchedAt name) (.file content)) := by
  obtain ⟨is, hround⟩ := round_command (g := g) (t := .talk P o) hline (by decide)
  rw [dispatch_get] at hround
  have hsize := sendable_iff.mp (h.serverTidy.sizes name content hfile)
  have hw := h.atPrompt.willing h.willing
  have hopened : opened c.host (upToZero name) = (some (.file content),
      c.host.called .openIn (some (keptAt name, some (.file content), c.host.store))) := by
    rw [upToZero_of_nonzero hfair.nonzero]
    exact opened_of_file hw h.serverTidy hserved hfile
  have hw' := hw.called .openIn (some (keptAt name, some (.file content), c.host.store))
  have hcontents := Host.contents_file (c.host.called .openIn
    (some (keptAt name, some (.file content), c.host.store))) hsize
  have htaken : taken g.host name content.length = content.length := by
    rw [taken_of_some (Int.natCast_nonneg _)
      (by rw [h.clientWilling.tries, truncates_fetched h.clientTidy hserved]), Int.toNat_natCast]
  have h' : AtPrompt P o k c₀ c { g with is } := h.atPrompt.of_eq rfl rfl
  have hrun := cmdRetr_run h' (word_of_line hline) hserved.ne_nil (retrText_fits hfair.short) hopened
    (by rw [hw'.readableOf, hcontents]; exact htaken.ge)
  rw [hw'.readableOf, hcontents] at hrun
  dsimp only at hrun
  have hmax : maxFileSize = 4294967296 := rfl
  have hb : bufferSize = 4096 := rfl
  have hroom := hfair.room
  unfold Room at hroom
  have hpieces : (bodyPackets content).length ≤ 2 ^ 20 + 1 := by
    rw [bodyPackets_length, pieces, hb]
    split <;> omega
  rw [htaken, if_pos ⟨by omega, by omega, le_refl _⟩] at hrun
  obtain ⟨g', hrun, hreceived, c₁, hprompt, hhost⟩ := hrun
  refine ⟨c₁, g', hround.trans (Exec.bind_of_ok hrun), hprompt, ?_, ?_⟩
  · rw [hhost]
    rfl
  · rw [hreceived]
    exact received_store h.clientWilling h.clientTidy hserved content

/-- **`get`** -/
theorem get_shows (h : Shows P o k c₀ c m g) {name : Bytes}
    (hline : lineWords line = (text "get", name))
    (hfair : Fair c.host g.packets.length c.packets.length (text "get") name) :
    ∃ c₁ g', (round (.talk P o) line).run g = .ok true g' ∧
      Shows P o k c₀ c₁ (Mirror.step sendable m (command (text "get") name)) g' := by
  have hview := (shelf_of_view h.view name).symm
  rw [command_get]
  by_cases hserved : Served name
  · rw [if_pos hserved]
    cases hfile : fileAt c.host.store (keptAt name) with
    | none =>
      have hnone := opened_of_absent h.serverTidy hserved hfile
      exact (get_same h hline hfair fun _ => hnone).shows_same h
        (Mirror.step_get_none (hview.trans hfile) _)
    | some content =>
      have hsize := h.serverTidy.sizes name content hfile
      have hstep : Mirror.step sendable m (.get name (fetchedAt name))
          = Cybrg.view (g.host.store.set (fetchedAt name) (.file content)) c.host.store := by
        rw [Mirror.step_get (hview.trans hfile), view_set_client, ← h.view]
        rfl
      rw [hstep]
      exact (get_leads h hline hfair hserved hfile).shows h h.serverTidy (h.clientTidy.set hsize)
  · rw [if_neg hserved]
    refine (get_same h hline hfair fun hne => ?_).shows_same h rfl
    obtain ⟨hdot, hdotDot⟩ := hfair.child rfl
    rw [opened, if_pos (not_served hserved hne hdot hdotDot)]

/-! ### `rm` -/

theorem deleText_fits {name : Bytes} (h : name.length + 25 < bufferSize) :
    (deleText name).length < bufferSize := by
  have hdele : (text "DELE ").length = 5 := rfl
  have hnewline : newline.length = 1 := rfl
  simp only [deleText, List.length_append, hdele, hnewline]
  omega

/-- The working directory of the server is never empty. -/
theorem children_ne_nil {s : Store} (h : ServerTidy s) : s.children [] ≠ [] := by
  have hmem : serverRoot ∈ s.children [] := Store.mem_children h.root (by decide)
  exact List.ne_nil_of_mem hmem

/-- A name that the server does not keep is not removed. -/
theorem removes_of_not_served {s : Store} (h : ServerTidy s) {name : Bytes}
    (hparola : parola name = true) (hne : name ≠ []) (hserved : ¬ Served name) :
    s.removes (fullpath name) = none := by
  have hproper : ¬ Proper (fullpath name) := fun hp => hserved ⟨hparola, hp⟩
  unfold Store.removes
  rw [place_fullpath h.root hparola, Option.bind_some, names_fullpath hparola, if_neg hne]
  by_cases hdot : name = dot
  · rw [if_pos (.inr hdot), h.root]
    exact if_neg fun hboth => hboth.2 (by rw [hdot]; rfl)
  · rw [if_neg (by simp [hne, hdot])]
    have hdotDot : name = dotDot := by
      by_contra hno
      exact hproper ((proper_fullpath_iff hparola).mpr ⟨hne, hdot, hno⟩)
    rw [if_pos hdotDot]
    split
    · rfl
    · exact if_neg fun hboth => children_ne_nil h hboth.1
    · exact if_neg hproper

/-- **What a removal leaves.** -/
theorem view_deleted {h : Host} (hw : h.Willing) (htidy : ServerTidy h.store) {name : Bytes}
    (hne : name ≠ []) (client : Store) :
    ServerTidy (deleted h name).2.store ∧
      Cybrg.view client (deleted h name).2.store
        = Mirror.step sendable (Cybrg.view client h.store)
          (if Served name then .remove name else .other) := by
  by_cases hparola : parola name = true
  · have hstore : (deleted h name).2.store = match h.store.removes (fullpath name) with
        | none => h.store
        | some x => h.store.erase x.1 := by
      rw [deleted, if_neg (by rw [hparola]; decide), hw.tries]
      cases h.store.removes (fullpath name) <;> rfl
    by_cases hserved : Served name
    · have hplace : h.store.place (fullpath name) = some (keptAt name) :=
        place_of_proper htidy.root hparola hserved.proper
      rw [if_pos hserved]
      cases hget : h.store.get (keptAt name) with
      | none =>
        have hremoves : h.store.removes (fullpath name) = none := by
          unfold Store.removes
          rw [hplace, Option.bind_some, hget]
        have hshelf : (Cybrg.view client h.store).shelf name = none := by
          show fileAt h.store (keptAt name) = none
          unfold fileAt
          rw [hget]
        rw [hstore, hremoves, Mirror.step_remove_none hshelf]
        exact ⟨htidy, rfl⟩
      | some node =>
        have hfile := htidy.files name node hget
        have hremoves : h.store.removes (fullpath name) = some (keptAt name, node) := by
          unfold Store.removes
          rw [hplace, Option.bind_some, hget]
          cases node with
          | file content => exact if_pos hserved.proper
          | dir => cases hfile
          | link q => cases hfile
          | special reads => cases hfile
        rw [hstore, hremoves]
        exact ⟨htidy.erase, view_erase_server client h.store name⟩
    · rw [if_neg hserved, hstore, removes_of_not_served htidy hparola hne hserved]
      exact ⟨htidy, rfl⟩
  · have hfalse : parola name = false := by simpa using hparola
    rw [if_neg fun hserved : Served name => hparola hserved.parola, deleted, if_pos hfalse]
    exact ⟨htidy, rfl⟩

/-- **`rm`** -/
theorem rm_shows (h : Shows P o k c₀ c m g) {name : Bytes}
    (hline : lineWords line = (text "rm", name))
    (hfair : Fair c.host g.packets.length c.packets.length (text "rm") name) :
    ∃ c₁ g', (round (.talk P o) line).run g = .ok true g' ∧
      Shows P o k c₀ c₁ (Mirror.step sendable m (command (text "rm") name)) g' := by
  obtain ⟨is, hround⟩ := round_command (g := g) (t := .talk P o) hline (by decide)
  have hdispatch : dispatch (.talk P o) (text "rm") name
      = cmdDele (.talk P o) name >>= fun _ => pure true := rfl
  rw [hdispatch] at hround
  have hget : (lineWords line).1 ≠ text "get" := ne_of_line hline (by decide)
  rw [command_rm]
  by_cases hne : name = []
  · have hrun : (cmdDele (.talk P o) name).run { g with is } = .ok () { g with is } := by
      rw [cmdDele, if_pos hne]
      rfl
    have hleads := LeadsTo.of_server hget (hround.trans (Exec.bind_of_ok hrun))
      (h.atPrompt.of_eq rfl rfl)
    rw [if_neg fun hserved : Served name => hserved.ne_nil hne]
    exact hleads.shows_same h rfl
  · have h' : AtPrompt P o k c₀ c { g with is } := h.atPrompt.of_eq rfl rfl
    have hrun := cmdDele_run h' (word_of_line hline) hne (deleText_fits hfair.short)
    have hroom := hfair.room
    unfold Room at hroom
    rw [if_pos ⟨by show g.packets.length + 1 < 2 ^ 31; omega, by omega⟩,
      upToZero_of_nonzero hfair.nonzero] at hrun
    obtain ⟨g', hrun, c₁, hprompt, hhost⟩ := hrun
    have hleads := LeadsTo.of_server hget (hround.trans (Exec.bind_of_ok hrun)) hprompt
    obtain ⟨htidy, hview⟩ := view_deleted (h.atPrompt.willing h.willing) h.serverTidy hne g.host.store
    rw [hhost] at hleads
    rw [← h.view, ← hview]
    exact hleads.shows h htidy h.clientTidy

/-! ### Any line -/

/-- A line that copies nothing. -/
theorem other_shows (h : Shows P o k c₀ c m g) {strCmd arg : Bytes}
    (hline : lineWords line = (strCmd, arg))
    (hfair : Fair c.host g.packets.length c.packets.length strCmd arg) (hput : strCmd ≠ text "put")
    (hget : strCmd ≠ text "get") (hrm : strCmd ≠ text "rm") :
    ∃ c₁ g', (round (.talk P o) line).run g = .ok true g' ∧
      Shows P o k c₀ c₁ (Mirror.step sendable m (command strCmd arg)) g' := by
  have hroom := hfair.room
  unfold Room at hroom
  have hstep : InStep c.host g.host (lineWords line).1 (lineWords line).2 := by
    rw [hline]
    exact ⟨hfair.listing, fun hcmd => absurd hcmd hget, fun hcmd => absurd hcmd hput,
      fun hcmd => absurd hcmd hrm⟩
  have hcompletes : Completes c.host g.host g.packets.length c.packets.length (lineWords line).1
      (lineWords line).2 := by
    rw [hline]
    unfold Completes
    rw [if_neg hfair.stays]
    split
    · trivial
    · split
      · have hlen : (listPackets (lists c.host)).length ≤ 2 := by
          cases lists c.host with
          | none => decide
          | some names =>
            rw [listPackets, List.length_cons, packetsOf_length]
            split <;> decide
        exact ⟨by omega, by omega⟩
      · trivial
  obtain ⟨g', hrun, c₁, hprompt, heffect⟩ := (round_back h.atPrompt hstep).back hcompletes
  have hsame : c₁.host.store = c.host.store := by
    rw [hline] at heffect
    generalize c₁.host.store = s at heffect
    cases heffect with
    | same => rfl
    | removed hcmd => exact absurd hcmd hrm
    | stored hcmd _ _ => exact absurd hcmd hput
  have hleads := LeadsTo.of_server (ne_of_line hline hget) hrun hprompt
  rw [hsame] at hleads
  rw [command_other hput hget hrm]
  exact hleads.shows_same h rfl

/-- **One line.** -/
theorem Shows.round (h : Shows P o k c₀ c m g)
    (hfair : Fair c.host g.packets.length c.packets.length (lineWords line).1 (lineWords line).2) :
    ∃ c₁ g', (ClientMain.round (.talk P o) line).run g = .ok true g' ∧
      Shows P o k c₀ c₁
        (Mirror.step sendable m (asked line)) g' := by
  unfold asked
  rcases hline : lineWords line with ⟨strCmd, arg⟩
  rw [hline] at hfair
  by_cases hput : strCmd = text "put"
  · subst hput
    exact put_shows h hline hfair
  by_cases hget : strCmd = text "get"
  · subst hget
    exact get_shows h hline hfair
  by_cases hrm : strCmd = text "rm"
  · subst hrm
    exact rm_shows h hline hfair
  · exact other_shows h hline hfair hput hget hrm

end Lines

/-! ### Sessions -/

/-- The next line is a fair one. -/
def Prompt.Fair (P : Primitives) (o : ByteOrder) (p : Prompt Talk) (line : Option Bytes) : Prop :=
  ClientMain.Fair (p.server P o) p.globals.packets.length (p.replied P o) (lineWords line).1
    (lineWords line).2

/-- The commands of the lines, to a shelf. -/
def shelfStep (m : Mirror.Pair Path Name Bytes) (line : Option Bytes) :
    Mirror.Pair Path Name Bytes × List Empty :=
  (Mirror.step sendable m (asked line), [])

theorem shelfStep_run (m : Mirror.Pair Path Name Bytes) (lines : List (Option Bytes)) :
    (Machine.run shelfStep m lines).1
      = Mirror.run sendable m (lines.map asked) := by
  induction lines generalizing m with
  | nil => rfl
  | cons line lines ih => exact ih _

/-- The program waits for a line, and its user sees these files. -/
def Prompt.Shows (P : Primitives) (o : ByteOrder) (k : SessionKeys) (c₀ : ServerClient.Client Unit)
    (p : Prompt Talk) (m : Mirror.Pair Path Name Bytes) : Prop :=
  p.running = true ∧ ∃ c, ClientMain.Shows P o k c₀ c m p.globals

/-- **A run of both programs is a run of the shelf.** -/
theorem Prompt.Shows.run {p : Prompt Talk} {m : Mirror.Pair Path Name Bytes}
    (h : p.Shows P o k c₀ m) {lines : List (Option Bytes)}
    (hfair : Machine.Meets (Prompt.step (.talk P o)) (Prompt.Fair P o) p lines) :
    (Machine.run (Prompt.step (.talk P o)) p lines).1.Shows P o k c₀
      (Mirror.run sendable m (lines.map asked)) := by
  rw [← shelfStep_run]
  refine (Machine.run_simulates (V := fun _ _ => True)
    (R := fun (p : Prompt Talk) m => p.Shows P o k c₀ m) ?_ h hfair).1
  show ∀ (q : Prompt Talk) (m' : Mirror.Pair Path Name Bytes) (line : Option Bytes),
    q.Shows P o k c₀ m' → q.Fair P o line →
      (Prompt.step (.talk P o) q line).1.Shows P o k c₀ (shelfStep m' line).1 ∧
        List.Forall₂ (fun _ _ => True) (Prompt.step (.talk P o) q line).2 (shelfStep m' line).2
  rintro q m' line ⟨hrunning, c, hshows⟩ hline
  have hwaits : Waits P o k c₀ c q := ⟨hrunning, hshows.atPrompt⟩
  unfold Prompt.Fair at hline
  rw [hwaits.replied, hwaits.server] at hline
  obtain ⟨c₁, g', hrun, hshows'⟩ := hshows.round hline
  obtain ⟨hstep, -⟩ := hwaits.of_ok hrun hshows'.atPrompt
  have hobs : (Prompt.step (.talk P o) q line).2 = [] := by
    rw [Prompt.step, if_pos hrunning, hrun]
  rw [hstep, hobs]
  exact ⟨⟨rfl, c₁, hshows'⟩, .nil⟩

/-- A session begins, and the client's system is a tidy one that refuses nothing. -/
structure Begins (k : SessionKeys) (c : ServerClient.Client Unit) (g : Globals Talk) : Prop where
  replied : c.packets = []
  os : c.os = []
  sent : g.packets = []
  link : g.link = Talk.new k c
  willing : g.host.Willing
  tidy : ClientTidy g.host.store

theorem Begins.shows (h : Begins k c g) (hwilling : c.host.Willing) (htidy : ServerTidy c.host.store) :
    (⟨true, g⟩ : Prompt Talk).Shows P o k c (Cybrg.view g.host.store c.host.store) :=
  ⟨rfl, c, .new h.replied h.os h.sent h.link, hwilling, h.willing, htidy, h.tidy, rfl⟩

/-- The server has these files, too. -/
theorem Prompt.Shows.view {p : Prompt Talk} {m : Mirror.Pair Path Name Bytes}
    (h : p.Shows P o k c₀ m) : Cybrg.view p.globals.host.store (p.server P o).store = m := by
  obtain ⟨-, c, hshows⟩ := h
  rw [Prompt.server, hshows.atPrompt.served_host]
  exact hshows.view

theorem Prompt.Shows.serverTidy {p : Prompt Talk} {m : Mirror.Pair Path Name Bytes}
    (h : p.Shows P o k c₀ m) : ServerTidy (p.server P o).store := by
  obtain ⟨-, c, hshows⟩ := h
  rw [Prompt.server, hshows.atPrompt.served_host]
  exact hshows.serverTidy

/-- **A session is a shelf.**  Between tidy systems that refuse nothing, a session with fair lines goes
on, and the files on both sides come to be what the commands of a shelf make of them. -/
theorem session_is_shelf (hbegins : Begins k c g) (hwilling : c.host.Willing)
    (htidy : ServerTidy c.host.store) {lines : List (Option Bytes)} {p : Prompt Talk}
    (hp : (Machine.run (Prompt.step (.talk P o)) ⟨true, g⟩ lines).1 = p)
    (hfair : Machine.Meets (Prompt.step (.talk P o)) (Prompt.Fair P o) ⟨true, g⟩ lines) :
    p.running = true ∧ view p.globals.host.store (p.server P o).store
      = Mirror.run sendable (view g.host.store c.host.store) (lines.map asked) := by
  have hshows := (hbegins.shows hwilling htidy).run hfair
  rw [hp] at hshows
  exact ⟨hshows.1, hshows.view⟩

theorem fetchedAt_injective : Function.Injective fetchedAt := by
  intro a b h
  exact (List.cons.inj (List.cons.inj h).2).1

/-- **What is backed up is restored.**  A user puts some files on the server, each under a name of its
own, and types other lines that do not name them.  Later a client on another system asks for them: then
it has their contents. -/
theorem backup_restore (hbegins : Begins k c g) (hwilling : c.host.Willing)
    (htidy : ServerTidy c.host.store) {before puts between : List (Option Bytes)} {p q : Prompt Talk}
    (hp : (Machine.run (Prompt.step (.talk P o)) ⟨true, g⟩ before).1 = p)
    (hq : (Machine.run (Prompt.step (.talk P o)) p (puts ++ between)).1 = q)
    (hfair : Machine.Meets (Prompt.step (.talk P o)) (Prompt.Fair P o) ⟨true, g⟩
      (before ++ (puts ++ between)))
    {jobs : List (Path × Name)} (hputs : puts.map asked = Mirror.puts jobs)
    (hnames : (jobs.map Prod.snd).Nodup)
    (hheld : ∀ job ∈ jobs, ∃ content,
      fileAt p.globals.host.store job.1 = some content ∧ sendable content = true)
    (hbetween : ∀ line ∈ between, ∀ job ∈ jobs, (asked line).shelved ≠ some job.2)
    -- the other session
    {k' : SessionKeys} {c' : ServerClient.Client Unit} {g' : Globals Talk} (hbegins' : Begins k' c' g')
    (hwilling' : c'.host.Willing) (hsame : c'.host.store = (q.server P o).store)
    {gets : List (Option Bytes)} {r : Prompt Talk}
    (hr : (Machine.run (Prompt.step (.talk P o)) ⟨true, g'⟩ gets).1 = r)
    (hfair' : Machine.Meets (Prompt.step (.talk P o)) (Prompt.Fair P o) ⟨true, g'⟩ gets)
    (hgets : gets.map asked = Mirror.gets fetchedAt (jobs.map Prod.snd)) :
    r.running = true ∧ ∀ job ∈ jobs,
      fileAt r.globals.host.store (fetchedAt job.2) = fileAt p.globals.host.store job.1 := by
  obtain ⟨hfair₁, hfair₂⟩ := Machine.meets_append.mp hfair
  have hshows₁ := (hbegins.shows hwilling htidy).run hfair₁
  rw [hp] at hshows₁ hfair₂
  have hshows₂ := hshows₁.run hfair₂
  rw [hq, List.map_append, hputs, ← hshows₁.view] at hshows₂
  have hview := hshows₂.view
  have hshows₃ := (hbegins'.shows hwilling' (hsame ▸ hshows₂.serverTidy)).run hfair'
  rw [hr, hgets] at hshows₃
  refine ⟨hshows₃.1, fun job hjob => ?_⟩
  have hnamed : ∀ cmd ∈ between.map asked, ∀ job ∈ jobs, cmd.shelved ≠ some job.2 := by
    intro cmd hcmd
    obtain ⟨line, hline, rfl⟩ := List.mem_map.mp hcmd
    exact hbetween line hline
  have hback := Mirror.home_restored (m := Cybrg.view p.globals.host.store (p.server P o).store)
    fetchedAt_injective hnames hheld hnamed (fileAt g'.host.store) hjob
  rw [← hview] at hback
  have hend := home_of_view hshows₃.view (fetchedAt job.2)
  rw [Cybrg.view, hsame] at hend
  exact hend.trans hback

/-! ### Two sessions -/

instance (server : Host) (sent replied : ℕ) (strCmd arg : Bytes) :
    Decidable (Fair server sent replied strCmd arg) :=
  decidable_of_iff (strCmd ≠ text "q" ∧ (0 : Byte) ∉ arg ∧ arg.length + 25 < bufferSize ∧
      (strCmd = text "put" → Direct arg) ∧ (strCmd = text "get" → arg ≠ dot ∧ arg ≠ dotDot) ∧
      (strCmd = text "rls" →
        ∀ names, lists server = some names → (listing names).length ≤ bufferSize) ∧
      Room sent replied (2 ^ 20 + 1) (2 ^ 20 + 2))
    ⟨fun h => ⟨h.1, h.2.1, h.2.2.1, h.2.2.2.1, h.2.2.2.2.1, h.2.2.2.2.2.1, h.2.2.2.2.2.2⟩,
      fun h => ⟨h.stays, h.nonzero, h.short, h.direct, h.child, h.listing, h.room⟩⟩

instance (p : Prompt Talk) (line : Option Bytes) : Decidable (p.Fair P o line) :=
  inferInstanceAs (Decidable (ClientMain.Fair (p.server P o) p.globals.packets.length (p.replied P o)
    (lineWords line).1 (lineWords line).2))

/-- A client with a file to send, and a directory for downloads. -/
theorem begins_newcomer : Begins (.sample 1) ServerClient.oneFile (newcomer homeWithDownloads) :=
  ⟨rfl, rfl, rfl, rfl, ⟨rfl, rfl⟩, .of_entries (by decide) (by decide) (by decide)⟩

theorem oneFile_tidy : ServerTidy ServerClient.oneFile.host.store :=
  .of_entries (by decide) (by decide)

/-- The client behind an upload and a removal. -/
def afterTwo : Prompt Talk :=
  (Machine.run (Prompt.step (.talk .sample .little)) ⟨true, newcomer homeWithDownloads⟩
    [some (text "put b"), some (text "rm a")]).1

theorem session_is_shelf_two :
    afterTwo.running = true ∧
      fileAt (afterTwo.server .sample .little).store (keptAt (text "a")) = none ∧
      fileAt (afterTwo.server .sample .little).store (keptAt (text "b")) = some (text "pqr") := by
  have hlines : (Machine.run (Prompt.step (.talk .sample .little))
      ⟨true, newcomer homeWithDownloads⟩ [some (text "put b"), some (text "rm a")]).1 = afterTwo := rfl
  obtain ⟨hrunning, hview⟩ := session_is_shelf begins_newcomer ⟨rfl, rfl⟩ oneFile_tidy hlines
    (by decide +kernel)
  refine ⟨hrunning, ?_, ?_⟩
  · exact (shelf_of_view hview (text "a")).trans (by decide +kernel)
  · exact (shelf_of_view hview (text "b")).trans (by decide +kernel)

/-- The server at the beginning of another session. -/
def laterServer : ServerClient.Client Unit where
  link := ()
  host := { store :=
    { entries := [([], .dir), (serverRootPath, .dir), (serverRootPath ++ [text "b"], .file (text "pqr"))]
      nodup := by decide } }

theorem laterServer_store : laterServer.host.store = (afterTwo.server .sample .little).store :=
  Store.ext (by decide +kernel) (by decide +kernel)

/-- Another client with a directory for downloads and a file of that name elsewhere. -/
def laterClient : Globals Talk where
  link := Talk.new (.sample 2) laterServer
  host := { store :=
    { entries := [([], .dir), ([text "downloads"], .dir), ([text "b"], .file (text "old"))]
      nodup := by decide } }

theorem begins_later : Begins (.sample 2) laterServer laterClient :=
  ⟨rfl, rfl, rfl, rfl, ⟨rfl, rfl⟩, .of_entries (by decide) (by decide) (by decide)⟩

/-- This client behind its download. -/
def afterGet : Prompt Talk :=
  (Machine.run (Prompt.step (.talk .sample .little)) ⟨true, laterClient⟩ [some (text "get b")]).1

/-- The file of three bytes. -/
theorem backup_restore_one :
    fileAt afterGet.globals.host.store (fetchedAt (text "b")) = some (text "pqr") := by
  have hheld : fileAt (newcomer homeWithDownloads).host.store [text "b"] = some (text "pqr") := by decide
  have hputs : [some (text "put b")].map asked = Mirror.puts [([text "b"], text "b")] := by decide
  have hheld' : ∀ job ∈ [([text "b"], text "b")], ∃ content,
      fileAt (newcomer homeWithDownloads).host.store job.1 = some content ∧ sendable content = true :=
    fun job hjob => ⟨text "pqr", by rw [List.mem_singleton.mp hjob]; exact hheld, by decide⟩
  have hrm : ∀ line ∈ [some (text "rm a")], ∀ job ∈ [([text "b"], text "b")],
      (asked line).shelved ≠ some job.2 := by decide
  -- nothing is typed before the upload
  have hfirst : (Machine.run (Prompt.step (.talk .sample .little))
      ⟨true, newcomer homeWithDownloads⟩ []).1 = ⟨true, newcomer homeWithDownloads⟩ := rfl
  have htwo : (Machine.run (Prompt.step (.talk .sample .little)) ⟨true, newcomer homeWithDownloads⟩
      ([some (text "put b")] ++ [some (text "rm a")])).1 = afterTwo := rfl
  have hget : (Machine.run (Prompt.step (.talk .sample .little)) ⟨true, laterClient⟩
      [some (text "get b")]).1 = afterGet := rfl
  have hback := backup_restore begins_newcomer ⟨rfl, rfl⟩ oneFile_tidy hfirst htwo (by decide +kernel)
    hputs (by decide) hheld' hrm begins_later ⟨rfl, rfl⟩ laterServer_store hget (by decide +kernel)
    (by decide)
  exact (hback.2 _ List.mem_cons_self).trans hheld

end ClientMain

end Cybrg
