import Cybrg.Conversation.InStep
import Cybrg.Server.Confinement

/-!
# What is put is what is got

A file that is sent to the server and asked for again comes back as it was, if nothing in between
touches the server's copy.

* `Keeps` — the server has the file, and no symbolic link leads to it;
* `Spares`, `Effect.keeps` — the commands that leave it alone;
* `Puts`, `put_back` — the upload;
* `Gets`, `get_back` — the download;
* `put_get` — a session with both, and with other commands before and between;
* `listing_ends_session` — a listing that does not fit into a packet, between the two.
-/

namespace Cybrg

open Octets Streams Files
open ServerClient hiding onLink onHost sendCmd onLink_of_ok onHost_of_ok cmdStor_refused
  cmdRetr_refused dispatch

variable {P : Primitives} {o : ByteOrder}

/-! ### The server's copy -/

/-- Where the server keeps a file. -/
def keptAt (name : Bytes) : Path := serverRootPath ++ [name]

/-- The path of a request leads there for that name only. -/
theorem eq_of_place {s : Store} (hroot : s.get serverRootPath = some .dir) {filename name : Bytes}
    (h : parola filename = true) (hplace : s.place (fullpath filename) = some (keptAt name)) :
    filename = name := by
  rw [place_fullpath hroot h] at hplace
  have hpath := Option.some.inj hplace
  split at hpath
  · exact absurd hpath (by simp [keptAt, serverRootPath])
  · split at hpath
    · exact absurd hpath (by simp [keptAt])
    · exact (List.cons.inj (List.append_cancel_left hpath)).1

/-- What an upload that is accepted opens. -/
theorem storOpened_store {h : Host} {filename : Bytes} {p : Path}
    (hpath : destination h filename = some p) : parola filename = true ∧
      ∃ was, h.store.truncates (fullpath filename) = some (p, was) ∧
        (storOpened h filename).store = h.store.truncate p := by
  unfold destination at hpath
  split at hpath
  · rename_i hname
    obtain ⟨⟨p', was⟩, hx, rfl⟩ := Option.map_eq_some_iff.mp hpath
    refine ⟨hname.2, was, Host.of_tries hx, ?_⟩
    rw [storOpened, hx]
    rfl
  · cases hpath

/-- Where a path leads at which there is no symbolic link. -/
theorem follow_of_file {s : Store} {p : Path} (h : ∀ node, s.get p = some node → node.IsFile) :
    s.follow p = p :=
  Store.follow_of_ne_link fun _ hlink => h _ hlink

/-- What a request opens for a name in a root with no other nodes than files. -/
theorem opened_keptAt {s : Store} {name : Bytes} (h : parola name = true)
    (hp : Proper (fullpath name)) (hroot : s.get serverRootPath = some .dir)
    (hplace : ∀ node, s.get (keptAt name) = some node → node.IsFile) :
    (s.place (fullpath name)).map s.follow = some (keptAt name) := by
  rw [place_of_proper hroot h hp, Option.map_some]
  exact congrArg some (follow_of_file hplace)

/-- What an upload opens, if there is no other node than a file. -/
theorem truncates_keptAt {s : Store} {name : Bytes} (h : parola name = true)
    (hp : Proper (fullpath name)) (hroot : s.get serverRootPath = some .dir)
    (hplace : ∀ node, s.get (keptAt name) = some node → node.IsFile) :
    s.truncates (fullpath name) = some (keptAt name, s.get (keptAt name)) := by
  unfold Store.truncates
  rw [opened_keptAt h hp hroot hplace, Option.bind_some, if_pos hp]
  cases hget : s.get (keptAt name) with
  | none =>
    have hdir : s.get (keptAt name).dropLast = some .dir := by
      rw [keptAt, List.dropLast_concat]
      exact hroot
    exact if_pos ⟨by simp [keptAt], hdir⟩
  | some node =>
    have hfile := hplace node hget
    cases node with
    | file was => rfl
    | _ => cases hfile

/-- What a download opens. -/
theorem reads_keptAt {s : Store} {name content : Bytes} (h : parola name = true)
    (hp : Proper (fullpath name)) (hroot : s.get serverRootPath = some .dir)
    (hfile : s.get (keptAt name) = some (.file content)) :
    s.reads (fullpath name) = some (keptAt name, .file content) := by
  have hplace : ∀ node, s.get (keptAt name) = some node → node.IsFile := by
    intro node hnode
    rw [hfile] at hnode
    cases hnode
    trivial
  unfold Store.reads
  rw [opened_keptAt h hp hroot hplace, Option.bind_some, hfile]
  exact if_pos hp

/-- The server has the file in its root, and no symbolic link leads to it. -/
structure Keeps (s : Store) (name content : Bytes) : Prop where
  root : s.get serverRootPath = some .dir
  file : s.get (keptAt name) = some (.file content)
  links : ∀ q, s.get q ≠ some (.link (keptAt name))

namespace Keeps

variable {s : Store} {name content : Bytes} {p : Path}

/-- Another node is replaced, and by no link. -/
theorem set (h : Keeps s name content) (hp : p ≠ keptAt name) (hdir : s.get p ≠ some .dir)
    (bs : Bytes) : Keeps (s.set p (.file bs)) name content := by
  have hroot : serverRootPath ≠ p := by
    rintro rfl
    exact hdir h.root
  refine ⟨(s.get_set_ne _ hroot).trans h.root, (s.get_set_ne _ hp.symm).trans h.file, fun q => ?_⟩
  rw [Store.get_set]
  split
  · exact fun hlink => nomatch hlink
  · exact h.links q

/-- A file that was written just now. -/
theorem of_set (hroot : s.get serverRootPath = some .dir)
    (h : ∀ q, s.get q ≠ some (.link (keptAt name))) (content : Bytes) :
    Keeps (s.set (keptAt name) (.file content)) name content := by
  have hne : serverRootPath ≠ keptAt name := by simp [keptAt, serverRootPath]
  refine ⟨(s.get_set_ne _ hne).trans hroot, by rw [Store.get_set, if_pos rfl], fun q => ?_⟩
  rw [Store.get_set]
  split
  · exact fun hlink => nomatch hlink
  · exact h q

theorem truncate (h : Keeps s name content) (hp : p ≠ keptAt name) (hdir : s.get p ≠ some .dir) :
    Keeps (s.truncate p) name content := by
  unfold Store.truncate
  split
  · exact h
  · exact h.set hp hdir _

theorem append (h : Keeps s name content) (hp : p ≠ keptAt name) (bs : Bytes) :
    Keeps (s.append p bs) name content := by
  unfold Store.append
  split
  · rename_i was hget
    exact h.set hp (by rw [hget]; simp) _
  · exact h

theorem erase (h : Keeps s name content) (hp : p ≠ keptAt name) (hroot : p ≠ serverRootPath) :
    Keeps (s.erase p) name content := by
  refine ⟨(s.get_erase_ne hroot.symm).trans h.root, (s.get_erase_ne hp.symm).trans h.file,
    fun q hlink => ?_⟩
  by_cases hq : q = p
  · rw [hq, Store.get_erase_self] at hlink
    cases hlink
  · rw [s.get_erase_ne hq] at hlink
    exact h.links q hlink

/-- What is removed by another name is something else. -/
theorem deleted {h : Host} (hk : Keeps h.store name content) (hdotDot : name ≠ dotDot)
    {filename : Bytes} (hne : filename ≠ name) : Keeps (deleted h filename).2.store name content := by
  unfold ServerClient.deleted
  split
  · exact hk
  · rename_i hparola
    cases hremoves : h.tries (h.store.removes (fullpath filename)) with
    | none => exact hk
    | some x =>
      obtain ⟨p, node⟩ := x
      have hremoved := Host.of_tries hremoves
      obtain ⟨hplace, hget⟩ := Store.place_of_removes hremoved
      refine hk.erase ?_ ?_
      · rintro rfl
        exact hne (eq_of_place hk.root (by simpa using hparola) hplace)
      · rintro rfl
        -- the root is not empty
        cases hk.root.symm.trans hget
        have hmem : name ∈ h.store.children serverRootPath := Store.mem_children hk.file hdotDot
        rw [Store.children_of_removes hremoved] at hmem
        exact List.not_mem_nil hmem

/-- What is written by another name is something else. -/
theorem stored {c : ServerClient.Client Unit} (hk : Keeps c.host.store name content)
    {filename : Bytes} (hne : filename ≠ name)
    (hpath : destination c.host filename = some p) (size : ℤ) (body : Bytes) :
    Keeps (c.stored filename size p body).host.store name content := by
  obtain ⟨hparola, was, htruncates, hstore⟩ := storOpened_store hpath
  obtain ⟨hopened, rfl, hdir, -⟩ := Store.place_of_truncates htruncates
  have hp : p ≠ keptAt name := by
    rintro rfl
    obtain ⟨q, hq, hfollow⟩ := Option.map_eq_some_iff.mp hopened
    rcases c.host.store.follow_cases q with hself | hlink
    · rw [← hself, hfollow] at hq
      exact hne (eq_of_place hk.root hparola hq)
    · exact hk.links q (hfollow ▸ hlink)
  have htruncated := hk.truncate hp hdir
  rw [← hstore] at htruncated
  exact htruncated.append hp _

end Keeps

/-! ### A system that refuses nothing -/

/-- No call fails that could succeed, and every byte can be read and written. -/
structure Host.Willing (h : Host) : Prop where
  faults : h.faults = []
  limits : h.limits = []

namespace Host.Willing

variable {h : Host} (hw : h.Willing)

include hw

theorem tries {α : Type} (x : Option α) : h.tries x = x := by
  rw [Host.tries, hw.faults]
  rfl

theorem called (action : Action) (x : Option (Path × Option Node × Store)) :
    (h.called action x).Willing := by
  refine ⟨?_, ?_⟩
  · rw [Host.called_faults, hw.faults]
    rfl
  · rw [Host.called_limits, hw.limits]

theorem recalled : h.recalled.Willing := ⟨hw.faults, hw.limits⟩

theorem readableOf (node : Node) : readableOf h node = (h.contents node).1 := by
  rw [ServerClient.readableOf, hw.limits]
  exact List.take_length

end Host.Willing

/-- The size of a file that may be sent is its length. -/
theorem Host.contents_file (h : Host) {content : Bytes} (hsize : content.length ≤ maxFileSize) :
    h.contents (.file content) = (content, (content.length : ℤ)) := by
  have hmax : maxFileSize = 4294967296 := rfl
  have hbmod : toInt64 content.length = content.length :=
    Int.bmod_eq_of_le (by omega) (by omega)
  rw [Host.contents, hbmod]

namespace ClientMain

/-- The size of a file that can be opened. -/
theorem checkAndGetFileSize_file {h : Host} (hw : h.Willing) {filepath content : Bytes} {p : Path}
    (hfile : h.store.reads filepath = some (p, .file content))
    (hsize : content.length ≤ maxFileSize) :
    ∃ h₁, (checkAndGetFileSize filepath).run h = .ok (some (content.length : ℤ)) h₁ ∧
      h₁.Willing ∧ h₁.store = h.store := by
  have hregular : (Host.isFile filepath).run h = .ok true { h with faults := h.faults.tail } := by
    unfold Host.isFile
    rw [Exec.bind_of_ok (EStateM.run_get h), Exec.bind_of_ok (EStateM.run_modify _ h), hw.tries,
      hfile]
    rfl
  have hw₁ : Host.Willing { h with faults := h.faults.tail } := hw.called .openIn none
  have hopen := Host.run_openIn filepath { h with faults := h.faults.tail }
  rw [hw₁.tries, hfile] at hopen
  unfold checkAndGetFileSize
  rw [Exec.bind_of_ok hregular, if_pos rfl, Exec.bind_of_ok hopen]
  refine ⟨Host.called { h with faults := h.faults.tail } .openIn
    (some (p, some (.file content), h.store)), ?_, hw₁.called .openIn _, rfl⟩
  show EStateM.Result.ok (if (maxFileSize : ℤ) < (Host.contents _ (.file content)).2 then none
    else some (Host.contents _ (.file content)).2) _ = _
  rw [Host.contents_file _ hsize, if_neg (not_lt.mpr hsize)]
  rfl

/-! ### Between the two -/

/-- A command that does not name the file.  For `rm`, a name ends at its first zero byte. -/
structure Spares (name strCmd arg : Bytes) : Prop where
  put : strCmd = text "put" → lastComponent arg ≠ name
  rm : strCmd = text "rm" → upToZero arg ≠ name

/-- **A command that does not name the file** leaves it alone. -/
theorem Effect.keeps {h : Host} {name content strCmd arg : Bytes} {s : Store}
    (he : Effect h strCmd arg s) (hk : Keeps h.store name content) (hdotDot : name ≠ dotDot)
    (hspares : Spares name strCmd arg) : Keeps s name content := by
  cases he with
  | same => exact hk
  | removed hcmd => exact hk.deleted hdotDot (hspares.rm hcmd)
  | stored hcmd hhost hpath =>
    subst hhost
    exact hk.stored (hspares.put hcmd) hpath _ _

/-! ### The upload -/

/-- An upload of a file of at most `MAX_FILE_SIZE` bytes, to a system where every call succeeds. -/
structure Puts (server client : Host) (filepath content : Bytes) : Prop where
  serverWilling : server.Willing
  clientWilling : client.Willing
  opens : ∃ p, client.store.reads filepath = some (p, .file content)
  size : content.length ≤ maxFileSize
  header : (storText (lastComponent filepath) content.length).length < bufferSize
  parola : parola (lastComponent filepath) = true
  proper : Proper (fullpath (lastComponent filepath))
  root : server.store.get serverRootPath = some .dir
  place : ∀ node, server.store.get (keptAt (lastComponent filepath)) = some node → node.IsFile

section

variable {k : SessionKeys} {c₀ c : ServerClient.Client Unit} {g : Globals Talk} {h₁ h₂ : Host}
  {filepath content : Bytes}

theorem Puts.destination (h : Puts h₁ h₂ filepath content) :
    destination h₁ (lastComponent filepath) = some (keptAt (lastComponent filepath)) := by
  obtain ⟨hne, -, -⟩ := (proper_fullpath_iff h.parola).mp h.proper
  rw [ServerClient.destination, if_pos ⟨hne, h.parola⟩, h.serverWilling.tries,
    truncates_keptAt h.parola h.proper h.root h.place]
  rfl

/-- The server's files, when it has stored the body. -/
theorem Puts.stored (h : Puts c.host h₂ filepath content) :
    (c.stored (lastComponent filepath) content.length (keptAt (lastComponent filepath))
      content).host.store
      = c.host.store.set (keptAt (lastComponent filepath)) (.file content) := by
  obtain ⟨-, was, -, hopened⟩ := storOpened_store h.destination
  have hlimits : (storOpened c.host (lastComponent filepath)).limits = [] := by
    rw [storOpened, Host.called_limits]
    exact h.serverWilling.limits
  have hspecial : ∀ reads, c.host.store.get (keptAt (lastComponent filepath))
      ≠ some (.special reads) := fun reads hget => h.place _ hget
  rw [← Store.append_truncate hspecial content, ← hopened]
  show Store.append _ _ (content.take _) = _
  rw [hlimits]
  exact congrArg _ List.take_length

theorem dispatch_put {τ : Type} (t : Transport τ) (arg : Bytes) :
    ClientMain.dispatch t (text "put") arg = ClientMain.cmdStor t arg >>= fun _ => pure true := rfl

theorem dispatch_get {τ : Type} (t : Transport τ) (arg : Bytes) :
    ClientMain.dispatch t (text "get") arg = ClientMain.cmdRetr t arg >>= fun _ => pure true := rfl

/-- A line with a command in it. -/
theorem round_command {τ : Type} {t : Transport τ} {g : Globals τ} {line : Option Bytes}
    {strCmd arg : Bytes} (hline : lineWords line = (strCmd, arg)) (hne : strCmd ≠ []) :
    ∃ is, (round t line).run g = (ClientMain.dispatch t strCmd arg).run { g with is } := by
  have hround := round_line t line g
  rw [hline] at hround
  by_cases hnil : line.getD (text "q") = []
  · have hwords : lineWords line = ([], []) := by
      rw [lineWords, hnil]
      rfl
    rw [hwords] at hline
    exact absurd (Prod.mk.inj hline).1.symm hne
  · rw [if_neg hnil] at hround
    exact ⟨_, hround⟩

/-- **The upload.** -/
theorem put_back (h : AtPrompt P o k c₀ c g) {line : Option Bytes}
    (hline : lineWords line = (text "put", filepath)) (hputs : Puts c.host g.host filepath content)
    (hroom : Room g.packets.length c.packets.length
      (1 + (content.length + (bufferSize - 1)) / bufferSize) 1) :
    ∃ c₁ g', (round (.talk P o) line).run g = .ok true g' ∧ AtPrompt P o k c₀ c₁ g' ∧
      c₁.host.store = c.host.store.set (keptAt (lastComponent filepath)) (.file content) := by
  obtain ⟨is, hround⟩ := round_command (g := g) (t := .talk P o) hline (by decide)
  have h' : AtPrompt P o k c₀ c { g with is } := h.of_eq rfl rfl
  have hword : Word filepath := by
    have hw := IStream.word_word (({ rest := line.getD (text "q") } : IStream).word []).2
    rwa [show _ = filepath from (Prod.mk.inj hline).2] at hw
  have hne : filepath ≠ [] := by
    rintro rfl
    exact ((proper_fullpath_iff hputs.parola).mp hputs.proper).1 rfl
  obtain ⟨p, hfile⟩ := hputs.opens
  obtain ⟨h₁, hcheck, hw₁, hstore₁⟩ :=
    checkAndGetFileSize_file hputs.clientWilling hfile hputs.size
  have hopened : h₁.tries (h₁.store.reads filepath) = some (p, .file content) := by
    rw [hw₁.tries, hstore₁, hfile]
  have hrun := cmdStor_run h' hne hword.lastComponent hcheck hputs.header hputs.destination hopened rfl
  -- what is sent is the file
  generalize hh₂ : h₁.recalled.called .openIn (some (p, some (.file content), h₁.store)) = h₂ at hrun
  have hw₂ : h₂.Willing := hh₂ ▸ hw₁.recalled.called _ _
  have hreadable : readableOf h₂ (.file content) = content := by
    rw [hw₂.readableOf, Host.contents_file _ hputs.size]
  have hsent : (putFragments h₂ (.file content) content.length).flatten = content := by
    rw [putFragments, hreadable]
    exact fragments_flatten _ (by rw [List.length_map, List.length_range]) (le_refl _)
      (Int.toNat_natCast _).symm
  rw [putFragments_count, Int.toNat_natCast, if_pos ⟨by rw [Nat.add_assoc]; exact hroom.1, hroom.2⟩,
    hsent] at hrun
  obtain ⟨g', hrun, hprompt⟩ := hrun
  refine ⟨_, g', ?_, hprompt, hputs.stored⟩
  rw [hround, dispatch_put]
  exact Exec.bind_of_ok hrun

/-! ### The download -/

theorem retr_fits {name : Bytes} {size : ℤ} (h : (storText name size).length < bufferSize) :
    (retrText name).length < bufferSize := by
  refine Nat.lt_of_le_of_lt ?_ h
  simp only [retrText, storText, List.length_append]
  have hcmd : (text "RETR ").length = (text "STOR ").length := rfl
  omega

/-- A download into a file, on systems where every call succeeds. -/
structure Gets (server client : Host) (name : Bytes) : Prop where
  serverWilling : server.Willing
  clientWilling : client.Willing
  opens : ∃ p was, client.store.truncates (clientRoot ++ name) = some (p, was) ∧
    ∀ reads, was ≠ some (.special reads)

/-- The client's files, when it has written what it has read. -/
theorem Gets.received {name : Bytes} (h : Gets h₁ h₂ name) (content : Bytes) :
    (received h₂ name content.length (content.take content.length)).store.held (clientRoot ++ name)
      = some (.file content) := by
  obtain ⟨p, was, htruncates, hspecial⟩ := h.opens
  obtain ⟨-, hget, -, -⟩ := Store.place_of_truncates htruncates
  rw [← hget] at hspecial
  have hstore : (ClientMain.received h₂ name content.length (content.take content.length)).store
      = (h₂.store.truncate p).append p content := by
    rw [ClientMain.received, if_neg (by omega), h.clientWilling.tries, htruncates]
    show Store.append _ _ (List.take _ _) = _
    rw [h.clientWilling.limits, List.take_length]
    exact congrArg _ List.take_length
  rw [hstore, Store.append_truncate hspecial]
  exact Store.held_set htruncates content

/-- **The download.** -/
theorem get_back (h : AtPrompt P o k c₀ c g) {line : Option Bytes} {name : Bytes}
    (hline : lineWords line = (text "get", name)) (hparola : parola name = true)
    (hproper : Proper (fullpath name)) (hfits : (retrText name).length < bufferSize)
    (hkeeps : Keeps c.host.store name content) (hsize : content.length ≤ maxFileSize)
    (hgets : Gets c.host g.host name)
    (hroom : Room g.packets.length c.packets.length 1 (1 + (bodyPackets content).length)) :
    ∃ c₁ g', (round (.talk P o) line).run g = .ok true g' ∧ AtPrompt P o k c₀ c₁ g' ∧
      g'.host.store.held (clientRoot ++ name) = some (.file content) := by
  obtain ⟨is, hround⟩ := round_command (g := g) (t := .talk P o) hline (by decide)
  have h' : AtPrompt P o k c₀ c { g with is } := h.of_eq rfl rfl
  obtain ⟨hne, -, -⟩ := (proper_fullpath_iff hparola).mp hproper
  have hopened : opened c.host (upToZero name) = (some (.file content),
      c.host.called .openIn (some (keptAt name, some (.file content), c.host.store))) := by
    rw [upToZero_of_nonzero (parola_nonzero hparola), opened, if_neg (by rw [hparola]; decide),
      hgets.serverWilling.tries, reads_keptAt hparola hproper hkeeps.root hkeeps.file]
    rfl
  have hw := hgets.serverWilling.called .openIn (some (keptAt name, some (.file content), c.host.store))
  have hcontents := Host.contents_file (c.host.called .openIn
    (some (keptAt name, some (.file content), c.host.store))) hsize
  obtain ⟨p, was, htruncates, -⟩ := hgets.opens
  have htaken : taken g.host name content.length = content.length := by
    rw [taken_of_some (Int.natCast_nonneg _) (by rw [hgets.clientWilling.tries, htruncates]),
      Int.toNat_natCast]
  have hrun := cmdRetr_run h' (parola_word hparola) hne hfits hopened
    (by rw [hw.readableOf, hcontents]; exact htaken.ge)
  rw [hw.readableOf, hcontents] at hrun
  dsimp only at hrun
  rw [htaken, if_pos ⟨hroom.1, by rw [Nat.add_assoc]; exact hroom.2, le_refl _⟩] at hrun
  obtain ⟨g', hrun, hreceived, c₁, hprompt, -⟩ := hrun
  refine ⟨c₁, g', ?_, hprompt, ?_⟩
  · rw [hround, dispatch_get]
    exact Exec.bind_of_ok hrun
  · rw [hreceived]
    exact hgets.received content

/-! ### Sessions -/

/-- The system that the server runs on. -/
def Prompt.server (P : Primitives) (o : ByteOrder) (p : Prompt Talk) : Host :=
  (p.globals.link.served P o).host

/-- How many packets the server has sent. -/
def Prompt.replied (P : Primitives) (o : ByteOrder) (p : Prompt Talk) : ℕ :=
  (p.globals.link.served P o).packets.length

/-- After the next line both programs are in step, and the client is at its prompt. -/
structure Prompt.Goes (P : Primitives) (o : ByteOrder) (p : Prompt Talk) (line : Option Bytes) :
    Prop where
  inStep : p.InStep P o line
  completes : Completes (p.server P o) p.globals.host p.globals.packets.length (p.replied P o)
    (lineWords line).1 (lineWords line).2

/-- The program waits for a line, and the server has become `c`. -/
structure Waits (P : Primitives) (o : ByteOrder) (k : SessionKeys) (c₀ c : ServerClient.Client Unit)
    (p : Prompt Talk) : Prop where
  running : p.running = true
  atPrompt : AtPrompt P o k c₀ c p.globals

namespace Waits

variable {p : Prompt Talk} {line : Option Bytes}

theorem server (h : Waits P o k c₀ c p) : p.server P o = c.host := h.atPrompt.served_host

theorem replied (h : Waits P o k c₀ c p) : p.replied P o = c.packets.length := by
  rw [Prompt.replied, served_packets h.atPrompt.awaiting.conversing, h.atPrompt.replies]

theorem of_ok {c₁ : ServerClient.Client Unit} {g' : Globals Talk} (h : Waits P o k c₀ c p)
    (hrun : (round (.talk P o) line).run p.globals = .ok true g') (hprompt : AtPrompt P o k c₀ c₁ g') :
    (Prompt.step (.talk P o) p line).1 = ⟨true, g'⟩ ∧
      Waits P o k c₀ c₁ (Prompt.step (.talk P o) p line).1 := by
  have hstep : (Prompt.step (.talk P o) p line).1 = ⟨true, g'⟩ := by
    rw [Prompt.step, if_pos h.running, hrun]
  rw [hstep]
  exact ⟨rfl, rfl, hprompt⟩

/-- **A line** that goes well. -/
theorem step (h : Waits P o k c₀ c p) (hgoes : p.Goes P o line) :
    ∃ c₁, Waits P o k c₀ c₁ (Prompt.step (.talk P o) p line).1 ∧
      Effect c.host (lineWords line).1 (lineWords line).2 c₁.host.store := by
  have hinStep := hgoes.inStep h.running
  have hcompletes := hgoes.completes
  rw [h.replied, h.server] at hcompletes
  rw [h.atPrompt.served_host] at hinStep
  obtain ⟨g', hrun, c₁, hprompt, heffect⟩ := (round_back h.atPrompt hinStep).back hcompletes
  exact ⟨c₁, (h.of_ok hrun hprompt).2, heffect⟩

/-- **Lines** that go well. -/
theorem run (h : Waits P o k c₀ c p) {lines : List (Option Bytes)}
    (hgoes : Machine.Meets (Prompt.step (.talk P o)) (Prompt.Goes P o) p lines) :
    ∃ c₁, Waits P o k c₀ c₁ (Machine.run (Prompt.step (.talk P o)) p lines).1 := by
  refine Machine.invariant_run (I := fun q => ∃ c₁, Waits P o k c₀ c₁ q) ?_ ⟨c, h⟩ hgoes
  rintro q line ⟨c', hq⟩ hline
  obtain ⟨c₁, hq₁, -⟩ := hq.step hline
  exact ⟨c₁, hq₁⟩

/-- **Lines that do not name a file** leave it alone. -/
theorem run_keeps (h : Waits P o k c₀ c p) {name content : Bytes} (hdotDot : name ≠ dotDot)
    (hkeeps : Keeps c.host.store name content) {lines : List (Option Bytes)}
    (hgoes : Machine.Meets (Prompt.step (.talk P o)) (fun q line => q.Goes P o line ∧
      Spares name (lineWords line).1 (lineWords line).2) p lines) :
    ∃ c₁, Waits P o k c₀ c₁ (Machine.run (Prompt.step (.talk P o)) p lines).1 ∧
      Keeps c₁.host.store name content := by
  refine Machine.invariant_run
    (I := fun q => ∃ c₁, Waits P o k c₀ c₁ q ∧ Keeps c₁.host.store name content) ?_ ⟨c, h, hkeeps⟩ hgoes
  rintro q line ⟨c', hq, hkept⟩ ⟨hline, hspares⟩
  obtain ⟨c₁, hq₁, heffect⟩ := hq.step hline
  exact ⟨c₁, hq₁, heffect.keeps hkept hdotDot hspares⟩

end Waits

/-- **What is put is what is got.**  A session begins, and its user types lines.  A file is put whose
name in the root is free or that of a regular file, and every system call succeeds: then the other
files of the server stay as they are.  If the lines after it go well and do not name the file, and no
symbolic link leads to it, a `get` brings back what was put. -/
theorem put_get {c : ServerClient.Client Unit} (hpackets : c.packets = []) (hos : c.os = [])
    {g : Globals Talk} (hg : g.packets = []) (hlink : g.link = Talk.new k c)
    {before between : List (Option Bytes)} {put get : Option Bytes} {filepath content : Bytes}
    (hput : lineWords put = (text "put", filepath))
    (hget : lineWords get = (text "get", lastComponent filepath)) {p q : Prompt Talk}
    (hp : (Machine.run (Prompt.step (.talk P o)) ⟨true, g⟩ before).1 = p)
    (hq : (Machine.run (Prompt.step (.talk P o)) (Prompt.step (.talk P o) p put).1 between).1 = q)
    (hbefore : Machine.Meets (Prompt.step (.talk P o)) (Prompt.Goes P o) ⟨true, g⟩ before)
    (hputs : Puts (p.server P o) p.globals.host filepath content)
    (hroom : Room p.globals.packets.length (p.replied P o)
      (1 + (content.length + (bufferSize - 1)) / bufferSize) 1) :
    (Prompt.step (.talk P o) p put).1.running = true ∧
    (∀ path, path ≠ keptAt (lastComponent filepath) →
      ((Prompt.step (.talk P o) p put).1.server P o).store.get path
        = (p.server P o).store.get path) ∧
    ((∀ path, (p.server P o).store.get path ≠ some (.link (keptAt (lastComponent filepath)))) →
      Machine.Meets (Prompt.step (.talk P o)) (fun r line => r.Goes P o line ∧
        Spares (lastComponent filepath) (lineWords line).1 (lineWords line).2)
        (Prompt.step (.talk P o) p put).1 between →
      Gets (q.server P o) q.globals.host (lastComponent filepath) →
      Room q.globals.packets.length (q.replied P o) 1 (1 + (bodyPackets content).length) →
      (Prompt.step (.talk P o) q get).1.running = true ∧
      (Prompt.step (.talk P o) q get).1.globals.host.store.held
        (clientRoot ++ lastComponent filepath) = some (.file content)) := by
  have hbegins : Waits P o k c c ⟨true, g⟩ := ⟨rfl, .new hpackets hos hg hlink⟩
  obtain ⟨c₁, hwaits₁⟩ := hbegins.run hbefore
  rw [hp] at hwaits₁
  rw [hwaits₁.replied] at hroom
  rw [hwaits₁.server] at hputs ⊢
  -- the upload
  obtain ⟨c₂, g₂, hrun, hprompt, hstore⟩ := put_back hwaits₁.atPrompt hput hputs hroom
  obtain ⟨-, hwaits₂⟩ := hwaits₁.of_ok hrun hprompt
  refine ⟨hwaits₂.running, fun path hne => ?_, fun hlinks hbetween hgets hroom' => ?_⟩
  · rw [hwaits₂.server, hstore]
    exact Store.get_set_ne _ _ hne
  · have hkeeps : Keeps c₂.host.store (lastComponent filepath) content := by
      rw [hstore]
      exact .of_set hputs.root hlinks content
    -- the lines after it
    obtain ⟨-, -, hdotDot⟩ := (proper_fullpath_iff hputs.parola).mp hputs.proper
    obtain ⟨c₃, hwaits₃, hkept⟩ := hwaits₂.run_keeps hdotDot hkeeps hbetween
    rw [hq] at hwaits₃
    rw [hwaits₃.replied] at hroom'
    rw [hwaits₃.server] at hgets
    -- the download
    obtain ⟨c₄, g₄, hrun', hprompt', hheld⟩ := get_back hwaits₃.atPrompt hget hputs.parola
      hputs.proper (retr_fits hputs.header) hkept hputs.size hgets hroom'
    obtain ⟨hstep, -⟩ := hwaits₃.of_ok hrun' hprompt'
    rw [hstep]
    exact ⟨rfl, hheld⟩

end

/-! ### A session -/

instance (p : Prompt Talk) (line : Option Bytes) : Decidable (p.Goes P o line) :=
  decidable_of_iff (p.InStep P o line ∧ Completes (p.server P o) p.globals.host
      p.globals.packets.length (p.replied P o) (lineWords line).1 (lineWords line).2)
    ⟨fun h => ⟨h.1, h.2⟩, fun h => ⟨h.inStep, h.completes⟩⟩

instance (name strCmd arg : Bytes) : Decidable (Spares name strCmd arg) :=
  decidable_of_iff ((strCmd = text "put" → lastComponent arg ≠ name) ∧
      (strCmd = text "rm" → upToZero arg ≠ name)) ⟨fun h => ⟨h.1, h.2⟩, fun h => ⟨h.put, h.rm⟩⟩

/-- A client at the beginning of a session. -/
def beforePut : Prompt Talk := ⟨true, newcomer homeWithDownloads⟩

/-- The client when it has sent a file and has had another one removed. -/
def beforeGet : Prompt Talk :=
  (Machine.run (Prompt.step (.talk .sample .little)) (Prompt.step (.talk .sample .little) beforePut
    (some (text "put b"))).1 [some (text "rm a")]).1

/-- The file of three bytes comes back. -/
theorem put_get_three :
    (Prompt.step (.talk .sample .little) beforeGet
      (some (text "get b"))).1.globals.host.store.held (clientRoot ++ text "b")
        = some (.file (text "pqr")) := by
  have hplace : (beforePut.server .sample .little).store.get (keptAt (text "b")) = none := by decide +kernel
  have hlinks : ∀ path, (beforePut.server .sample .little).store.get path
      ≠ some (.link (keptAt (text "b"))) := by
    intro path hlink
    have hnone : ∀ e ∈ (beforePut.server .sample .little).store.entries,
        e.2 ≠ .link (keptAt (text "b")) := by decide +kernel
    exact hnone _ (Store.mem_of_get hlink) rfl
  have hputs : Puts (beforePut.server .sample .little) beforePut.globals.host (text "b") (text "pqr") := by
    refine ⟨⟨by decide +kernel, by decide +kernel⟩, ⟨rfl, rfl⟩, ⟨[text "b"], by decide⟩, by decide,
      by decide, by decide, by decide, by decide +kernel, fun node hnode => ?_⟩
    have hcontra := hplace.symm.trans hnode
    cases hcontra
  have hstate : ((beforeGet.server .sample .little).faults = [] ∧
      (beforeGet.server .sample .little).limits = []) ∧
      (beforeGet.globals.host.faults = [] ∧ beforeGet.globals.host.limits = []) ∧
      beforeGet.globals.host.store.truncates (clientRoot ++ text "b")
        = some ([text "downloads", text "b"], none) ∧
      Room beforeGet.globals.packets.length (beforeGet.replied .sample .little) 1
        (1 + (bodyPackets (text "pqr")).length) := by
    decide +kernel
  obtain ⟨⟨hfaults, hlimits⟩, ⟨hfaults', hlimits'⟩, htruncates, hroom⟩ := hstate
  have hgets : Gets (beforeGet.server .sample .little) beforeGet.globals.host (text "b") :=
    ⟨⟨hfaults, hlimits⟩, ⟨hfaults', hlimits'⟩, _, none, htruncates, fun reads h => nomatch h⟩
  have hput : lineWords (some (text "put b")) = (text "put", text "b") := by decide
  have hget : lineWords (some (text "get b")) = (text "get", lastComponent (text "b")) := by decide
  have hbefore : (Machine.run (Prompt.step (.talk .sample .little))
      ⟨true, newcomer homeWithDownloads⟩ []).1 = beforePut := rfl
  have hafter : (Machine.run (Prompt.step (.talk .sample .little)) (Prompt.step
      (.talk .sample .little) beforePut (some (text "put b"))).1 [some (text "rm a")]).1 = beforeGet :=
    rfl
  have hbetween : Machine.Meets (Prompt.step (.talk .sample .little))
      (fun r line => r.Goes .sample .little line ∧
        Spares (lastComponent (text "b")) (lineWords line).1 (lineWords line).2)
      (Prompt.step (.talk .sample .little) beforePut (some (text "put b"))).1 [some (text "rm a")] := by
    decide +kernel
  exact ((put_get (k := .sample 1) (c := ServerClient.oneFile) rfl rfl rfl rfl hput hget hbefore hafter
    trivial hputs (by decide +kernel)).2.2 hlinks hbetween hgets hroom).2

/-- A server with twenty files whose names have 255 bytes. -/
def fullServer : ServerClient.Client Unit where
  link := ()
  host := { store :=
    { entries := ([], .dir) :: (serverRootPath, .dir)
        :: longNames.map fun n => (serverRootPath ++ [n], .file (text "xy"))
      nodup := by decide +kernel } }

/-- A client at the beginning of a session with this server. -/
def fullSession : Globals Talk where
  link := Talk.new (.sample 1) fullServer
  host := { store := homeWithDownloads }

/-- **A listing that does not fit into a packet** ends the session: the file is on the server, but it
does not come back. -/
theorem listing_ends_session :
    fullServer.host.Willing ∧ fullSession.host.Willing ∧
      Spares (text "b") (text "rls") [] ∧
      ((Machine.run (Prompt.step (.talk .sample .little)) ⟨true, fullSession⟩
        [some (text "put b")]).1.server .sample .little).store.get (keptAt (text "b"))
          = some (.file (text "pqr")) ∧
      (Machine.run (Prompt.step (.talk .sample .little)) ⟨true, fullSession⟩
        [some (text "put b"), some (text "rls")]).1.running = false ∧
      (Machine.run (Prompt.step (.talk .sample .little)) ⟨true, fullSession⟩
        [some (text "put b"), some (text "rls"), some (text "get b")]).1.globals.host.store.held
          (clientRoot ++ text "b") = none := by
  exact ⟨⟨rfl, rfl⟩, ⟨rfl, rfl⟩, by decide, by decide +kernel⟩

end ClientMain

end Cybrg
