import Cybrg.Conversation.CutFiles
import Cybrg.Conversation.OwnFiles
import Cybrg.Conversation.PutGet
import Cybrg.Library.Mirror
import Cybrg.Server.Calls
import Cybrg.Server.Frame

/-!
# What the user sees

To its user the system is a shelf for copies of files: `put`, `get` and `rm`.

* `view` — the files of the client, and those that the server keeps, as the user sees them;
* `command`, `asked` — what a command and a line ask for;
* `ClientTidy`, `ServerTidy` — systems with nothing but regular files where files are copied to.
-/

namespace Cybrg

open Octets Streams Files
open ServerClient hiding onLink onHost sendCmd onLink_of_ok onHost_of_ok cmdStor_refused
  cmdRetr_refused dispatch

variable {P : Primitives} {o : ByteOrder}

/-! ### Files as the user sees them -/

/-- The content of a regular file. -/
def fileAt (s : Store) (p : Path) : Option Bytes :=
  match s.get p with
  | some (.file content) => some content
  | _ => none

theorem fileAt_eq_some {s : Store} {p : Path} {content : Bytes} :
    fileAt s p = some content ↔ s.get p = some (.file content) := by
  unfold fileAt
  split
  · rename_i was hget
    rw [hget]
    simp
  · rename_i hno
    constructor
    · intro h
      cases h
    · intro h
      exact absurd h (hno content)

theorem fileAt_set (s : Store) (p : Path) (content : Bytes) :
    fileAt (s.set p (.file content)) = Function.update (fileAt s) p (some content) := by
  funext q
  by_cases hq : q = p
  · rw [hq, Function.update_self, fileAt_eq_some, Store.get_set, if_pos rfl]
  · rw [Function.update_of_ne hq]
    unfold fileAt
    rw [s.get_set_ne _ hq]

theorem fileAt_erase (s : Store) (p : Path) :
    fileAt (s.erase p) = Function.update (fileAt s) p none := by
  funext q
  by_cases hq : q = p
  · rw [hq, Function.update_self]
    unfold fileAt
    rw [s.get_erase_self]
  · rw [Function.update_of_ne hq]
    unfold fileAt
    rw [s.get_erase_ne hq]

theorem keptAt_injective : Function.Injective keptAt := by
  intro a b h
  exact (List.cons.inj (List.append_cancel_left h)).1

/-- What the user has, and what the server keeps. -/
def view (client server : Store) : Mirror.Pair Path Name Bytes where
  home := fileAt client
  shelf name := fileAt server (keptAt name)

theorem home_of_view {client server : Store} {m : Mirror.Pair Path Name Bytes}
    (h : view client server = m) (p : Path) : fileAt client p = m.home p := by
  rw [← h]
  rfl

theorem shelf_of_view {client server : Store} {m : Mirror.Pair Path Name Bytes}
    (h : view client server = m) (name : Name) : fileAt server (keptAt name) = m.shelf name := by
  rw [← h]
  rfl

theorem view_set_client (client server : Store) (p : Path) (content : Bytes) :
    view (client.set p (.file content)) server
      = { view client server with home := Function.update (fileAt client) p (some content) } := by
  simp only [view, fileAt_set]

/-- A change of what the server keeps under a name. -/
theorem update_keptAt (f : Path → Option Bytes) (name : Name) (x : Option Bytes) :
    (fun other => Function.update f (keptAt name) x (keptAt other))
      = Function.update (fun other => f (keptAt other)) name x := by
  funext other
  by_cases hother : other = name
  · rw [hother, Function.update_self, Function.update_self]
  · rw [Function.update_of_ne hother, Function.update_of_ne fun h => hother (keptAt_injective h)]

theorem view_set_server (client server : Store) (name : Name) (content : Bytes) :
    view client (server.set (keptAt name) (.file content))
      = { view client server with
          shelf := Function.update (view client server).shelf name (some content) } := by
  simp only [view, fileAt_set, update_keptAt]

theorem view_erase_server (client server : Store) (name : Name) :
    view client (server.erase (keptAt name))
      = { view client server with shelf := Function.update (view client server).shelf name none } := by
  simp only [view, fileAt_erase, update_keptAt]

/-- A file that is not too long to be sent. -/
def sendable (content : Bytes) : Bool := (content.length : ℤ) ≤ maxFileSize

theorem sendable_iff {content : Bytes} :
    sendable content = true ↔ (content.length : ℤ) ≤ maxFileSize := decide_eq_true_iff

/-- A name under which the server keeps a file. -/
structure Served (name : Bytes) : Prop where
  parola : parola name = true
  proper : Proper (fullpath name)

instance (name : Bytes) : Decidable (Served name) :=
  decidable_of_iff (parola name = true ∧ Proper (fullpath name))
    ⟨fun h => ⟨h.1, h.2⟩, fun h => ⟨h.parola, h.proper⟩⟩

namespace ClientMain

/-- Where the client puts what it fetches. -/
def fetchedAt (name : Name) : Path := [text "downloads", name]

/-- What a command asks for. -/
def command (strCmd arg : Bytes) : Mirror.Command Path Name :=
  if strCmd = text "put" ∧ Served (lastComponent arg) then
    .put (below arg) (lastComponent arg)
  else if strCmd = text "get" ∧ Served arg then .get arg (fetchedAt arg)
  else if strCmd = text "rm" ∧ Served arg then .remove arg
  else .other

/-- What a line asks for. -/
def asked (line : Option Bytes) : Mirror.Command Path Name :=
  command (lineWords line).1 (lineWords line).2

theorem asked_of_line {line : Option Bytes} {strCmd arg : Bytes}
    (hline : lineWords line = (strCmd, arg)) : asked line = command strCmd arg := by
  rw [asked, hline]

theorem command_put (path : Bytes) : command (text "put") path
    = if Served (lastComponent path) then .put (below path) (lastComponent path) else .other := by
  rw [command, if_neg fun hboth : text "put" = text "get" ∧ _ => absurd hboth.1 (by decide),
    if_neg fun hboth : text "put" = text "rm" ∧ _ => absurd hboth.1 (by decide)]
  simp only [true_and]

theorem command_get (name : Bytes) : command (text "get") name
    = if Served name then .get name (fetchedAt name) else .other := by
  rw [command, if_neg fun hboth : text "get" = text "put" ∧ _ => absurd hboth.1 (by decide),
    if_neg fun hboth : text "get" = text "rm" ∧ _ => absurd hboth.1 (by decide)]
  simp only [true_and]

theorem command_rm (name : Bytes) : command (text "rm") name
    = if Served name then .remove name else .other := by
  rw [command, if_neg fun hboth : text "rm" = text "put" ∧ _ => absurd hboth.1 (by decide),
    if_neg fun hboth : text "rm" = text "get" ∧ _ => absurd hboth.1 (by decide)]
  simp only [true_and]

/-- Other commands copy nothing. -/
theorem command_other {strCmd arg : Bytes} (hput : strCmd ≠ text "put") (hget : strCmd ≠ text "get")
    (hrm : strCmd ≠ text "rm") : command strCmd arg = .other := by
  rw [command, if_neg fun hboth => hput hboth.1, if_neg fun hboth => hget hboth.1,
    if_neg fun hboth => hrm hboth.1]

end ClientMain

theorem clientRoot_append (name : Bytes) :
    ClientMain.clientRoot ++ name = text "downloads" ++ slash :: name := by
  rw [List.append_cons]
  rfl

namespace Served

variable {name : Bytes} (h : Served name)

include h

theorem ne_nil : name ≠ [] := ((proper_fullpath_iff h.parola).mp h.proper).1

/-- Where a `get` leads. -/
theorem place_fetched {s : Store} (hdownloads : s.get [text "downloads"] = some .dir) :
    s.place (ClientMain.clientRoot ++ name) = some (ClientMain.fetchedAt name) := by
  obtain ⟨hne, hdot, hdotDot⟩ := (proper_fullpath_iff h.parola).mp h.proper
  have hchild := s.place_child (c := text "downloads") (by decide) (slash_not_mem_of_parola h.parola)
    (by decide) (parola_nonzero h.parola) (by decide) (by decide) (by decide)
  rw [Store.follow_of_dir hdownloads, if_neg hne, if_pos hdownloads,
    Store.stepInto_name hdot hdotDot (by decide)] at hchild
  rw [clientRoot_append]
  exact hchild

theorem proper_fetched : Proper (ClientMain.clientRoot ++ name) := by
  obtain ⟨hne, hdot, hdotDot⟩ := (proper_fullpath_iff h.parola).mp h.proper
  have hroot : (0 : Byte) ∉ ClientMain.clientRoot := by decide
  refine ⟨name, ?_, hne, hdot, hdotDot⟩
  rw [upToZero_of_nonzero (by simp [hroot, parola_nonzero h.parola]), clientRoot_append,
    components_append_slash (by decide), components_of_plain (slash_not_mem_of_parola h.parola)]
  rfl

end Served

/-- A name that is not one of those. -/
theorem not_served {name : Bytes} (h : ¬ Served name) (hne : name ≠ []) (hdot : name ≠ dot)
    (hdotDot : name ≠ dotDot) : parola name = false := by
  by_contra hparola
  have hp : parola name = true := by simpa using hparola
  exact h ⟨hp, (proper_fullpath_iff hp).mpr ⟨hne, hdot, hdotDot⟩⟩

/-! ### Tidy systems -/

/-- The root is a directory with regular files in it, none of them too long. -/
structure ServerTidy (s : Store) : Prop where
  root : s.get serverRootPath = some .dir
  files : ∀ name node, s.get (keptAt name) = some node → node.IsFile
  sizes : ∀ name content, fileAt s (keptAt name) = some content → sendable content = true

/-- There is a directory for downloads with regular files in it, everything lies in a directory, there
are no symbolic links, and no file is longer than an `off_t` can tell. -/
structure ClientTidy (s : Store) : Prop where
  downloads : s.get [text "downloads"] = some .dir
  parents : ∀ p c node, s.get (p ++ [c]) = some node → s.get p = some .dir
  files : ∀ name node, s.get (ClientMain.fetchedAt name) = some node → node.IsFile
  links : ∀ p q, s.get p ≠ some (.link q)
  sizes : ∀ p content, fileAt s p = some content → (content.length : ℤ) < 2 ^ 63

namespace ServerTidy

variable {s : Store} (h : ServerTidy s) {name : Name}

include h

theorem set {content : Bytes} (hsize : sendable content = true) :
    ServerTidy (s.set (keptAt name) (.file content)) := by
  refine ⟨?_, fun other node hnode => ?_, fun other was hwas => ?_⟩
  · rw [s.get_set_ne _ (by simp [keptAt, serverRootPath])]
    exact h.root
  · rw [Store.get_set] at hnode
    split at hnode
    · cases hnode
      trivial
    · exact h.files other node hnode
  · rw [fileAt_set] at hwas
    by_cases hq : keptAt other = keptAt name
    · rw [hq, Function.update_self] at hwas
      cases hwas
      exact hsize
    · rw [Function.update_of_ne hq] at hwas
      exact h.sizes other was hwas

theorem erase : ServerTidy (s.erase (keptAt name)) := by
  refine ⟨?_, fun other node hnode => ?_, fun other was hwas => ?_⟩
  · rw [s.get_erase_ne (by simp [keptAt, serverRootPath])]
    exact h.root
  · by_cases hq : keptAt other = keptAt name
    · rw [hq, s.get_erase_self] at hnode
      cases hnode
    · rw [s.get_erase_ne hq] at hnode
      exact h.files other node hnode
  · rw [fileAt_erase] at hwas
    by_cases hq : keptAt other = keptAt name
    · rw [hq, Function.update_self] at hwas
      cases hwas
    · rw [Function.update_of_ne hq] at hwas
      exact h.sizes other was hwas

end ServerTidy

theorem ClientTidy.set {s : Store} (h : ClientTidy s) {name : Name} {content : Bytes}
    (hsize : sendable content = true) :
    ClientTidy (s.set (ClientMain.fetchedAt name) (.file content)) := by
  have hmax : maxFileSize = 4294967296 := rfl
  have hdownloads : (s.set (ClientMain.fetchedAt name) (.file content)).get [text "downloads"]
      = some .dir := by
    rw [s.get_set_ne _ (by simp [ClientMain.fetchedAt])]
    exact h.downloads
  refine ⟨hdownloads, fun p c node hnode => ?_, fun other node hnode => ?_, fun p q hlink => ?_,
    fun p was hwas => ?_⟩
  · by_cases hc : p ++ [c] = ClientMain.fetchedAt name
    · have hp : p = [text "downloads"] := by
        have hlast : (p ++ [c]).dropLast = p := List.dropLast_concat
        rw [hc] at hlast
        exact hlast.symm
      rw [hp]
      exact hdownloads
    · rw [s.get_set_ne _ hc] at hnode
      have hdir := h.parents p c node hnode
      have hne : p ≠ ClientMain.fetchedAt name := by
        rintro rfl
        exact h.files name _ hdir
      rw [s.get_set_ne _ hne, hdir]
  · rw [Store.get_set] at hnode
    split at hnode
    · cases hnode
      trivial
    · exact h.files other node hnode
  · rw [Store.get_set] at hlink
    split at hlink
    · cases hlink
    · exact h.links p q hlink
  · rw [fileAt_set] at hwas
    by_cases hq : p = ClientMain.fetchedAt name
    · rw [hq, Function.update_self] at hwas
      cases hwas
      have hle := sendable_iff.mp hsize
      omega
    · rw [Function.update_of_ne hq] at hwas
      exact h.sizes p was hwas

/-- A regular file that is not too long. -/
def smallFile : Node → Bool
  | .file content => sendable content
  | _ => false

theorem smallFile_iff {node : Node} :
    smallFile node = true ↔ ∃ content, node = .file content ∧ sendable content = true := by
  cases node <;> simp [smallFile]

/-- A root with regular files in it that are not too long. -/
theorem ServerTidy.of_entries {s : Store} (hroot : s.get serverRootPath = some .dir)
    (h : ∀ e ∈ s.entries, InRoot e.1 → smallFile e.2 = true) : ServerTidy s := by
  have hsmall : ∀ {name node}, s.get (keptAt name) = some node → smallFile node = true :=
    fun {name} _ hget => h _ (Store.mem_of_get hget) ⟨name, rfl⟩
  refine ⟨hroot, fun name node hget => ?_, fun name content hfile => ?_⟩
  · obtain ⟨content, rfl, -⟩ := smallFile_iff.mp (hsmall hget)
    trivial
  · exact hsmall (fileAt_eq_some.mp hfile)

/-- A system with directories and with regular files that are not too long. -/
theorem ClientTidy.of_entries {s : Store} (hdownloads : s.get [text "downloads"] = some .dir)
    (hparents : ∀ e ∈ s.entries, e.1 = [] ∨ s.get e.1.dropLast = some .dir)
    (h : ∀ e ∈ s.entries, e.2 = .dir ∧ e.1.dropLast ≠ [text "downloads"] ∨ smallFile e.2 = true) :
    ClientTidy s := by
  refine ⟨hdownloads, fun p c node hget => ?_, fun name node hget => ?_, fun p q hget => ?_,
    fun p content hfile => ?_⟩
  · have hdir := hparents _ (Store.mem_of_get hget)
    rw [List.dropLast_concat] at hdir
    exact hdir.resolve_left (List.append_ne_nil_of_right_ne_nil _ (List.cons_ne_nil _ _))
  · rcases h _ (Store.mem_of_get hget) with ⟨-, hne⟩ | hsmall
    · exact absurd rfl hne
    · obtain ⟨content, rfl, -⟩ := smallFile_iff.mp hsmall
      trivial
  · rcases h _ (Store.mem_of_get hget) with ⟨hdir, -⟩ | hsmall
    · cases hdir
    · cases hsmall
  · have hmax : maxFileSize = 4294967296 := rfl
    rcases h _ (Store.mem_of_get (fileAt_eq_some.mp hfile)) with ⟨hdir, -⟩ | hsmall
    · cases hdir
    · have hle := sendable_iff.mp hsmall
      omega

end Cybrg
