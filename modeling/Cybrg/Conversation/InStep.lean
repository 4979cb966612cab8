import Cybrg.Conversation.Put

/-!
# Both programs in step

As long as the client reads all of each body and sends all of each file that it has announced, every
line of its user finds both programs at the beginning of a request.

* `InStep` — the lines after which this is so;
* `Completes` — the lines after which the program comes back to its prompt;
* `dispatch_back`, `round_back` — one command, and one line;
* `Talk.InSync` — nothing is left to be read on either side;
* `in_sync` — every run of such lines leads there.
-/

namespace Cybrg

open Octets Streams Files
open ServerClient hiding onLink onHost sendCmd onLink_of_ok onHost_of_ok cmdStor_refused
  cmdRetr_refused dispatch

variable {P : Primitives} {o : ByteOrder}

/-! ### Words -/

/-- What is extracted from a stream is a word. -/
theorem IStream.word_word (s : IStream) : Word (s.word []).1 := by
  by_cases hgood : s.good
  · rcases IStream.word_cases hgood [] with ⟨hspaces, -⟩ | ⟨_, w, _, -, -, -, hw, hword⟩
    · rw [(IStream.word_none hspaces []).1]
      intro b hb
      cases hb
    · rw [hword]
      exact hw
  · rw [IStream.word, if_neg hgood]
    intro b hb
    cases hb

theorem mem_components {bs c : Bytes} (hc : c ∈ components bs) {b : Byte} (hb : b ∈ c) : b ∈ bs := by
  induction bs generalizing c with
  | nil =>
    rw [List.mem_singleton.mp hc] at hb
    exact hb
  | cons x bs ih =>
    rw [components] at hc
    split at hc
    · rcases List.mem_cons.mp hc with rfl | hc
      · cases hb
      · exact List.mem_cons_of_mem x (ih hc hb)
    · split at hc
      · rename_i c' cs hsplit
        rw [hsplit] at ih
        rcases List.mem_cons.mp hc with rfl | hc
        · rcases List.mem_cons.mp hb with rfl | hb
          · exact List.mem_cons_self
          · exact List.mem_cons_of_mem x (ih List.mem_cons_self hb)
        · exact List.mem_cons_of_mem x (ih (List.mem_cons_of_mem c' hc) hb)
      · rw [List.mem_singleton.mp hc] at hb
        rw [List.mem_singleton.mp hb]
        exact List.mem_cons_self

/-- So is the last component of a word. -/
theorem Word.lastComponent {path : Bytes} (h : Word path) : Word (ClientMain.lastComponent path) := by
  intro b hb
  rw [ClientMain.lastComponent, List.getLastD_eq_getLast?] at hb
  cases hlast : (components path).getLast? with
  | none =>
    rw [hlast] at hb
    cases hb
  | some c =>
    rw [hlast] at hb
    exact h b (mem_components (List.mem_of_getLast? hlast) hb)

namespace ClientMain

variable {k : SessionKeys} {c₀ c c₁ : ServerClient.Client Unit} {g g' : Globals Talk}

/-! ### The condition -/

/-- A command after which both programs are in step, with the files of the server and of the client:
the text of the request leaves room in the buffer, the client takes all of a body, and it can open
again the file that it has announced. -/
structure InStep (server client : Host) (strCmd arg : Bytes) : Prop where
  rls : strCmd = text "rls" →
    ∀ names, lists server = some names → (listing names).length ≤ bufferSize
  get : strCmd = text "get" → arg ≠ [] →
    (retrText arg).length < bufferSize ∧ TakesBody server client arg
  put : strCmd = text "put" → arg ≠ [] → ∀ size h₁,
    (checkAndGetFileSize arg).run client = .ok (some size) h₁ →
      (storText (lastComponent arg) size).length < bufferSize ∧
        ((destination server (lastComponent arg)).isSome → 0 < size →
          (h₁.tries (h₁.store.reads arg)).isSome)
  rm : strCmd = text "rm" → arg ≠ [] → (deleText arg).length < bufferSize

/-- What a command does to the files of the server. -/
inductive Effect (h : Host) (strCmd arg : Bytes) : Store → Prop
  | same : Effect h strCmd arg h.store
  | removed : strCmd = text "rm" → Effect h strCmd arg (deleted h (upToZero arg)).2.store
  | stored {path : Path} {c : ServerClient.Client Unit} {size : ℤ} {body : Bytes} :
      strCmd = text "put" → c.host = h → destination h (lastComponent arg) = some path →
      Effect h strCmd arg (c.stored (lastComponent arg) size path body).host.store

/-! ### Numbers -/

/-- The two sides have numbers for `n` and for `m` packets more. -/
def Room (sent replied n m : ℕ) : Prop := sent + n < 2 ^ 31 ∧ replied + m < 2 ^ 31

/-- A `get` for which there are numbers, and a body that is not too short. -/
def RetrCompletes (server client : Host) (sent replied : ℕ) (filename : Bytes) : Prop :=
  filename ≠ [] → Room sent replied 1 1 ∧
    ∀ node, (opened server (upToZero filename)).1 = some node →
      replied + 1 + (bodyPackets (readableOf (opened server (upToZero filename)).2 node)).length
          < 2 ^ 31 ∧
        taken client filename ((opened server (upToZero filename)).2.contents node).2
          ≤ (readableOf (opened server (upToZero filename)).2 node).length

/-- A `put` for which there are numbers. -/
def StorCompletes (server client : Host) (sent replied : ℕ) (filepath : Bytes) : Prop :=
  filepath ≠ [] → ∀ size h₁, (checkAndGetFileSize filepath).run client = .ok (some size) h₁ →
    Room sent replied 1 1 ∧
      ((destination server (lastComponent filepath)).isSome →
        (h₁.tries (h₁.store.reads filepath)).isSome →
        sent + 1 + (size.toNat + (bufferSize - 1)) / bufferSize < 2 ^ 31)

/-- The program comes back to its prompt: the command is not the last one, no side uses its last
number, and the client does not wait for more than the server has. -/
def Completes (server client : Host) (sent replied : ℕ) (strCmd arg : Bytes) : Prop :=
  if strCmd = text "q" then False
  else if strCmd = text "lls" then True
  else if strCmd = text "rls" then Room sent replied 1 (listPackets (lists server)).length
  else if strCmd = text "get" then RetrCompletes server client sent replied arg
  else if strCmd = text "put" then StorCompletes server client sent replied arg
  else if strCmd = text "rm" then arg ≠ [] → Room sent replied 1 1
  else True

/-- A program comes back to the prompt if and only if `C` holds, and then with `Q`. -/
structure ComesBack (C : Prop) (m : EStateM Ex (Globals Talk) Bool) (g : Globals Talk)
    (Q : Globals Talk → Prop) : Prop where
  back : C → ∃ g', m.run g = .ok true g' ∧ Q g'
  only : ∀ g', m.run g = .ok true g' → C

theorem ComesBack.of_ok {C : Prop} {m : EStateM Ex (Globals Talk) Bool} {Q : Globals Talk → Prop}
    (h : ComesBack C m g Q) (hrun : m.run g = .ok true g') : Q g' := by
  obtain ⟨g₁, hback, hQ⟩ := h.back (h.only g' hrun)
  rw [hrun] at hback
  cases hback
  exact hQ

theorem ComesBack.of_iff {C C' : Prop} {m : EStateM Ex (Globals Talk) Bool}
    {Q Q' : Globals Talk → Prop} (h : ComesBack C m g Q) (hC : C' ↔ C) (hQ : ∀ g', Q g' → Q' g') :
    ComesBack C' m g Q' :=
  ⟨fun hc => (h.back (hC.mp hc)).imp fun _ hg => ⟨hg.1, hQ _ hg.2⟩,
    fun g' hrun => hC.mpr (h.only g' hrun)⟩

/-- A command that throws if it does not come back. -/
theorem ComesBack.of_if {C : Prop} [Decidable C] {m : EStateM Ex (Globals Talk) Unit}
    {Q : Globals Talk → Prop}
    (h : if C then ∃ g', m.run g = .ok () g' ∧ Q g' else ∃ e g', m.run g = .error e g') :
    ComesBack C (m >>= fun _ => return true) g Q := by
  split at h
  · rename_i hC
    obtain ⟨g', hrun, hQ⟩ := h
    exact ⟨fun _ => ⟨g', Exec.bind_of_ok hrun, hQ⟩, fun _ _ => hC⟩
  · rename_i hC
    obtain ⟨e, g', hrun⟩ := h
    refine ⟨fun hc => absurd hc hC, fun g₁ hok => ?_⟩
    rw [Exec.bind_of_error hrun] at hok
    cases hok

/-- A command that always comes back. -/
theorem ComesBack.of_returns {m : EStateM Ex (Globals Talk) Unit} {g' : Globals Talk}
    {Q : Globals Talk → Prop} (hrun : m.run g = .ok () g') (hQ : Q g') :
    ComesBack True (m >>= fun _ => return true) g Q :=
  ⟨fun _ => ⟨g', Exec.bind_of_ok hrun, hQ⟩, fun _ _ => trivial⟩

/-! ### One command -/

theorem opened_store (h : Host) (filename : Bytes) : (opened h filename).2.store = h.store := by
  unfold opened
  split
  · rfl
  · cases h.tries (h.store.reads (fullpath filename)) <;> rfl

/-- **`get`** -/
theorem cmdRetr_back (h : AtPrompt P o k c₀ c g) {filename : Bytes} (hword : Word filename)
    (hfits : filename ≠ [] →
      (retrText filename).length < bufferSize ∧ TakesBody c.host g.host filename) :
    ComesBack (RetrCompletes c.host g.host g.packets.length c.packets.length filename)
      (cmdRetr (.talk P o) filename >>= fun _ => return true) g
      fun g' => ∃ c₁, AtPrompt P o k c₀ c₁ g' ∧ c₁.host.store = c.host.store := by
  have hsame := opened_store c.host (upToZero filename)
  by_cases hne : filename = []
  · have hrun : (cmdRetr (.talk P o) filename).run g = .ok () g := by
      rw [cmdRetr, if_pos hne]
      rfl
    refine (ComesBack.of_returns hrun (Q := fun g' => ∃ c₁, AtPrompt P o k c₀ c₁ g' ∧
      c₁.host.store = c.host.store) ⟨c, h, rfl⟩).of_iff ?_ fun _ hQ => hQ
    exact ⟨fun _ => trivial, fun _ hne' => absurd hne hne'⟩
  · obtain ⟨hlen, htakes⟩ := hfits hne
    cases hnode : (opened c.host (upToZero filename)).1 with
    | none =>
      refine (ComesBack.of_if (cmdRetr_refused h hword hne hlen hnode)).of_iff ?_ ?_
      · refine ⟨fun hc => (hc hne).1, fun hroom _ => ⟨hroom, fun node hsome => ?_⟩⟩
        rw [hnode] at hsome
        cases hsome
      · rintro g' ⟨c₁, hprompt, hhost⟩
        exact ⟨c₁, hprompt, by rw [hhost, hsame]⟩
    | some node =>
      have hopened : opened c.host (upToZero filename)
          = (some node, (opened c.host (upToZero filename)).2) := Prod.ext hnode rfl
      refine (ComesBack.of_if (cmdRetr_run h hword hne hlen hopened (htakes node hnode))).of_iff ?_ ?_
      · constructor
        · intro hc
          obtain ⟨⟨hsent, -⟩, hbody⟩ := hc hne
          exact ⟨hsent, hbody node hnode⟩
        · rintro ⟨hsent, hreplied, hle⟩ -
          refine ⟨⟨hsent, Nat.lt_of_le_of_lt (Nat.le_add_right _ _) hreplied⟩, fun node' hnode' => ?_⟩
          rw [hnode] at hnode'
          cases hnode'
          exact ⟨hreplied, hle⟩
      · rintro g' ⟨-, c₁, hprompt, hhost⟩
        exact ⟨c₁, hprompt, by rw [hhost, ← hsame]; rfl⟩

/-- **`put`** -/
theorem cmdStor_back (h : AtPrompt P o k c₀ c g) {filepath : Bytes} (hword : Word filepath)
    (hfits : filepath ≠ [] → ∀ size h₁,
      (checkAndGetFileSize filepath).run g.host = .ok (some size) h₁ →
        (storText (lastComponent filepath) size).length < bufferSize ∧
          ((destination c.host (lastComponent filepath)).isSome → 0 < size →
            (h₁.tries (h₁.store.reads filepath)).isSome)) :
    ComesBack (StorCompletes c.host g.host g.packets.length c.packets.length filepath)
      (cmdStor (.talk P o) filepath >>= fun _ => return true) g
      fun g' => ∃ c₁, AtPrompt P o k c₀ c₁ g' ∧ (c₁.host.store = c.host.store ∨ ∃ size path body,
        destination c.host (lastComponent filepath) = some path ∧
          c₁ = c.stored (lastComponent filepath) size path body) := by
  by_cases hne : filepath = []
  · have hrun : (cmdStor (.talk P o) filepath).run g = .ok () g := by
      rw [cmdStor, if_pos hne]
      rfl
    exact (ComesBack.of_returns hrun (Q := fun g' => g' = g) rfl).of_iff
      ⟨fun _ => trivial, fun _ hne' => absurd hne hne'⟩ fun g' hg => hg ▸ ⟨c, h, .inl rfl⟩
  · obtain ⟨r, h₁, hcheck, -⟩ := run_checkAndGetFileSize filepath g.host
    cases r with
    | none =>
      have hrun : (cmdStor (.talk P o) filepath).run g = .ok () { g with host := h₁ } :=
        cmdStor_eq hne hcheck
      refine (ComesBack.of_returns hrun (Q := fun g' => g' = { g with host := h₁ }) rfl).of_iff ?_ ?_
      · refine ⟨fun _ => trivial, fun _ _ size h₁' hcheck' => ?_⟩
        rw [hcheck] at hcheck'
        cases hcheck'
      · rintro g' rfl
        exact ⟨c, h.of_eq rfl rfl, .inl rfl⟩
    | some size =>
      obtain ⟨hlen, hreopens⟩ := hfits hne size h₁ hcheck
      have hname := hword.lastComponent
      -- what the condition says of this size
      have hcompletes : StorCompletes c.host g.host g.packets.length c.packets.length filepath ↔
          Room g.packets.length c.packets.length 1 1 ∧
            ((destination c.host (lastComponent filepath)).isSome →
              (h₁.tries (h₁.store.reads filepath)).isSome →
              g.packets.length + 1 + (size.toNat + (bufferSize - 1)) / bufferSize < 2 ^ 31) := by
        refine ⟨fun hc => hc hne size h₁ hcheck, fun hc _ size' h₁' hcheck' => ?_⟩
        rw [hcheck] at hcheck'
        cases hcheck'
        exact hc
      cases hpath : destination c.host (lastComponent filepath) with
      | none =>
        refine (ComesBack.of_if (cmdStor_refused h hne hname hcheck hlen hpath)).of_iff ?_ ?_
        · rw [hcompletes, hpath]
          exact ⟨And.left, fun hroom => ⟨hroom, fun hsome => absurd hsome (by decide)⟩⟩
        · rintro g' ⟨c₁, hprompt, hstore⟩
          exact ⟨c₁, hprompt, .inl hstore⟩
      | some path =>
        cases hopened : h₁.tries (h₁.store.reads filepath) with
        | none =>
          have hzero : size ≤ 0 := by
            by_contra hpos
            have hsome := hreopens (by rw [hpath]; rfl) (not_le.mp hpos)
            rw [hopened] at hsome
            cases hsome
          refine (ComesBack.of_if (cmdStor_lost h hne hname hcheck hlen hpath hzero hopened)).of_iff
            ?_ ?_
          · rw [hcompletes, hopened]
            exact ⟨And.left, fun hroom => ⟨hroom, fun _ hsome => absurd hsome (by decide)⟩⟩
          · intro g' hprompt
            exact ⟨_, hprompt, .inr ⟨size, path, [], rfl, rfl⟩⟩
        | some x =>
          obtain ⟨p, node⟩ := x
          refine (ComesBack.of_if (cmdStor_run h hne hname hcheck hlen hpath hopened rfl)).of_iff ?_ ?_
          · rw [hcompletes, hpath, hopened, putFragments_count]
            constructor
            · rintro ⟨⟨-, hreplied⟩, hsent⟩
              exact ⟨hsent rfl rfl, hreplied⟩
            · rintro ⟨hsent, hreplied⟩
              exact ⟨⟨Nat.lt_of_le_of_lt (Nat.le_add_right _ _) hsent, hreplied⟩, fun _ _ => hsent⟩
          · intro g' hprompt
            exact ⟨_, hprompt, .inr ⟨size, path, _, rfl, rfl⟩⟩

/-- What a command does that sends nothing and reads nothing. -/
def LeavesConnection {α : Type} (m : EStateM Ex (Globals Talk) α) : Prop :=
  Exec.Leaves (fun g : Globals Talk => (g.link, g.packets)) m

theorem onHost_aside {τ α : Type} (m : EStateM Ex Host α) :
    Exec.Leaves (fun g : Globals τ => (g.link, g.packets)) (onHost m) :=
  .zoom fun _ _ => rfl

/-- `lls` stays on its own side. -/
theorem cmdLocalList_aside {τ : Type} (path : Bytes) :
    Exec.Leaves (fun g : Globals τ => (g.link, g.packets)) (cmdLocalList path) := by
  apply Exec.Leaves.bind (onHost_aside _)
  intro dd
  cases dd with
  | none => exact .pure _
  | some names =>
    refine .bind (.mapM (fun name => ?_) names) fun lines => .modify fun _ => rfl
    exact .bind (onHost_aside _) fun _ => .pure _

theorem cmdLocalList_connection (path : Bytes) : LeavesConnection (cmdLocalList path) :=
  cmdLocalList_aside path

theorem cmdLocalList_returns {τ : Type} (path : Bytes) :
    Exec.Returns (cmdLocalList path : EStateM Ex (Globals τ) Unit) := by
  have hdir : Exec.Returns (Host.readDir (if path = [] then dot else path)) :=
    fun h => ⟨_, _, Host.run_readDir _ h⟩
  apply Exec.Returns.bind (.zoom hdir)
  intro dd
  cases dd with
  | none => exact .pure _
  | some names =>
    refine .bind (.mapM (fun name => ?_) names) fun lines => .modify _
    exact .bind (.zoom (isFile_returns _)) fun _ => .pure _

/-- **One command.** -/
theorem dispatch_back (h : AtPrompt P o k c₀ c g) {strCmd arg : Bytes} (harg : Word arg)
    (hstep : InStep c.host g.host strCmd arg) :
    ComesBack (Completes c.host g.host g.packets.length c.packets.length strCmd arg)
      (dispatch (.talk P o) strCmd arg) g
      fun g' => ∃ c₁, AtPrompt P o k c₀ c₁ g' ∧ Effect c.host strCmd arg c₁.host.store := by
  have hsame : ∀ {c₁ : ServerClient.Client Unit}, c₁.host.store = c.host.store →
      Effect c.host strCmd arg c₁.host.store := fun hstore => hstore ▸ .same
  unfold dispatch Completes
  by_cases hq : strCmd = text "q"
  · -- the program ends
    rw [if_pos hq, if_pos hq]
    refine ⟨False.elim, fun g' hrun => ?_⟩
    obtain ⟨_, g₁, -, hend⟩ := Exec.bind_ok hrun
    cases hend
  rw [if_neg hq, if_neg hq]
  by_cases hlls : strCmd = text "lls"
  · rw [if_pos hlls, if_pos hlls]
    obtain ⟨_, g₁, hrun⟩ := cmdLocalList_returns arg g
    obtain ⟨hlink, hpackets⟩ := Prod.mk.inj ((cmdLocalList_connection arg).of_ok hrun)
    exact .of_returns hrun ⟨c, h.of_eq hlink hpackets, .same⟩
  rw [if_neg hlls, if_neg hlls]
  by_cases hrls : strCmd = text "rls"
  · rw [if_pos hrls, if_pos hrls]
    refine (ComesBack.of_if (cmdRemoteList_run h (hstep.rls hrls))).of_iff Iff.rfl ?_
    rintro g' ⟨c₁, hprompt, hstore⟩
    exact ⟨c₁, hprompt, hsame hstore⟩
  rw [if_neg hrls, if_neg hrls]
  by_cases hget : strCmd = text "get"
  · rw [if_pos hget, if_pos hget]
    refine (cmdRetr_back h harg (hstep.get hget)).of_iff Iff.rfl ?_
    rintro g' ⟨c₁, hprompt, hstore⟩
    exact ⟨c₁, hprompt, hsame hstore⟩
  rw [if_neg hget, if_neg hget]
  by_cases hput : strCmd = text "put"
  · rw [if_pos hput, if_pos hput]
    refine (cmdStor_back h harg (hstep.put hput)).of_iff Iff.rfl ?_
    rintro g' ⟨c₁, hprompt, hstore | ⟨size, path, body, hpath, rfl⟩⟩
    · exact ⟨c₁, hprompt, hsame hstore⟩
    · exact ⟨_, hprompt, .stored hput rfl hpath⟩
  rw [if_neg hput, if_neg hput]
  by_cases hrm : strCmd = text "rm"
  · rw [if_pos hrm, if_pos hrm]
    by_cases hne : arg = []
    · have hrun : (cmdDele (.talk P o) arg).run g = .ok () g := by
        rw [cmdDele, if_pos hne]
        rfl
      exact (ComesBack.of_returns hrun (Q := fun g' => g' = g) rfl).of_iff
        ⟨fun _ => trivial, fun _ hne' => absurd hne hne'⟩ fun g' hg => hg ▸ ⟨c, h, .same⟩
    · refine (ComesBack.of_if (cmdDele_run h harg hne (hstep.rm hrm hne))).of_iff ?_ ?_
      · exact ⟨fun hc => hc hne, fun hroom _ => hroom⟩
      · rintro g' ⟨c₁, hprompt, hhost⟩
        exact ⟨c₁, hprompt, hhost ▸ .removed hrm⟩
  rw [if_neg hrm, if_neg hrm]
  exact ⟨fun _ => ⟨g, rfl, c, h, .same⟩, fun _ _ => trivial⟩

/-! ### The server at a prompt -/

/-- What the server has done by now. -/
theorem served_eq {us : List Bytes} {s : Bytes} {x : Talk} (h : Conversing P o k c₀ us s x) :
    x.served P o = Exec.endState ((serve (.crypto P o) ((Crypto.wire P o k us).length + 1)).run
      (c₀.reached P o k us)) := by
  rw [Talk.served, h.server, h.wire]
  rfl

theorem served_packets {us : List Bytes} {s : Bytes} {x : Talk} (h : Conversing P o k c₀ us s x) :
    (x.served P o).packets = replies P o k c₀ us := by
  rw [served_eq h, replies]

/-- The server has sent what it owes. -/
theorem AtPrompt.replies (h : AtPrompt P o k c₀ c g) :
    ServerClient.replies P o k c₀ g.packets = c.packets := by
  have hconv := h.awaiting.conversing
  obtain ⟨hbegin, hfull | ⟨-, hall⟩⟩ := replies_of_owes (P := P) (o := o) (k := k) hconv.fresh
    hconv.fits hconv.count h.awaiting.owes
  · have hle := hbegin.length_le
    have hlt := h.count
    omega
  · exact hall

/-- The files of the server are those of the server on a string. -/
theorem AtPrompt.served_host (h : AtPrompt P o k c₀ c g) : (g.link.served P o).host = c.host := by
  have hconv := h.awaiting.conversing
  have hlen := Crypto.length_le_wire (P := P) (o := o) k g.packets
  have hideal := (served_ideal (P := P) (o := o) k hconv.fits hconv.count hconv.fresh
    ((Crypto.wire P o k g.packets).length + 1)).same
  have hpackets := served_packets hconv
  rw [served_eq hconv] at hpackets ⊢
  rw [hpackets, h.replies, serve_eq_run .plain] at hideal
  rcases hideal with hfull | ⟨hrest, -⟩
  · exact absurd hfull (Nat.ne_of_lt h.count)
  · have hhost := congrArg ServerClient.Client.host hrest
    exact hhost.trans (h.settled.served (Nat.succ_le_succ hlen)).2

/-! ### Nothing is left -/

/-- An end from which nothing can be read has nothing on its way. -/
theorem drained_of_holding {a : Session} {sent : List Bytes} {b : Endpoint}
    (h : Duplex.Holding P o k.authKey a sent [] b) (hlt : sent.length < 2 ^ 31) :
    b.buf.remaining = 0 ∧ b.session.conn.incoming = [] := by
  obtain ⟨got, done, ts, hsent, hdir, hj, hnil⟩ := h
  obtain ⟨hzero, hnone | hlast⟩ := hdir.nothing hnil.symm
  · refine ⟨hzero, ?_⟩
    rw [hdir.stream, hnone]
    rfl
  · have hts : ts = [] := by
      rw [hsent, List.length_append] at hlt
      exact List.length_eq_zero_iff.mp (by omega)
    refine ⟨hzero, ?_⟩
    rw [hdir.stream, hts]
    rfl

end ClientMain

/-- Both programs are at the beginning of a request: the server has come round to `recvCmd` with
nothing to send and nothing to read, and the client has read all that the server has sent. -/
structure Talk.InSync (P : Primitives) (o : ByteOrder) (x : Talk) : Prop where
  server : ∃ r d, ServerClient.Loop.after (.crypto P o) r
      ⟨true, { x.server with link := x.server.link.deliver x.wire }⟩ = ⟨true, d⟩ ∧
    d.os = [] ∧ d.link.buf.remaining = 0 ∧ d.link.session.conn.incoming = [] ∧
    d.link.session.conn.outgoing = x.answer P o
  client : (x.arrive P o).client.buf.remaining = 0 ∧
    (x.arrive P o).client.session.conn.incoming = []

namespace ClientMain

variable {k : SessionKeys} {c₀ c c₁ : ServerClient.Client Unit} {g g' : Globals Talk}

/-- The reply that the client reads for its next request is the next thing that the server sends. -/
def NextReply (P : Primitives) (o : ByteOrder) (g : Globals Talk) : Prop :=
  ∀ p g', Request (g.link.served P o).host p →
    (sendCmd (.talk P o) p >>= fun _ => recvResponse (.talk P o)).run g = .ok () g' →
    ∃ qs, (g'.link.served P o).packets = (g.link.served P o).packets ++ g'.is.rest :: qs

/-- **At the prompt both programs are in step.** -/
theorem AtPrompt.inSync (h : AtPrompt P o k c₀ c g) : g.link.InSync P o := by
  have hconv := h.awaiting.conversing
  obtain ⟨r, -, hrounds⟩ := h.settled.rounds
  obtain ⟨d, hd, ⟨hrest, hhalf, -⟩, s, hheld, hs⟩ := after_ideal (P := P) (o := o) k hconv.fits
    hconv.count hconv.fresh hrounds h.count
  have hnil : s = [] := (List.append_nil s).symm.trans (Eq.symm hs)
  rw [hnil] at hheld
  obtain ⟨hzero, hincoming⟩ := drained_of_holding hheld hconv.count
  have hpackets : d.packets = c.packets := congrArg ServerClient.Client.packets hrest
  have hos : d.os = c.os := congrArg ServerClient.Client.os hrest
  have hanswer := Talk.answer_eq (P := P) (o := o) hconv.fresh hconv.server hconv.wire hconv.fits
    hconv.count
  rw [h.replies] at hanswer
  refine ⟨⟨r, d, ?_, hos.trans h.settled.os, hzero, hincoming, ?_⟩, ?_⟩
  · rw [hconv.server, hconv.wire]
    exact hd
  · simp only [idealPairing, Endpoint.sendHalf, Station.sendHalf, Crypto.sentHalf,
      Prod.mk.injEq] at hhalf
    rw [hhalf.2.2.2.2.2, hpackets, hanswer]
  · have hreceiver := hconv.receiver
    rw [h.replies] at hreceiver
    exact drained_of_holding hreceiver h.count

/-- **The next reply is the reply to the next request.** -/
theorem AtPrompt.nextReply (h : AtPrompt P o k c₀ c g) : NextReply P o g := by
  intro p g' hrequest hrun
  rw [h.served_host] at hrequest
  obtain ⟨q, qs, hreply⟩ := hrequest.reply h.settled.os
  have hboth := request_run h hreply (pure ())
  simp only [bind_pure_unit] at hboth
  have hserved := served_packets h.awaiting.conversing
  rw [h.replies] at hserved
  split at hboth
  · rename_i hroom
    obtain ⟨x', hx', hboth⟩ := hboth
    rw [hrun] at hboth
    cases hboth
    have hconv := hx'.conversing
    rw [served_packets hconv, hserved]
    obtain ⟨⟨rest, hrest⟩, hend⟩ := replies_of_owes (P := P) (o := o) (k := k) hconv.fresh hconv.fits
      hconv.count hx'.owes
    have hlong : c.packets.length + 1 ≤ (ServerClient.replies P o k c₀ (g.packets ++ [p])).length := by
      rcases hend with hfull | ⟨-, hall⟩
      · omega
      · rw [hall, List.length_append, List.length_cons]
        omega
    have hbegins : c.packets ++ [q] <+: c.packets ++ q :: qs :=
      ⟨qs, (List.append_assoc _ _ _).trans rfl⟩
    have hfirst : c.packets ++ [q] <+: ServerClient.replies P o k c₀ (g.packets ++ [p]) := by
      refine List.prefix_of_prefix_length_le hbegins ⟨rest, hrest⟩ ?_
      rw [List.length_append]
      exact hlong
    obtain ⟨qs', hqs'⟩ := hfirst
    refine ⟨qs', ?_⟩
    rw [← hqs', List.append_assoc]
    rfl
  · obtain ⟨e, g₁, hboth⟩ := hboth
    rw [hrun] at hboth
    cases hboth

/-! ### Runs -/

/-- **At the beginning of a session** nothing has been asked for. -/
theorem AtPrompt.new (hpackets : c.packets = []) (hos : c.os = []) (hg : g.packets = [])
    (hlink : g.link = Talk.new k c) : AtPrompt P o k c c g := by
  have howes : Owes c [] [] := by
    have h := (Settled.new hos).owes
    rwa [hpackets] at h
  have hnone : ∀ p ∈ ([] : List Bytes), Fits p := fun p hp => nomatch hp
  have hreplies : ServerClient.replies P o k c [] = [] := List.prefix_nil.mp
    (replies_of_owes (P := P) (o := o) (k := k) hpackets hnone (by decide) howes).1
  have hanswer : (Talk.new k c).answer P o = [] := by
    have h := Talk.answer_eq (P := P) (o := o) (x := Talk.new k c) hpackets rfl rfl hnone (by decide)
    rwa [hreplies] at h
  have harrive : ((Talk.new k c).arrive P o).client = Endpoint.new k := by
    rw [Talk.arrive, hanswer, List.drop_nil]
    rfl
  refine ⟨?_, ?_, ?_⟩
  · rw [hg, hlink, hpackets]
    refine ⟨⟨hpackets, rfl, rfl, hnone, by decide, ?_, Nat.zero_le _, ?_, ?_⟩, howes, hnone⟩
    · exact ⟨rfl, rfl, rfl, rfl, rfl⟩
    · rw [hreplies]
      exact hnone
    · rw [hreplies, harrive]
      exact ⟨[], [], [], rfl, .new k, by decide, rfl⟩
  · rw [hg]
    exact Settled.new hos
  · rw [hpackets]
    decide

/-- **One line.** -/
theorem round_back (h : AtPrompt P o k c₀ c g) {line : Option Bytes}
    (hstep : InStep c.host g.host (lineWords line).1 (lineWords line).2) :
    ComesBack (Completes c.host g.host g.packets.length c.packets.length (lineWords line).1
        (lineWords line).2) (round (.talk P o) line) g
      fun g' => ∃ c₁, AtPrompt P o k c₀ c₁ g' ∧
        Effect c.host (lineWords line).1 (lineWords line).2 c₁.host.store := by
  have hround := round_line (.talk P o) line g
  by_cases hnil : line.getD (text "q") = []
  · rw [if_pos hnil] at hround
    have hwords : lineWords line = ([], []) := by
      rw [lineWords, hnil]
      rfl
    rw [hwords]
    exact ⟨fun _ => ⟨_, hround, c, h.of_eq rfl rfl, .same⟩, fun _ _ => trivial⟩
  · rw [if_neg hnil] at hround
    have h' : AtPrompt P o k c₀ c { g with
        is := ((({ rest := line.getD (text "q") } : IStream).word []).2.word []).2 } :=
      h.of_eq rfl rfl
    have hback := dispatch_back h' (IStream.word_word _) hstep
    exact ⟨fun hc => hround ▸ hback.back hc, fun g' hrun => hback.only g' (hround ▸ hrun)⟩

/-- The next line leaves both programs in step. -/
def Prompt.InStep (P : Primitives) (o : ByteOrder) (p : Prompt Talk) (line : Option Bytes) : Prop :=
  p.running = true → ClientMain.InStep (p.globals.link.served P o).host p.globals.host
    (lineWords line).1 (lineWords line).2

theorem step_atPrompt {p : Prompt Talk} {line : Option Bytes}
    (h : p.running = true → ∃ c, AtPrompt P o k c₀ c p.globals) (hstep : p.InStep P o line) :
    (Prompt.step (.talk P o) p line).1.running = true →
      ∃ c, AtPrompt P o k c₀ c (Prompt.step (.talk P o) p line).1.globals := by
  obtain ⟨running, g⟩ := p
  cases running with
  | false => exact h
  | true =>
    obtain ⟨c, h⟩ := h rfl
    have hline := hstep rfl
    rw [h.served_host] at hline
    rw [Prompt.step, if_pos rfl]
    cases hrun : (round (.talk P o) line).run g with
    | error e g' =>
      intro hend
      cases hend
    | ok more g' =>
      intro hend
      have hmore : more = true := hend
      rw [hmore] at hrun
      obtain ⟨c₁, hprompt, -⟩ := (round_back h hline).of_ok hrun
      exact ⟨c₁, hprompt⟩

/-- **Requests and replies stay together.**  A session begins, and its user types lines.  If after each
command of theirs the client has taken all of the body that it was sent, and has sent all of the file
that it has announced, then whenever the program waits for the next line, both sides are in step and
the next reply is the reply to the next request. -/
theorem in_sync {c : ServerClient.Client Unit} (hpackets : c.packets = []) (hos : c.os = [])
    {g : Globals Talk} (hg : g.packets = []) (hlink : g.link = Talk.new k c)
    {lines : List (Option Bytes)}
    (hsteps : Machine.Meets (Prompt.step (.talk P o)) (Prompt.InStep P o) ⟨true, g⟩ lines)
    (hrunning : (Machine.run (Prompt.step (.talk P o)) ⟨true, g⟩ lines).1.running = true) :
    (Machine.run (Prompt.step (.talk P o)) ⟨true, g⟩ lines).1.globals.link.InSync P o ∧
      NextReply P o (Machine.run (Prompt.step (.talk P o)) ⟨true, g⟩ lines).1.globals := by
  have hstep : ∀ p line, (p.running = true → ∃ c', AtPrompt P o k c c' p.globals) →
      Prompt.InStep P o p line → (Prompt.step (.talk P o) p line).1.running = true →
        ∃ c', AtPrompt P o k c c' (Prompt.step (.talk P o) p line).1.globals :=
    fun p line hp hline => step_atPrompt hp hline
  have hinv := Machine.invariant_run
    (I := fun p : Prompt Talk => p.running = true → ∃ c', AtPrompt P o k c c' p.globals) hstep
    (fun _ => ⟨c, .new hpackets hos hg hlink⟩) hsteps
  obtain ⟨c', hprompt⟩ := hinv hrunning
  exact ⟨hprompt.inSync, hprompt.nextReply⟩

/-! ### A session -/

/-- What is said of a value, if there is one. -/
instance decidableOfSome {α : Type} (x : Option α) (p : α → Prop) [DecidablePred p] :
    Decidable (∀ a, x = some a → p a) :=
  match x with
  | some a => decidable_of_iff (p a) (by simp)
  | none => .isTrue (by simp)

/-- What is said of a result and the state behind it, if there is one. -/
instance decidableOfOk {σ ε α : Type} (x : EStateM.Result ε σ (Option α)) (p : α → σ → Prop)
    [∀ a s, Decidable (p a s)] : Decidable (∀ a s, x = .ok (some a) s → p a s) :=
  match x with
  | .ok (some a) s => decidable_of_iff (p a s) ⟨fun h _ _ heq => by cases heq; exact h,
      fun h => h a s rfl⟩
  | .ok none _ => .isTrue fun _ _ heq => nomatch heq
  | .error _ _ => .isTrue fun _ _ heq => nomatch heq

instance (server client : Host) (filename : Bytes) : Decidable (TakesBody server client filename) :=
  inferInstanceAs (Decidable (∀ node, (opened server (upToZero filename)).1 = some node →
    (readableOf (opened server (upToZero filename)).2 node).length
      ≤ taken client filename ((opened server (upToZero filename)).2.contents node).2))

instance (server client : Host) (strCmd arg : Bytes) : Decidable (InStep server client strCmd arg) :=
  decidable_of_iff ((strCmd = text "rls" →
        ∀ names, lists server = some names → (listing names).length ≤ bufferSize) ∧
      (strCmd = text "get" → arg ≠ [] →
        (retrText arg).length < bufferSize ∧ TakesBody server client arg) ∧
      (strCmd = text "put" → arg ≠ [] → ∀ size h₁,
        (checkAndGetFileSize arg).run client = .ok (some size) h₁ →
          (storText (lastComponent arg) size).length < bufferSize ∧
            ((destination server (lastComponent arg)).isSome → 0 < size →
              (h₁.tries (h₁.store.reads arg)).isSome)) ∧
      (strCmd = text "rm" → arg ≠ [] → (deleText arg).length < bufferSize))
    ⟨fun h => ⟨h.1, h.2.1, h.2.2.1, h.2.2.2⟩, fun h => ⟨h.rls, h.get, h.put, h.rm⟩⟩

instance (sent replied n m : ℕ) : Decidable (Room sent replied n m) :=
  inferInstanceAs (Decidable (sent + n < 2 ^ 31 ∧ replied + m < 2 ^ 31))

instance (server client : Host) (sent replied : ℕ) (filename : Bytes) :
    Decidable (RetrCompletes server client sent replied filename) :=
  inferInstanceAs (Decidable (filename ≠ [] → Room sent replied 1 1 ∧
    ∀ node, (opened server (upToZero filename)).1 = some node →
      replied + 1 + (bodyPackets (readableOf (opened server (upToZero filename)).2 node)).length
          < 2 ^ 31 ∧
        taken client filename ((opened server (upToZero filename)).2.contents node).2
          ≤ (readableOf (opened server (upToZero filename)).2 node).length))

instance (server client : Host) (sent replied : ℕ) (filepath : Bytes) :
    Decidable (StorCompletes server client sent replied filepath) :=
  inferInstanceAs (Decidable (filepath ≠ [] → ∀ size h₁,
    (checkAndGetFileSize filepath).run client = .ok (some size) h₁ →
      Room sent replied 1 1 ∧
        ((destination server (lastComponent filepath)).isSome →
          (h₁.tries (h₁.store.reads filepath)).isSome →
          sent + 1 + (size.toNat + (bufferSize - 1)) / bufferSize < 2 ^ 31)))

instance (server client : Host) (sent replied : ℕ) (strCmd arg : Bytes) :
    Decidable (Completes server client sent replied strCmd arg) :=
  inferInstanceAs (Decidable (if strCmd = text "q" then False
    else if strCmd = text "lls" then True
    else if strCmd = text "rls" then Room sent replied 1 (listPackets (lists server)).length
    else if strCmd = text "get" then RetrCompletes server client sent replied arg
    else if strCmd = text "put" then StorCompletes server client sent replied arg
    else if strCmd = text "rm" then arg ≠ [] → Room sent replied 1 1
    else True))

instance (p : Prompt Talk) (line : Option Bytes) : Decidable (p.InStep P o line) :=
  inferInstanceAs (Decidable (p.running = true → ClientMain.InStep
    (p.globals.link.served P o).host p.globals.host (lineWords line).1 (lineWords line).2))

/-- A client at the beginning of a session with a server that has one file. -/
def newcomer (store : Store) : Globals Talk where
  link := Talk.new (.sample 1) ServerClient.oneFile
  host := { store }

/-- A file to send, and a directory for downloads. -/
def homeWithDownloads : Store where
  entries := [([], .dir), ([text "downloads"], .dir), ([text "b"], .file (text "pqr"))]
  nodup := by decide

/-- A download and an upload. -/
theorem in_sync_two :
    (Machine.run (Prompt.step (.talk .sample .little)) ⟨true, newcomer homeWithDownloads⟩
      [some (text "get a"), some (text "put b")]).1.globals.link.InSync .sample .little :=
  (in_sync (k := .sample 1) (c := ServerClient.oneFile) rfl rfl rfl rfl (by decide +kernel)
    (by decide +kernel)).1

/-- No directory for downloads. -/
def homeWithout : Store where
  entries := [([], .dir)]
  nodup := List.nodup_singleton _

/-- **A body that nobody reads.**  The directory for downloads is missing: the client returns to its
prompt and leaves the body of the file to be read, and takes it for the reply to its next request. -/
theorem body_unread :
    (Machine.run (Prompt.step (.talk .sample .little)) ⟨true, newcomer homeWithout⟩
      [some (text "get a")]).1.running = true ∧
    ¬ (Machine.run (Prompt.step (.talk .sample .little)) ⟨true, newcomer homeWithout⟩
      [some (text "get a")]).1.globals.link.InSync .sample .little ∧
    (Machine.run (Prompt.step (.talk .sample .little)) ⟨true, newcomer homeWithout⟩
      [some (text "get a"), some (text "rm a")]).1.running = true ∧
    (Machine.run (Prompt.step (.talk .sample .little)) ⟨true, newcomer homeWithout⟩
      [some (text "get a"), some (text "rm a")]).1.globals.is.rest = text "xy200\n\n" := by
  -- the rounds are evaluated once
  have hall : (Machine.run (Prompt.step (.talk .sample .little)) ⟨true, newcomer homeWithout⟩
        [some (text "get a")]).1.running = true ∧
      ((Machine.run (Prompt.step (.talk .sample .little)) ⟨true, newcomer homeWithout⟩
        [some (text "get a")]).1.globals.link.arrive .sample .little).client.session.conn.incoming
          ≠ [] ∧
      (Machine.run (Prompt.step (.talk .sample .little)) ⟨true, newcomer homeWithout⟩
        [some (text "get a"), some (text "rm a")]).1.running = true ∧
      (Machine.run (Prompt.step (.talk .sample .little)) ⟨true, newcomer homeWithout⟩
        [some (text "get a"), some (text "rm a")]).1.globals.is.rest = text "xy200\n\n" := by
    decide +kernel
  exact ⟨hall.1, fun h => hall.2.1 h.client.2, hall.2.2⟩

end ClientMain

end Cybrg
