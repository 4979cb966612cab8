import Cybrg.Conversation.Prompt

/-!
# Uploads from the client's side

The client looks at its file twice: for the size, and then to send it.

* `fragments` — what the loop of `send_file` sends, with `fragments_length`, `fragments_flatten` and
  `fragments_count`;
* `sendLoop_run` — the loop, when the server only takes what it is sent;
* `run_checkAndGetFileSize` — the size;
* `cmdStor_refused`, `cmdStor_lost`, `cmdStor_run` — `put`.
-/

namespace Cybrg

open Octets Streams Files
open ServerClient hiding onLink onHost sendCmd onLink_of_ok onHost_of_ok cmdStor_refused

variable {P : Primitives} {o : ByteOrder}

namespace ClientMain

variable {k : SessionKeys} {c₀ c c₁ : ServerClient.Client Unit} {g g' : Globals Talk}

/-! ### Fragments -/

/-- The fragments that the loop of `send_file` sends. -/
def fragments : ℕ → Bytes → Bytes → ℤ → List Bytes
  | 0, _, _, _ => []
  | n + 1, file, buffer, remainingBytes =>
      if 0 < remainingBytes then
        let fragment := (min remainingBytes bufferSize).toNat
        let buffer := file.take fragment ++ buffer.drop (file.take fragment).length
        buffer.take fragment :: fragments n (file.drop fragment) buffer (remainingBytes - fragment)
      else []

/-- The array keeps its size. -/
theorem buffer_length (file : Bytes) {buffer : Bytes} (hbuffer : buffer.length = bufferSize) {m : ℕ}
    (hm : m ≤ bufferSize) :
    (file.take m ++ buffer.drop (file.take m).length).length = bufferSize := by
  rw [List.length_append, List.length_drop, List.length_take, hbuffer]
  omega

/-- As many bytes are sent as were announced. -/
theorem fragments_length (n : ℕ) (file : Bytes) {buffer : Bytes}
    (hbuffer : buffer.length = bufferSize) {remaining : ℤ} (hn : remaining.toNat ≤ n) :
    (fragments n file buffer remaining).flatten.length = remaining.toNat := by
  induction n generalizing file buffer remaining with
  | zero => exact (Nat.le_zero.mp hn).symm
  | succ n ih =>
    rw [fragments]
    split
    · rename_i hpos
      have hb : bufferSize = 4096 := rfl
      generalize hm : (min remaining bufferSize).toNat = m
      have hlen := buffer_length file hbuffer (m := m) (by omega)
      rw [List.flatten_cons, List.length_append, List.length_take, hlen, ih _ hlen (by omega)]
      omega
    · rename_i hpos
      exact (Int.toNat_of_nonpos (not_lt.mp hpos)).symm

/-- **What is sent is the file**, if it has as many bytes as were announced. -/
theorem fragments_flatten (n : ℕ) {file buffer : Bytes} (hbuffer : buffer.length = bufferSize)
    {remaining : ℤ} (hn : remaining.toNat ≤ n) (hfile : file.length = remaining.toNat) :
    (fragments n file buffer remaining).flatten = file := by
  induction n generalizing file buffer remaining with
  | zero => exact (List.length_eq_zero_iff.mp (hfile.trans (Nat.le_zero.mp hn))).symm
  | succ n ih =>
    rw [fragments]
    split
    · rename_i hpos
      have hb : bufferSize = 4096 := rfl
      generalize hm : (min remaining bufferSize).toNat = m
      have hlen := buffer_length file hbuffer (m := m) (by omega)
      have hgot : (file.take m).length = m := by rw [List.length_take]; omega
      have htake : (file.take m ++ buffer.drop (file.take m).length).take m = file.take m :=
        List.take_left' hgot
      rw [List.flatten_cons, htake, ih hlen (by omega) (by rw [List.length_drop]; omega),
        List.take_append_drop]
    · rename_i hpos
      have hnil : file = [] := List.length_eq_zero_iff.mp (by omega)
      rw [hnil]
      rfl

/-- Every fragment but the last fills the buffer. -/
theorem fragments_count (n : ℕ) (file buffer : Bytes) {remaining : ℤ} (hn : remaining.toNat ≤ n) :
    (fragments n file buffer remaining).length
      = (remaining.toNat + (bufferSize - 1)) / bufferSize := by
  have hb : bufferSize = 4096 := rfl
  induction n generalizing file buffer remaining with
  | zero =>
    rw [Nat.le_zero.mp hn]
    rfl
  | succ n ih =>
    rw [fragments]
    split
    · rw [List.length_cons, ih _ _ (by omega), hb]
      omega
    · rename_i hpos
      rw [Int.toNat_of_nonpos (not_lt.mp hpos)]
      rfl

/-- **One round of the loop.** -/
theorem sendLoop_succ (t : Transport Talk) (n : ℕ) (file : Bytes) {buffer : Bytes}
    (hbuffer : buffer.length = bufferSize) {remaining : ℤ} (hpos : 0 < remaining) :
    ∃ (buffer' : Bytes) (m : ℕ), buffer'.length = bufferSize ∧ 0 < m ∧ m ≤ bufferSize ∧
      m ≤ remaining.toNat ∧
      sendLoop t (n + 1) file buffer remaining = (sendFragment t (buffer'.take m) >>= fun _ =>
        sendLoop t n (file.drop m) buffer' (remaining - m)) ∧
      fragments (n + 1) file buffer remaining
        = buffer'.take m :: fragments n (file.drop m) buffer' (remaining - m) := by
  have hb : bufferSize = 4096 := rfl
  have hm : (min remaining bufferSize).toNat ≤ bufferSize := by omega
  refine ⟨_, _, buffer_length file hbuffer hm, by omega, hm, by omega, ?_, ?_⟩
  · rw [sendLoop, if_pos hpos]
  · rw [fragments, if_pos hpos]

/-- **The loop of `send_file`**, when the server owes nothing for as much as it is sent. -/
theorem sendLoop_run (n : ℕ) (file : Bytes) {buffer : Bytes} (hbuffer : buffer.length = bufferSize)
    {remaining : ℤ} {ps : List Bytes} (h : Awaiting P o k c₀ g.packets ps [] g.link)
    (howes : ∀ vs : List Bytes, vs.flatten.length ≤ remaining.toNat →
      Owes c₀ (g.packets ++ vs) ps) :
    if g.packets.length + (fragments n file buffer remaining).length < 2 ^ 31 then
      ∃ x', (sendLoop (.talk P o) n file buffer remaining).run g = .ok () { g with
          link := x', packets := g.packets ++ fragments n file buffer remaining } ∧
        Awaiting P o k c₀ (g.packets ++ fragments n file buffer remaining) ps [] x'
    else ∃ e g', (sendLoop (.talk P o) n file buffer remaining).run g = .error e g' := by
  induction n generalizing file buffer remaining g with
  | zero =>
    rw [fragments, List.length_nil, Nat.add_zero, List.append_nil, if_pos h.conversing.count]
    exact ⟨g.link, rfl, h⟩
  | succ n ih =>
    by_cases hpos : 0 < remaining
    · obtain ⟨buffer', m, hlen, hm, hfull, hleft, hloop, hfragments⟩ :=
        sendLoop_succ (.talk P o) n file hbuffer hpos
      have hfirst : (buffer'.take m).length = m := by rw [List.length_take, hlen]; omega
      have hp : Fits (buffer'.take m) := by
        rw [Fits, hfirst]
        exact ⟨hm, hfull⟩
      have hmore : ([buffer'.take m] : List Bytes).flatten.length ≤ remaining.toNat := by
        rw [List.flatten_singleton, hfirst]
        exact hleft
      have howes₁ := howes _ hmore
      rw [← List.append_nil ps] at howes₁
      have hsend := h.send hp howes₁ fun q hq => absurd hq List.not_mem_nil
      rw [hloop, hfragments]
      split at hsend
      · obtain ⟨_, x₁, hsend, hx₁⟩ := hsend
        have hnone : ([] : Bytes) ++ (Duplex.readable ps.length []).flatten = [] := by
          rw [Duplex.readable, List.take_nil]
          rfl
        rw [hnone, List.append_nil] at hx₁
        have hsent : (sendFragment (.talk P o) (buffer'.take m)).run g
            = .ok () { g with link := x₁, packets := g.packets ++ [buffer'.take m] } :=
          sendCmd_of_ok hsend
        have howes' : ∀ vs : List Bytes, vs.flatten.length ≤ (remaining - m).toNat →
            Owes c₀ ((g.packets ++ [buffer'.take m]) ++ vs) ps := by
          intro vs hvs
          rw [List.append_assoc]
          refine howes (buffer'.take m :: vs) ?_
          rw [List.flatten_cons, List.length_append, hfirst]
          omega
        have hrest := ih (file.drop m) hlen
          (g := { g with link := x₁, packets := g.packets ++ [buffer'.take m] }) hx₁ howes'
        have hlength : g.packets.length + (buffer'.take m :: fragments n (file.drop m) buffer'
            (remaining - m)).length = (g.packets ++ [buffer'.take m]).length
              + (fragments n (file.drop m) buffer' (remaining - m)).length := by
          rw [List.length_append, List.length_singleton, List.length_cons]
          omega
        rw [Exec.bind_of_ok hsent, hlength]
        rw [List.append_assoc] at hrest
        exact hrest
      · rename_i hlast
        obtain ⟨e, x₁, hsend⟩ := hsend
        have hsent : (sendFragment (.talk P o) (buffer'.take m)).run g
            = .error e { g with link := x₁, packets := g.packets ++ [buffer'.take m] } :=
          sendCmd_of_error hsend
        rw [if_neg (by rw [List.length_cons]; omega)]
        exact ⟨e, _, Exec.bind_of_error hsent⟩
    · rw [fragments, sendLoop, if_neg hpos, if_neg hpos, List.length_nil, Nat.add_zero,
        List.append_nil, if_pos h.conversing.count]
      exact ⟨g.link, rfl, h⟩

/-! ### The size of a file -/

theorem isFile_returns (path : Bytes) : Exec.Returns (Host.isFile path) := by
  intro h
  unfold Host.isFile
  rw [Exec.bind_of_ok (EStateM.run_get h), Exec.bind_of_ok (EStateM.run_modify _ h)]
  split
  · exact ⟨_, _, rfl⟩
  · exact ⟨_, _, rfl⟩
  · rw [Exec.bind_of_ok (Host.run_uninitialised _)]
    exact ⟨_, _, rfl⟩

/-- **A file that may be sent** has a size of at most `MAX_FILE_SIZE`. -/
theorem run_checkAndGetFileSize (filename : Bytes) (h : Host) :
    ∃ r h', (checkAndGetFileSize filename).run h = .ok r h' ∧
      ∀ size, r = some size → -2 ^ 63 ≤ size ∧ size ≤ maxFileSize := by
  obtain ⟨regular, h₁, hregular⟩ := isFile_returns filename h
  unfold checkAndGetFileSize
  rw [Exec.bind_of_ok hregular]
  split
  · rw [Exec.bind_of_ok (Host.run_openIn filename h₁)]
    cases hfile : (h₁.tries (h₁.store.reads filename)).map Prod.snd with
    | none => exact ⟨_, _, rfl, fun size hsize => nomatch hsize⟩
    | some node =>
      refine ⟨_, _, rfl, fun size hsize => ?_⟩
      split at hsize
      · cases hsize
      · rename_i hmax
        cases hsize
        exact ⟨(Host.contents_end_bounds _ node).1, not_lt.mp hmax⟩
  · exact ⟨_, _, rfl, fun size hsize => nomatch hsize⟩

/-! ### `put` -/

/-- **`send_file`** opens the file again. -/
theorem sendFile_opens {τ : Type} (t : Transport τ) {g : Globals τ} (filepath : Bytes) (size : ℤ)
    {file : Option Node} {h' : Host} (hopen : (Host.openIn filepath).run g.host = .ok file h') :
    (sendFile t filepath size).run g = match file with
      | none => .ok () { g with host := h' }
      | some node => (sendLoop t size.toNat (readableOf h' node)
          ((List.range bufferSize).map h'.junk) size).run { g with host := h'.limited } := by
  have hopen' := onHost_of_ok hopen
  unfold sendFile
  rw [Exec.bind_of_ok hopen']
  cases file with
  | none => rfl
  | some node => rfl

/-- What the client does behind the reply to a request to store a file. -/
def uploads (filepath : Bytes) (size : ℤ) : EStateM Ex (Globals Talk) Unit := do
  let stale ← onHost Host.uninitialised
  let response ← extract (·.int32 stale)
  if response = Status.ok.code then sendFile (.talk P o) filepath size else return ()

theorem uploads_of_ok (filepath : Bytes) (size : ℤ) (his : g.is = { rest := Status.ok.reply }) :
    (uploads (P := P) (o := o) filepath size).run g
      = (sendFile (.talk P o) filepath size).run (g.recalled { rest := [10, 10] }) := by
  have hread : ∀ old, g.is.int32 old = ((Status.ok.code : ℤ), { rest := [10, 10] }) := by
    rw [his]
    exact int32_reply .ok
  unfold uploads
  rw [number_bind (f := (·.int32 ·)) hread, if_pos rfl]

theorem uploads_refused (filepath : Bytes) (size : ℤ) {status : Status} (hstatus : status ≠ .ok)
    (his : g.is = { rest := status.reply }) :
    (uploads (P := P) (o := o) filepath size).run g = .ok () (g.recalled { rest := [10, 10] }) := by
  have hread : ∀ old, g.is.int32 old = ((status.code : ℤ), { rest := [10, 10] }) := by
    rw [his]
    exact int32_reply status
  have hne : (status.code : ℤ) ≠ Status.ok.code := by
    cases status <;> first | exact absurd rfl hstatus | decide
  unfold uploads
  rw [number_bind (f := (·.int32 ·)) hread, if_neg hne]
  rfl

/-- **`put`** asks for the size of the file first. -/
theorem cmdStor_eq {filepath : Bytes} (hne : filepath ≠ []) {r : Option ℤ} {h₁ : Host}
    (hcheck : (checkAndGetFileSize filepath).run g.host = .ok r h₁) :
    (cmdStor (.talk P o) filepath).run g = match r with
      | none => .ok () { g with host := h₁ }
      | some size => (sendCmd (.talk P o) (storText (lastComponent filepath) size) >>= fun _ =>
          recvResponse (.talk P o) >>= fun _ => uploads (P := P) (o := o) filepath size).run
            { g with host := h₁ } := by
  have hcheck' := onHost_of_ok hcheck
  unfold cmdStor
  rw [if_neg hne, Exec.bind_of_ok hcheck']
  cases r with
  | none => rfl
  | some size => rfl

/-- The bounds of the size. -/
theorem size_bounds {filepath : Bytes} {size : ℤ} {h h₁ : Host}
    (hcheck : (checkAndGetFileSize filepath).run h = .ok (some size) h₁) :
    -2 ^ 63 ≤ size ∧ size ≤ maxFileSize := by
  obtain ⟨r, h', hrun, hbounds⟩ := run_checkAndGetFileSize filepath h
  rw [hcheck] at hrun
  obtain ⟨rfl, rfl⟩ := EStateM.Result.ok.inj hrun
  exact hbounds size rfl

/-- The fragments of a `put`. -/
def putFragments (h : Host) (node : Node) (size : ℤ) : List Bytes :=
  fragments size.toNat (readableOf h node) ((List.range bufferSize).map h.junk) size

theorem putFragments_count (h : Host) (node : Node) (size : ℤ) :
    (putFragments h node size).length = (size.toNat + (bufferSize - 1)) / bufferSize :=
  fragments_count _ _ _ (le_refl _)

section Stor

variable (h : AtPrompt P o k c₀ c g) {filepath : Bytes} (hne : filepath ≠ [])
  (hname : Word (lastComponent filepath)) {size : ℤ} {h₁ : Host}
  (hcheck : (checkAndGetFileSize filepath).run g.host = .ok (some size) h₁)
  (hfits : (storText (lastComponent filepath) size).length < bufferSize)

include h hne hname hcheck hfits

/-- A `put` that the server refuses. -/
theorem cmdStor_refused (hnone : destination c.host (lastComponent filepath) = none) :
    if g.packets.length + 1 < 2 ^ 31 ∧ c.packets.length + 1 < 2 ^ 31 then
      ∃ g', (cmdStor (.talk P o) filepath).run g = .ok () g' ∧ ∃ c₁, AtPrompt P o k c₀ c₁ g' ∧
        c₁.host.store = c.host.store
    else ∃ e g', (cmdStor (.talk P o) filepath).run g = .error e g' := by
  obtain ⟨hlo, hhi⟩ := size_bounds hcheck
  obtain ⟨status, c₁, hstatus, hanswers, hsame⟩ :=
    stor_refused h.settled.os hname hlo hhi hfits hnone
  have hfits' : Fits (storText (lastComponent filepath) size) := fits_of_text hfits
  have h' : AtPrompt P o k c₀ c { g with host := h₁ } := h.of_eq rfl rfl
  have hreply := status_run h' hfits' hanswers (uploads (P := P) (o := o) filepath size)
  rw [cmdStor_eq hne hcheck]
  dsimp only
  split at hreply
  · rename_i hroom
    obtain ⟨x', hprompt, hreply⟩ := hreply
    rw [if_pos hroom, hreply, uploads_refused _ _ hstatus rfl]
    exact ⟨_, rfl, c₁, hprompt _ rfl rfl, hsame⟩
  · rename_i hroom
    rw [if_neg hroom]
    exact hreply

variable {path : Path} (hpath : destination c.host (lastComponent filepath) = some path)

include hpath

/-- A `put` of nothing, when the client cannot open the file again. -/
theorem cmdStor_lost (hzero : size ≤ 0) (hlost : h₁.tries (h₁.store.reads filepath) = none) :
    if g.packets.length + 1 < 2 ^ 31 ∧ c.packets.length + 1 < 2 ^ 31 then
      ∃ g', (cmdStor (.talk P o) filepath).run g = .ok () g' ∧
        AtPrompt P o k c₀ (c.stored (lastComponent filepath) size path []) g'
    else ∃ e g', (cmdStor (.talk P o) filepath).run g = .error e g' := by
  obtain ⟨hlo, hhi⟩ := size_bounds hcheck
  have hempty : ([] : Bytes).length = size.toNat := (Int.toNat_of_nonpos hzero).symm
  have hanswers := stor_stored h.settled.os hname hlo hhi hfits hpath hempty
  rw [List.append_nil] at hanswers
  have hfits' : Fits (storText (lastComponent filepath) size) := fits_of_text hfits
  have h' : AtPrompt P o k c₀ c { g with host := h₁ } := h.of_eq rfl rfl
  have hreply := status_run h' hfits' hanswers (uploads (P := P) (o := o) filepath size)
  rw [cmdStor_eq hne hcheck]
  dsimp only
  split at hreply
  · rename_i hroom
    obtain ⟨x', hprompt, hreply⟩ := hreply
    have hopen := Host.run_openIn filepath h₁.recalled
    have hnone : h₁.recalled.tries (h₁.recalled.store.reads filepath) = none := hlost
    rw [hnone] at hopen
    rw [if_pos hroom, hreply, uploads_of_ok _ _ rfl, sendFile_opens _ _ _ hopen]
    exact ⟨_, rfl, hprompt _ rfl rfl⟩
  · rename_i hroom
    rw [if_neg hroom]
    exact hreply

/-- **`put`**, when the server opens the file and the client opens its own again.  An exception means
that a side has used its last number. -/
theorem cmdStor_run {p : Path} {node : Node}
    (hopened : h₁.tries (h₁.store.reads filepath) = some (p, node)) {h₂ : Host}
    (hh₂ : h₂ = h₁.recalled.called .openIn (some (p, some node, h₁.store))) :
    if g.packets.length + 1 + (putFragments h₂ node size).length < 2 ^ 31 ∧
        c.packets.length + 1 < 2 ^ 31 then
      ∃ g', (cmdStor (.talk P o) filepath).run g = .ok () g' ∧
        AtPrompt P o k c₀ (c.stored (lastComponent filepath) size path
          (putFragments h₂ node size).flatten) g'
    else ∃ e g', (cmdStor (.talk P o) filepath).run g = .error e g' := by
  obtain ⟨hlo, hhi⟩ := size_bounds hcheck
  have hreply := Reply.stor h.settled.os hname hlo hhi hfits hpath
  have h' : AtPrompt P o k c₀ c { g with host := h₁ } := h.of_eq rfl rfl
  have hrequest := request_run h' hreply (uploads (P := P) (o := o) filepath size)
  rw [cmdStor_eq hne hcheck]
  dsimp only
  split at hrequest
  · rename_i hboth
    obtain ⟨x', hx', hrequest⟩ := hrequest
    have hopen := Host.run_openIn filepath h₁.recalled
    have hsome : h₁.recalled.tries (h₁.recalled.store.reads filepath) = some (p, node) := hopened
    rw [hsome] at hopen
    rw [hrequest, uploads_of_ok _ _ rfl, sendFile_opens _ _ _ hopen]
    rw [Duplex.readable, List.take_nil] at hx'
    have hjunk : ((List.range bufferSize).map h₂.junk).length = bufferSize := by
      rw [List.length_map, List.length_range]
    have howes : ∀ vs : List Bytes, vs.flatten.length ≤ size.toNat →
        Owes c₀ ((g.packets ++ [storText (lastComponent filepath) size]) ++ vs)
          (c.packets ++ [Status.ok.reply]) := by
      intro vs hvs
      rw [List.append_assoc]
      exact stor_owes h.settled.os hname hlo hhi hfits hpath h.settled hvs
    have hloop := sendLoop_run (P := P) (o := o) size.toNat (readableOf h₂ node) hjunk (g := { g with
        link := x', host := h₂.limited, is := { rest := [10, 10] }
        packets := g.packets ++ [storText (lastComponent filepath) size] }) hx' howes
    have hlength := fragments_length size.toNat (readableOf h₂ node) hjunk (le_refl size.toNat)
    rw [List.length_append, List.length_singleton] at hloop
    split at hloop
    · rename_i hroom
      obtain ⟨x₁, hloop, hx₁⟩ := hloop
      rw [if_pos ⟨hroom, hboth.2⟩]
      have hstored := stor_stored h.settled.os hname hlo hhi hfits hpath hlength
      rw [← List.flatten_cons] at hstored
      rw [List.append_assoc, List.singleton_append] at hx₁
      let g₂ : Globals Talk := { g with
        link := x₁, host := h₂.limited, is := { rest := [10, 10] }
        packets := g.packets ++ [storText (lastComponent filepath) size]
          ++ putFragments h₂ node size }
      refine ⟨g₂, ?_, h.next (List.cons_ne_nil _ _) hstored (List.append_assoc _ _ _) hx₁ ?_⟩
      · rw [hh₂] at hloop
        exact hloop.trans (by rw [← hh₂]; rfl)
      · rw [List.length_append]
        exact hboth.2
    · rename_i hroom
      rw [if_neg fun hall => hroom hall.1]
      rw [hh₂] at hloop
      exact hloop
  · rename_i hboth
    rw [if_neg fun hall => hboth ⟨Nat.lt_of_le_of_lt (Nat.le_add_right _ _) hall.1, hall.2⟩]
    exact hrequest

end Stor

end ClientMain

end Cybrg
