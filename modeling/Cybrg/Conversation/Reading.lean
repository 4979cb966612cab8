import Cybrg.Common.Headers
import Cybrg.Sessions.PacketBound

/-!
# What the client makes of a reply

A reply is a header with a status, and for a download or a listing with the size of the body that
follows.

* `Status.reply_eq`, `sizeReply_eq` — the replies of the server as headers;
* `int32_reply`, `int32_sizeReply`, `word_sizeReply`, `int64_sizeReply` — what is read out of them;
* `Transport.scanHeader_reply`, `Transport.scanHeader_sizeReply` — where they end;
* `sendCmd_of_ok`, `recvResponse_of_ok` — a request and its reply;
* `recvList_run`, `recvFile_run` — the functions that read a body, behind such a header;
* `round_line` — a line of the user is a command.
-/

namespace Cybrg

open Streams Files

/-! ### Replies -/

theorem Status.reply_eq (status : Status) : status.reply = headerText [decimal status.code] := by
  simp only [Status.reply, headerText, List.flatMap_cons, List.flatMap_nil, List.append_nil]

theorem sizeReply_eq (size : ℤ) :
    sizeReply size = headerText [decimal Status.ok.code, text "Size: " ++ decimal size] := by
  simp only [sizeReply, headerText, List.flatMap_cons, List.flatMap_nil, List.append_assoc,
    List.nil_append]

/-- What follows the status in the header of a body. -/
def sizeLine (size : ℤ) : Bytes := newline ++ (text "Size:" ++ ([32] ++ (decimal size ++ [10, 10])))

theorem sizeReply_split (size : ℤ) : sizeReply size = decimal Status.ok.code ++ sizeLine size := by
  simp only [sizeReply, sizeLine, newline, List.append_assoc]
  rfl

theorem nonzero_of_mem_decimal {z : ℤ} : (0 : Byte) ∉ decimal z := by
  intro h
  rcases mem_decimal h with h | h
  · cases h
  · cases h

theorem upToZero_sizeLine (size : ℤ) : upToZero (sizeLine size) = sizeLine size := by
  refine upToZero_of_nonzero ?_
  simp only [sizeLine, List.mem_append, not_or]
  exact ⟨by decide, by decide, by decide, nonzero_of_mem_decimal, by decide⟩

theorem upToZero_sizeReply (size : ℤ) : upToZero (sizeReply size) = sizeReply size := by
  rw [sizeReply_split, upToZero_append nonzero_of_mem_decimal, upToZero_sizeLine]

theorem upToZero_reply (status : Status) : upToZero status.reply = status.reply := by
  cases status <;> decide

/-- **A status is read back**, from either kind of reply. -/
theorem int32_code (status : Status) {tail : Bytes} (htail : tail.head? = some 10) (old : ℤ) :
    ({ rest := decimal status.code ++ tail } : IStream).int32 old
      = ((status.code : ℤ), { rest := tail }) := by
  have hempty : tail.isEmpty = false := by
    cases tail with
    | nil => cases htail
    | cons b tail => rfl
  have hlo : (-2 ^ 31 : ℤ) ≤ status.code := by cases status <;> decide
  have hhi : (status.code : ℤ) ≤ 2 ^ 31 - 1 := by cases status <;> decide
  have hstop : ∀ b ∈ tail.head?, isDigit b = false := by
    intro b hb
    rw [htail] at hb
    cases hb
    rfl
  have hspaces : ∀ b ∈ ([] : Bytes), isSpace b := fun b hb => nomatch hb
  have h := IStream.integer_of hlo hhi (s := { rest := decimal status.code ++ tail }) rfl rfl hspaces
    hstop old
  rw [hempty] at h
  exact h

theorem int32_reply (status : Status) (old : ℤ) :
    ({ rest := status.reply } : IStream).int32 old = ((status.code : ℤ), { rest := [10, 10] }) := by
  rw [Status.reply, List.append_assoc]
  exact int32_code status rfl old

theorem int32_sizeReply (size old : ℤ) :
    ({ rest := sizeReply size } : IStream).int32 old
      = ((Status.ok.code : ℤ), { rest := sizeLine size }) := by
  rw [sizeReply_split]
  exact int32_code .ok rfl old

theorem word_sizeReply (size : ℤ) :
    ({ rest := sizeLine size } : IStream).word []
      = (text "Size:", { rest := [32] ++ (decimal size ++ [10, 10]) }) := by
  have hspaces : ∀ b ∈ newline, isSpace b := List.all_eq_true.mp rfl
  have hstop : ∀ b ∈ ([32] ++ (decimal size ++ [10, 10])).head?, isSpace b := by
    intro b hb
    cases hb
    rfl
  exact IStream.word_of rfl rfl hspaces (by decide) (word_iff_all.mp (by decide)) hstop []

theorem int64_sizeReply {size : ℤ} (hlo : -2 ^ 63 ≤ size) (hhi : size ≤ 2 ^ 63 - 1) (old : ℤ) :
    ({ rest := [32] ++ (decimal size ++ [10, 10]) } : IStream).int64 old
      = (size, { rest := [10, 10] }) := by
  have hspaces : ∀ b ∈ [(32 : Byte)], isSpace b := List.all_eq_true.mp rfl
  have hstop : ∀ b ∈ ([10, 10] : Bytes).head?, isDigit b = false := by
    intro b hb
    cases hb
    rfl
  exact IStream.integer_of hlo hhi rfl rfl hspaces hstop old

theorem line_decimal (z : ℤ) : Line (decimal z) :=
  ⟨decimal_ne_nil z, fun h10 => absurd (isSpace_of_mem_decimal h10) (by decide)⟩

theorem line_size (size : ℤ) : Line (text "Size: " ++ decimal size) := by
  refine ⟨List.append_ne_nil_of_left_ne_nil (by decide) _, fun h10 => ?_⟩
  rcases List.mem_append.mp h10 with h10 | h10
  · revert h10
    decide
  · exact (line_decimal size).2 h10

namespace Transport

/-- **A status is a header of its own.** -/
theorem scanHeader_reply (status : Status) (s : Bytes) :
    scanHeader (status.reply ++ s) = some (status.reply, s) := by
  have hlines : ∀ l ∈ [decimal status.code], Line l := fun l hl => by
    rw [List.mem_singleton.mp hl]
    exact line_decimal _
  have hfits : (headerText [decimal (status.code : ℤ)]).length < bufferSize := by
    cases status <;> decide
  have h := scanHeader_headerText hlines (List.cons_ne_nil _ _) hfits s
  rwa [← Status.reply_eq, upToZero_reply] at h

/-- **So is the announcement of a body.** -/
theorem scanHeader_sizeReply {size : ℤ} (hsize : size.natAbs < 10 ^ 20) (s : Bytes) :
    scanHeader (sizeReply size ++ s) = some (sizeReply size, s) := by
  have hlines : ∀ l ∈ [decimal Status.ok.code, text "Size: " ++ decimal size], Line l := by
    intro l hl
    rcases List.mem_cons.mp hl with rfl | hl
    · exact line_decimal _
    · rw [List.mem_singleton.mp hl]
      exact line_size size
  have hlen := decimal_length_le (k := 20) (by decide) hsize
  have hfits : (sizeReply size).length < bufferSize := by
    have hok : (decimal Status.ok.code).length = 3 := by decide
    have htext : (text "Size: ").length = 6 := by decide
    have hb : bufferSize = 4096 := rfl
    simp only [sizeReply, List.length_append, hok, htext, newline, List.length_singleton]
    omega
  rw [sizeReply_eq] at hfits
  have h := scanHeader_headerText hlines (List.cons_ne_nil _ _) hfits s
  rwa [← sizeReply_eq, upToZero_sizeReply] at h

end Transport

namespace ClientMain

variable {τ : Type} (t : Transport τ) {g : Globals τ}

theorem onLink_of_ok {α : Type} {m : EStateM Ex τ α} {a : α} {l : τ}
    (h : m.run g.link = .ok a l) : (onLink m).run g = .ok a { g with link := l } :=
  Exec.zoom_of_ok h

theorem onLink_of_error {α : Type} {m : EStateM Ex τ α} {e : Ex} {l : τ}
    (h : m.run g.link = .error e l) : (onLink m).run g = .error e { g with link := l } :=
  Exec.zoom_of_error h

theorem onHost_of_ok {α : Type} {m : EStateM Ex Host α} {a : α} {h' : Host}
    (h : m.run g.host = .ok a h') : (onHost m).run g = .ok a { g with host := h' } :=
  Exec.zoom_of_ok h

theorem extract_run {α : Type} (f : IStream → α × IStream) (g : Globals τ) :
    (extract f).run g = .ok (f g.is).1 { g with is := (f g.is).2 } := rfl

variable {t}

theorem sendCmd_of_ok {cmd : Bytes} {n : ℤ} {l : τ} (h : (t.send cmd).run g.link = .ok n l) :
    (sendCmd t cmd).run g = .ok () { g with link := l, packets := g.packets ++ [cmd] } := by
  have hsend := onLink_of_ok (g := { g with packets := g.packets ++ [cmd] }) h
  unfold sendCmd cryptoSend
  rw [Exec.bind_of_ok (EStateM.run_modify _ g), Exec.bind_of_ok hsend]
  rfl

theorem sendCmd_of_error {cmd : Bytes} {e : Ex} {l : τ} (h : (t.send cmd).run g.link = .error e l) :
    (sendCmd t cmd).run g = .error e { g with link := l, packets := g.packets ++ [cmd] } := by
  have hsend := onLink_of_error (g := { g with packets := g.packets ++ [cmd] }) h
  unfold sendCmd cryptoSend
  rw [Exec.bind_of_ok (EStateM.run_modify _ g)]
  exact Exec.bind_of_error hsend

theorem recvResponse_of_error {e : Ex} {l : τ} (h : t.recvHeader.run g.link = .error e l) :
    (recvResponse t).run g = .error e { g with link := l, is := g.is.clear.str [] } := by
  have hread := onLink_of_error (g := { g with is := g.is.clear.str [] }) h
  unfold recvResponse
  rw [Exec.bind_of_ok (EStateM.run_modify _ g)]
  exact Exec.bind_of_error hread

theorem recvResponse_of_ok {header : Bytes} {l : τ} (h : t.recvHeader.run g.link = .ok header l) :
    (recvResponse t).run g = .ok () { g with link := l, is := { rest := header } } := by
  have hread := onLink_of_ok (g := { g with is := g.is.clear.str [] }) h
  unfold recvResponse
  rw [Exec.bind_of_ok (EStateM.run_modify _ g), Exec.bind_of_ok hread]
  rfl

/-- The client when it has read the status of a reply. -/
def Globals.recalled (g : Globals τ) (is : IStream) : Globals τ :=
  { g with host := g.host.recalled, is }

/-- A number is read into a variable that was not initialised. -/
theorem number_bind {f : IStream → ℤ → ℤ × IStream} {n : ℤ} {is : IStream} {α : Type}
    (h : ∀ old, f g.is old = (n, is)) (k : ℤ → EStateM Ex (Globals τ) α) :
    (onHost Host.uninitialised >>= fun stale => extract (f · stale) >>= k).run g
      = (k n).run (g.recalled is) := by
  have hrecalled := onHost_of_ok (Host.run_uninitialised g.host)
  rw [Exec.bind_of_ok hrecalled, Exec.bind_of_ok (extract_run _ _), h]
  rfl

theorem word_bind {w : Bytes} {is : IStream} {α : Type} (h : g.is.word [] = (w, is))
    (k : Bytes → EStateM Ex (Globals τ) α) :
    (extract (·.word []) >>= k).run g = (k w).run { g with is := is } := by
  rw [Exec.bind_of_ok (extract_run _ _), h]

/-- **A listing** behind its header. -/
theorem recvList_run {size : ℤ} (hlo : 0 ≤ size) (hhi : size ≤ 2 ^ 63 - 1)
    (his : g.is = { rest := sizeReply size }) :
    (recvList t).run g = (listLoop t size size.toNat (List.replicate bufferSize 0) 0).run
      { g with host := g.host.recalled.recalled, is := {} } := by
  have hstatus : ∀ old, g.is.int32 old = ((Status.ok.code : ℤ), { rest := sizeLine size }) := by
    rw [his]
    exact int32_sizeReply size
  unfold recvList
  rw [number_bind (f := (·.int32 ·)) hstatus, if_pos rfl, word_bind (word_sizeReply size),
    if_neg (not_not.mpr rfl),
    number_bind (f := (·.int64 ·)) (int64_sizeReply (by omega) hhi), if_neg (not_lt.mpr hlo),
    Exec.bind_of_ok (EStateM.run_modify _ _)]
  rfl

/-- A reply without a listing. -/
theorem recvList_refused {status : Status} (hstatus : status ≠ .ok)
    (his : g.is = { rest := status.reply }) :
    (recvList t).run g = .ok () (g.recalled { rest := [10, 10] }) := by
  have hread : ∀ old, g.is.int32 old = ((status.code : ℤ), { rest := [10, 10] }) := by
    rw [his]
    exact int32_reply status
  have hne : (status.code : ℤ) ≠ Status.ok.code := by
    cases status <;> first | exact absurd rfl hstatus | decide
  unfold recvList
  rw [number_bind (f := (·.int32 ·)) hread, if_neg hne]
  rfl

/-- **A download** behind its header. -/
theorem recvFile_opens {size : ℤ} (hlo : 0 ≤ size) (hhi : size ≤ 2 ^ 63 - 1)
    (his : g.is = { rest := sizeReply size }) (filename : Bytes) {file : Option Path} {h' : Host}
    (hopen : (Host.openOut (clientRoot ++ filename)).run g.host.recalled.recalled = .ok file h') :
    (recvFile t filename).run g = match file with
      | none => .ok () { g with host := h', is := {} }
      | some path => (fileLoop t path size size.toNat 0 (h'.limits.headD size.toNat)).run
          { g with host := h'.limited, is := {} } := by
  have hstatus : ∀ old, g.is.int32 old = ((Status.ok.code : ℤ), { rest := sizeLine size }) := by
    rw [his]
    exact int32_sizeReply size
  have hopen' := onHost_of_ok (g := { g with host := g.host.recalled.recalled, is := {} }) hopen
  unfold recvFile
  rw [number_bind (f := (·.int32 ·)) hstatus, if_pos rfl, word_bind (word_sizeReply size),
    if_neg (not_not.mpr rfl),
    number_bind (f := (·.int64 ·)) (int64_sizeReply (by omega) hhi), if_neg (not_lt.mpr hlo),
    Exec.bind_of_ok (EStateM.run_modify _ _)]
  refine (Exec.bind_of_ok hopen').trans ?_
  cases file with
  | none => rfl
  | some path => rfl

/-- A size below zero. -/
theorem recvFile_negative {size : ℤ} (hlo : -2 ^ 63 ≤ size) (hneg : size < 0)
    (his : g.is = { rest := sizeReply size }) (filename : Bytes) :
    (recvFile t filename).run g = .ok () { g with
      host := g.host.recalled.recalled, is := { rest := [10, 10] } } := by
  have hstatus : ∀ old, g.is.int32 old = ((Status.ok.code : ℤ), { rest := sizeLine size }) := by
    rw [his]
    exact int32_sizeReply size
  unfold recvFile
  rw [number_bind (f := (·.int32 ·)) hstatus, if_pos rfl, word_bind (word_sizeReply size),
    if_neg (not_not.mpr rfl),
    number_bind (f := (·.int64 ·)) (int64_sizeReply hlo (by omega)), if_pos hneg]
  rfl

/-- A reply without a body. -/
theorem recvFile_refused {status : Status} (hstatus : status ≠ .ok)
    (his : g.is = { rest := status.reply }) (filename : Bytes) :
    (recvFile t filename).run g = .ok () (g.recalled { rest := [10, 10] }) := by
  have hread : ∀ old, g.is.int32 old = ((status.code : ℤ), { rest := [10, 10] }) := by
    rw [his]
    exact int32_reply status
  have hne : (status.code : ℤ) ≠ Status.ok.code := by
    cases status <;> first | exact absurd rfl hstatus | decide
  unfold recvFile
  rw [number_bind (f := (·.int32 ·)) hread, if_neg hne]
  rfl

/-! ### Lines -/

/-- **A line of the user** is a command with its argument. -/
theorem round_line (t : Transport τ) (line : Option Bytes) (g : Globals τ) :
    (round t line).run g = if line.getD (text "q") = [] then
        .ok true { g with is := { rest := line.getD (text "q") } }
      else (dispatch t (lineWords line).1 (lineWords line).2).run { g with
        is := ((({ rest := line.getD (text "q") } : IStream).word []).2.word []).2 } := by
  unfold round
  rw [Exec.bind_of_ok (EStateM.run_modify _ g)]
  split
  · rfl
  · rfl

/-! ### Bodies -/

variable {γ : Type} {holds : Bytes → τ → Prop} {half : τ → γ}

/-- What the loop of `recv_file` does with a fragment. -/
def keep (path : Path) (writable : ℕ) (fragment : Bytes) : EStateM Ex (Globals τ) ℕ := do
  onHost (Host.append path (fragment.take writable))
  return writable - fragment.length

theorem fileLoop_eq (t : Transport τ) (path : Path) (filesize : ℤ) (n : ℕ) (recvBytes : ℤ)
    (writable : ℕ) :
    fileLoop t path filesize n recvBytes writable
      = Transport.bodyLoop (recvFragment t) (keep path) filesize n recvBytes writable := by
  induction n generalizing recvBytes writable with
  | zero => rfl
  | succ n ih =>
    rw [fileLoop, Transport.bodyLoop]
    simp only [keep, bind_assoc, pure_bind, ih]

/-- **The loop of `recv_file`** takes the body from the stream and writes it to the file, as far as
this can be written; if the stream ends before, it throws. -/
theorem fileLoop_ends (hc : t.Carries holds half) (path : Path) (filesize : ℤ) (writable : ℕ)
    {s : Bytes} (h : holds s g.link) :
    if filesize.toNat ≤ s.length then
      ∃ l, (fileLoop t path filesize filesize.toNat 0 writable).run g
          = .ok () { g with
              link := l
              host := g.host.appended path ((s.take filesize.toNat).take writable) } ∧
        holds (s.drop filesize.toNat) l ∧ half l = half g.link
    else
      ∃ e l, (fileLoop t path filesize filesize.toNat 0 writable).run g
          = .error e { g with link := l, host := g.host.appended path (s.take writable) } ∧
        half l = half g.link := by
  have hloop := hc.bodyLoop (f := Globals.link) (p := fun l g => { g with link := l })
    (fun _ _ => rfl) (a := keep path) (u := []) (b := writable) (s := g)
    (I := fun u w g' => g' = { g with
      link := g'.link, host := g.host.appended path (u.take writable) } ∧ w = writable - u.length)
    ?_ ?_ filesize filesize.toNat 0 ?_ h (by omega)
  · rw [sub_zero] at hloop
    rw [fileLoop_eq]
    split at hloop
    · rename_i hlen
      rw [if_pos hlen]
      obtain ⟨w, g', hrun, ⟨hg', -⟩, hheld, hhalf⟩ := hloop
      rw [hg'] at hrun
      exact ⟨g'.link, hrun, hheld, hhalf⟩
    · rename_i hlen
      rw [if_neg hlen]
      obtain ⟨e, w, g', hrun, ⟨hg', -⟩, hhalf⟩ := hloop
      rw [hg'] at hrun
      exact ⟨e, g'.link, hrun, hhalf⟩
  · intro u w g' l hI
    obtain ⟨hg', hw⟩ := hI
    rw [hg']
    exact ⟨rfl, hw⟩
  · intro u w g' fragment hI
    obtain ⟨hg', hw⟩ := hI
    rw [hg']
    refine ⟨w - fragment.length, _, rfl, ⟨?_, ?_⟩, rfl⟩
    · simp only [Host.appended, Store.append_append, List.take_append, hw]
    · rw [hw, List.length_append, Nat.sub_sub]
  · refine ⟨?_, (Nat.sub_zero _).symm⟩
    rw [List.take_nil, Host.appended_nil]

theorem fileLoop_run (hc : t.Carries holds half) (path : Path) (filesize : ℤ) (writable : ℕ)
    {s : Bytes} (h : holds s g.link) :
    if filesize.toNat ≤ s.length then
      ∃ l, (fileLoop t path filesize filesize.toNat 0 writable).run g
          = .ok () { g with
              link := l
              host := g.host.appended path ((s.take filesize.toNat).take writable) } ∧
        holds (s.drop filesize.toNat) l ∧ half l = half g.link
    else
      ∃ e l, (fileLoop t path filesize filesize.toNat 0 writable).run g
        = .error e { g with link := l, host := g.host.appended path (s.take writable) } := by
  have hends := fileLoop_ends hc path filesize writable h
  split at hends
  · rename_i hlen
    rw [if_pos hlen]
    exact hends
  · rename_i hlen
    obtain ⟨e, l, hrun, -⟩ := hends
    rw [if_neg hlen]
    exact ⟨e, l, hrun⟩

/-- How many bytes of a body of `size` bytes the client reads: none if it does not open the file. -/
def taken (h : Host) (filename : Bytes) (size : ℤ) : ℕ :=
  if 0 ≤ size ∧ (h.tries (h.store.truncates (clientRoot ++ filename))).isSome then size.toNat else 0

theorem taken_of_negative {h : Host} {filename : Bytes} {size : ℤ} (hneg : size < 0) :
    taken h filename size = 0 :=
  if_neg fun hboth => not_le.mpr hneg hboth.1

theorem taken_of_none {h : Host} {filename : Bytes} {size : ℤ}
    (hfile : h.tries (h.store.truncates (clientRoot ++ filename)) = none) :
    taken h filename size = 0 := by
  rw [taken, hfile]
  exact if_neg fun hboth => absurd hboth.2 (by decide)

theorem taken_of_some {h : Host} {filename : Bytes} {size : ℤ} (hsize : 0 ≤ size)
    {x : Path × Option Node} (hfile : h.tries (h.store.truncates (clientRoot ++ filename)) = some x) :
    taken h filename size = size.toNat := by
  rw [taken, hfile]
  exact if_pos ⟨hsize, rfl⟩

/-- The host when the body `bs` of `size` bytes has been read. -/
def received (h : Host) (filename : Bytes) (size : ℤ) (bs : Bytes) : Host :=
  if size < 0 then h.recalled.recalled
  else match h.tries (h.store.truncates (clientRoot ++ filename)) with
    | none => h.recalled.recalled.called .openOut none
    | some (path, node) =>
        (h.recalled.recalled.called .openOut (some (path, node, h.store.truncate path))).limited.appended
          path (bs.take (h.limits.headD size.toNat))

/-- **`recv_file`** behind the header of a body reads as many bytes as it takes, or throws if the stream
ends before. -/
theorem recvFile_run (hc : t.Carries holds half) {size : ℤ} (hlo : -2 ^ 63 ≤ size)
    (hhi : size ≤ 2 ^ 63 - 1) (his : g.is = { rest := sizeReply size }) (filename : Bytes)
    {s : Bytes} (h : holds s g.link) :
    if taken g.host filename size ≤ s.length then
      ∃ g', (recvFile t filename).run g = .ok () g' ∧ g'.packets = g.packets ∧
        g'.host = received g.host filename size (s.take size.toNat) ∧
        holds (s.drop (taken g.host filename size)) g'.link
    else ∃ e g', (recvFile t filename).run g = .error e g' := by
  by_cases hneg : size < 0
  · rw [taken_of_negative hneg, if_pos (Nat.zero_le _), received, if_pos hneg]
    exact ⟨_, recvFile_negative hlo hneg his filename, rfl, rfl, h⟩
  have hopen := Host.run_openOut (clientRoot ++ filename) g.host.recalled.recalled
  have hsame : g.host.recalled.recalled.tries
      (g.host.recalled.recalled.store.truncates (clientRoot ++ filename))
        = g.host.tries (g.host.store.truncates (clientRoot ++ filename)) := rfl
  rw [hsame] at hopen
  rw [received, if_neg hneg]
  cases hfile : g.host.tries (g.host.store.truncates (clientRoot ++ filename)) with
  | none =>
    rw [hfile] at hopen
    have hrun := recvFile_opens (t := t) (not_lt.mp hneg) hhi his filename hopen
    rw [taken_of_none hfile, if_pos (Nat.zero_le _)]
    exact ⟨_, hrun, rfl, rfl, h⟩
  | some x =>
    obtain ⟨path, node⟩ := x
    rw [hfile] at hopen
    have hrun := recvFile_opens (t := t) (not_lt.mp hneg) hhi his filename hopen
    have hloop := fileLoop_run hc path size (g.host.limits.headD size.toNat) (g := { g with
      host := (g.host.recalled.recalled.called .openOut
        (some (path, node, g.host.store.truncate path))).limited, is := {} }) h
    rw [taken_of_some (not_lt.mp hneg) hfile, hrun]
    split at hloop
    · rename_i hlen
      rw [if_pos hlen]
      obtain ⟨l, hloop, hheld, -⟩ := hloop
      exact ⟨_, hloop, rfl, rfl, hheld⟩
    · rename_i hlen
      rw [if_neg hlen]
      obtain ⟨e, l, hloop⟩ := hloop
      exact ⟨e, _, hloop⟩

/-- What the loop of `recv_list` does with a fragment. -/
def printFragment (buffer fragment : Bytes) : EStateM Ex (Globals τ) Bytes := do
  let buffer := fragment ++ buffer.drop fragment.length
  modify fun g => { g with is := g.is.str ((buffer ++ g.beyond).takeWhile (· ≠ 0)) }
  printWords
  return buffer

theorem listLoop_eq (t : Transport τ) (msgLen : ℤ) (n : ℕ) (buffer : Bytes) (recvBytes : ℤ) :
    listLoop t msgLen n buffer recvBytes
      = Transport.bodyLoop (recvFragment t) printFragment msgLen n recvBytes buffer := by
  induction n generalizing buffer recvBytes with
  | zero => rfl
  | succ n ih =>
    rw [listLoop, Transport.bodyLoop]
    simp only [printFragment, bind_assoc, pure_bind, ih]

/-- **The loop of `recv_list`** takes the listing from the stream. -/
theorem listLoop_ends (hc : t.Carries holds half) (msgLen : ℤ) (n : ℕ) (buffer : Bytes)
    (recvBytes : ℤ) {s : Bytes} (h : holds s g.link) (hn : (msgLen - recvBytes).toNat ≤ n) :
    if (msgLen - recvBytes).toNat ≤ s.length then
      ∃ g', (listLoop t msgLen n buffer recvBytes).run g = .ok () g' ∧
        g'.host = g.host ∧ g'.packets = g.packets ∧
        holds (s.drop (msgLen - recvBytes).toNat) g'.link ∧ half g'.link = half g.link
    else ∃ e g', (listLoop t msgLen n buffer recvBytes).run g = .error e g' ∧
      g'.host = g.host ∧ g'.packets = g.packets ∧ half g'.link = half g.link := by
  have hloop := hc.bodyLoop (f := Globals.link) (p := fun l g => { g with link := l })
    (fun _ _ => rfl) (a := printFragment) (u := []) (b := buffer) (s := g)
    (I := fun _ _ g' => g'.host = g.host ∧ g'.packets = g.packets)
    (fun u b g' l hI => hI) ?_ msgLen n recvBytes ⟨rfl, rfl⟩ h hn
  · rw [listLoop_eq]
    split at hloop
    · rename_i hlen
      rw [if_pos hlen]
      obtain ⟨b, g', hrun, ⟨hhost, hpackets⟩, hheld, hhalf⟩ := hloop
      exact ⟨g', hrun, hhost, hpackets, hheld, hhalf⟩
    · rename_i hlen
      rw [if_neg hlen]
      obtain ⟨e, b, g', hrun, ⟨hhost, hpackets⟩, hhalf⟩ := hloop
      exact ⟨e, g', hrun, hhost, hpackets, hhalf⟩
  · exact fun u b g' fragment hI => ⟨_, _, rfl, hI, rfl⟩

theorem listLoop_run (hc : t.Carries holds half) (msgLen : ℤ) (n : ℕ) (buffer : Bytes)
    (recvBytes : ℤ) {s : Bytes} (h : holds s g.link) (hn : (msgLen - recvBytes).toNat ≤ n) :
    if (msgLen - recvBytes).toNat ≤ s.length then
      ∃ g', (listLoop t msgLen n buffer recvBytes).run g = .ok () g' ∧
        g'.host = g.host ∧ g'.packets = g.packets ∧
        holds (s.drop (msgLen - recvBytes).toNat) g'.link ∧ half g'.link = half g.link
    else ∃ e g', (listLoop t msgLen n buffer recvBytes).run g = .error e g' := by
  have hends := listLoop_ends hc msgLen n buffer recvBytes h hn
  split at hends
  · rename_i hlen
    rw [if_pos hlen]
    exact hends
  · rename_i hlen
    obtain ⟨e, g', hrun, -⟩ := hends
    rw [if_neg hlen]
    exact ⟨e, g', hrun⟩

end ClientMain

end Cybrg
