import Cybrg.Conversation.HeaderTrips

/-!
# The client on a stream

The client reads the replies of its server from a transport that carries a stream.  How the stream is
cut into the fragments that `recv` returns makes no difference to its files and to what it sends; only
what it prints of a listing depends on it.

* `Globals.withLink` — a client on another transport;
* `Level`, `Near` — two clients that have done the same, at the same point of the same stream;
* `Follows` — two pieces of program that keep them so;
* `recvFile_follows`, `sendFile_follows`, ... — the functions of the program;
* `round_follows` — a line;
* `lines_abreast` — the lines of a user.
-/

namespace Cybrg

open Streams Files

namespace ClientMain

variable {τ γ τ' γ' : Type}

/-- The client with another link. -/
def Globals.withLink (g : Globals τ) (l : τ') : Globals τ' := { g with link := l }

/-! ### Two clients -/

section Near

variable (d : ServerClient.Pairing τ γ τ' γ')

/-- Two clients that have done the same to their systems and have sent the same. -/
structure Level (g : Globals τ) (g' : Globals τ') : Prop where
  host : g.host = g'.host
  packets : g.packets = g'.packets
  same : d.same g.packets (d.half g.link) (d.half' g'.link)

/-- Two clients at the same point of the same stream; `e` says what they have in `is`. -/
structure Near (e : IStream → IStream → Prop) (g : Globals τ) (g' : Globals τ') : Prop where
  level : Level d g g'
  stream : ∃ s, d.holds s g.link ∧ d.holds' s g'.link
  is : e g.is g'.is

/-- Whatever is in `is`. -/
def Anyhow (_ _ : IStream) : Prop := True

/-- The first client has used up its numbers, and the second one has gone on. -/
def Passed (g : Globals τ) (g' : Globals τ') : Prop :=
  g.packets <+: g'.packets ∧ d.spent g.packets (d.half g.link)

/-- Both clients have stopped. -/
def Parted (g : Globals τ) (g' : Globals τ') : Prop := Passed d g g' ∨ Level d g g'

/-- Two pieces of program that keep clients near each other and return the same. -/
structure Follows (e e' : IStream → IStream → Prop) {α : Type} (m : EStateM Ex (Globals τ) α)
    (m' : EStateM Ex (Globals τ') α) : Prop where
  both : Exec.Both (Near d e) m m' (fun a a' g g' => a = a' ∧ Near d e' g g') (Parted d) (Passed d)
  grows : ∀ _ : τ, Grows m'

variable {d} {e e' e'' : IStream → IStream → Prop}

theorem Level.withLinks {g : Globals τ} {g' : Globals τ'} (h : Level d g g') {l : τ} {l' : τ'}
    (hl : d.half l = d.half g.link) (hl' : d.half' l' = d.half' g'.link) :
    Level d { g with link := l } { g' with link := l' } := by
  refine ⟨h.host, h.packets, ?_⟩
  rw [hl, hl']
  exact h.same

theorem Near.anyhow {g : Globals τ} {g' : Globals τ'} (h : Near d e g g') : Near d Anyhow g g' :=
  ⟨h.level, h.stream, trivial⟩

namespace Follows

theorem bind {α β : Type} {m : EStateM Ex (Globals τ) α} {m' : EStateM Ex (Globals τ') α}
    {f : α → EStateM Ex (Globals τ) β} {f' : α → EStateM Ex (Globals τ') β}
    (hm : Follows d e e' m m') (hf : ∀ a, Follows d e' e'' (f a) (f' a)) :
    Follows d e e'' (m >>= f) (m' >>= f') := by
  refine ⟨Exec.Both.bind hm.both (Exec.Both.same fun a => (hf a).both) (fun _ _ => .inl) ?_, ?_⟩
  · intro a g u hu
    exact ⟨hu.1.trans ((hf a).grows g.link u), hu.2⟩
  · exact fun l => .bind grows_path (hm.grows l) fun a => (hf a).grows l

theorem pure {α : Type} (a : α) : Follows d e e (Pure.pure a) (Pure.pure a) :=
  ⟨Exec.Both.pure fun _ _ h => ⟨rfl, h⟩, fun _ => .pure grows_path a⟩

theorem ite {α : Type} {p : Prop} [Decidable p] {m n : EStateM Ex (Globals τ) α}
    {m' n' : EStateM Ex (Globals τ') α} (hm : p → Follows d e e' m m')
    (hn : ¬ p → Follows d e e' n n') :
    Follows d e e' (if p then m else n) (if p then m' else n') := by
  by_cases h : p
  · rw [if_pos h, if_pos h]
    exact hm h
  · rw [if_neg h, if_neg h]
    exact hn h

/-- At the end it does not matter what is in `is`. -/
theorem anyhow {α : Type} {m : EStateM Ex (Globals τ) α} {m' : EStateM Ex (Globals τ') α}
    (h : Follows d e e' m m') : Follows d e Anyhow m m' :=
  ⟨h.both.post fun _ _ _ _ hend => ⟨hend.1, hend.2.anyhow⟩, h.grows⟩

/-- Read the state: what the two clients find there differs in the link, in `is` and in what was
printed. -/
theorem get {β : Type} {f : Globals τ → EStateM Ex (Globals τ) β}
    {f' : Globals τ' → EStateM Ex (Globals τ') β}
    (h : ∀ g g', g.host = g'.host → Follows d e e' (f g) (f' g')) :
    Follows d e e' (MonadState.get >>= f) (MonadState.get >>= f') :=
  ⟨fun g g' hg => (h g g' hg.level.host).both g g' hg,
    fun l g' => (h (g'.withLink l) g' rfl).grows l g'⟩

/-- A list of steps. -/
theorem mapM {α β : Type} {f : α → EStateM Ex (Globals τ) β} {f' : α → EStateM Ex (Globals τ') β}
    (h : ∀ a, Follows d e e (f a) (f' a)) (as : List α) :
    Follows d e e (as.mapM f) (as.mapM f') := by
  induction as with
  | nil => exact .pure []
  | cons a as ih =>
    rw [List.mapM_cons, List.mapM_cons]
    exact .bind (h a) fun b => .bind ih fun bs => .pure (b :: bs)

end Follows

/-- A change of `is` alone. -/
theorem modify_is_follows {f r : IStream → IStream} (h : ∀ x y, e x y → e' (f x) (r y)) :
    Follows d e e' (modify fun g => { g with is := f g.is })
      (modify fun g => { g with is := r g.is }) :=
  ⟨fun _ _ hg => ⟨rfl, ⟨hg.level.host, hg.level.packets, hg.level.same⟩, hg.stream, h _ _ hg.is⟩,
    fun _ => .modify fun _ => List.prefix_rfl⟩

/-- What is put into `is` when its flags were cleared. -/
theorem str_follows (bs : Bytes) :
    Follows d e Eq (modify fun g => { g with is := g.is.clear.str bs })
      (modify fun g => { g with is := g.is.clear.str bs }) :=
  modify_is_follows (f := fun x => x.clear.str bs) (r := fun x => x.clear.str bs) fun _ _ _ => rfl

theorem extract_follows {α : Type} (f : IStream → α × IStream) :
    Follows d Eq Eq (extract f) (extract f) := by
  refine ⟨fun g g' hg => ?_, fun _ => (extract_packets f).grows⟩
  rw [extract_run, extract_run, hg.is]
  exact ⟨rfl, ⟨hg.level.host, hg.level.packets, hg.level.same⟩, hg.stream, rfl⟩

theorem onHost_follows {α : Type} (m : EStateM Ex Host α) :
    Follows d e e (onHost m) (onHost m) := by
  refine ⟨fun g g' hg => ?_, fun _ => (onHost_packets m).grows⟩
  have hlevel := hg.level
  simp only [onHost, Exec.run_zoom, hlevel.host]
  cases m.run g'.host with
  | ok a h => exact ⟨rfl, ⟨rfl, hlevel.packets, hlevel.same⟩, hg.stream, hg.is⟩
  | error x h => exact .inr ⟨rfl, hlevel.packets, hlevel.same⟩

/-! ### Send and receive -/

theorem cryptoSend_run (t : Transport τ) (plaintext : Bytes) (g : Globals τ) :
    (cryptoSend t plaintext).run g = match (t.send plaintext).run g.link with
      | .ok _ l => .ok () { g with link := l, packets := g.packets ++ [plaintext] }
      | .error x l => .error x { g with link := l, packets := g.packets ++ [plaintext] } := by
  cases h : (t.send plaintext).run g.link with
  | ok n l => exact sendCmd_of_ok h
  | error x l => exact sendCmd_of_error h

theorem cryptoSend_follows {plaintext : Bytes} (hne : plaintext ≠ []) :
    Follows d e e (cryptoSend d.t plaintext) (cryptoSend d.t' plaintext) := by
  refine ⟨fun g g' hg => ?_, fun _ => cryptoSend_grows plaintext⟩
  obtain ⟨⟨hhost, hpackets, hsame⟩, ⟨s, hs, hs'⟩, his⟩ := hg
  have hboth := d.sends _ _ _ _ hne g.link g'.link ⟨hs, hs', hsame⟩
  have hsent : g.packets ++ [plaintext] = g'.packets ++ [plaintext] := by rw [hpackets]
  rw [cryptoSend_run, cryptoSend_run]
  cases hl : (d.t.send plaintext).run g.link with
  | ok n l =>
    cases hl' : (d.t'.send plaintext).run g'.link with
    | ok n' l' =>
      rw [hl, hl'] at hboth
      obtain ⟨hheld, hheld', hsame'⟩ := hboth
      exact ⟨rfl, ⟨hhost, hsent, hsame'⟩, ⟨s, hheld, hheld'⟩, his⟩
    | error x l' =>
      rw [hl, hl'] at hboth
      exact hboth.elim
  | error x l =>
    cases hl' : (d.t'.send plaintext).run g'.link with
    | ok n' l' =>
      rw [hl, hl'] at hboth
      exact ⟨hsent ▸ List.prefix_rfl, hboth⟩
    | error x' l' =>
      rw [hl, hl'] at hboth
      rcases hboth with hspent | hsame'
      · exact .inl ⟨hsent ▸ List.prefix_rfl, hspent⟩
      · exact .inr ⟨hhost, hsent, hsame'⟩

theorem recvHeader_follows : Follows d e e (onLink d.t.recvHeader) (onLink d.t'.recvHeader) := by
  refine ⟨fun g g' hg => ?_, fun _ => (onLink_packets _).grows⟩
  obtain ⟨hlevel, ⟨s, hs, hs'⟩, his⟩ := hg
  have hrun := d.carries.recvHeader hs
  have hrun' := d.carries'.recvHeader hs'
  rw [onLink, onLink, Exec.run_zoom, Exec.run_zoom]
  cases hscan : Transport.scanHeader s with
  | some x =>
    rw [hscan] at hrun hrun'
    obtain ⟨l, hl, hheld, hhalf⟩ := hrun
    obtain ⟨l', hl', hheld', hhalf'⟩ := hrun'
    rw [hl, hl']
    exact ⟨rfl, hlevel.withLinks hhalf hhalf', ⟨x.2, hheld, hheld'⟩, his⟩
  | none =>
    rw [hscan] at hrun hrun'
    obtain ⟨x, l, hl, hhalf⟩ := hrun
    obtain ⟨x', l', hl', hhalf'⟩ := hrun'
    rw [hl, hl']
    exact .inr (hlevel.withLinks hhalf hhalf')

/-- **A reply is read** from both streams, or both end before it does. -/
theorem recvResponse_follows : Follows d e Eq (recvResponse d.t) (recvResponse d.t') := by
  refine .bind (str_follows []) fun _ => .bind recvHeader_follows fun header => ?_
  exact modify_is_follows (f := (·.str header)) (r := (·.str header)) fun x y hxy => by
    rw [show x = y from hxy]

/-! ### Bodies -/

/-- The loop of `send_file`. -/
theorem sendLoop_follows (n : ℕ) (file : Bytes) {buffer : Bytes} (hbuffer : buffer.length = bufferSize)
    (remaining : ℤ) :
    Follows d e e (sendLoop d.t n file buffer remaining) (sendLoop d.t' n file buffer remaining) := by
  induction n generalizing file buffer remaining with
  | zero => exact .pure ()
  | succ n ih =>
    refine .ite (fun hpos => ?_) fun _ => .pure ()
    have hb : bufferSize = 4096 := rfl
    have hkept : (file.take (min remaining bufferSize).toNat
        ++ buffer.drop (file.take (min remaining bufferSize).toNat).length).length = bufferSize := by
      rw [List.length_append, List.length_drop, List.length_take, hbuffer]
      omega
    refine .bind (cryptoSend_follows ?_) fun _ => ih _ hkept _
    refine List.ne_nil_of_length_pos ?_
    rw [List.length_take, hkept]
    omega

theorem sendFile_follows (filepath : Bytes) (size : ℤ) :
    Follows d e e (sendFile d.t filepath size) (sendFile d.t' filepath size) := by
  refine .bind (onHost_follows _) fun file => ?_
  cases file with
  | none => exact .pure ()
  | some node =>
    refine .get fun g g' hhost => ?_
    dsimp only
    rw [hhost]
    refine .bind (onHost_follows _) fun readable => sendLoop_follows _ _ ?_ _
    rw [List.length_map, List.length_range]

/-- The loop of `recv_file` takes the same bytes, however they come. -/
theorem fileLoop_follows (path : Path) (filesize : ℤ) (writable : ℕ) :
    Follows d e e (fileLoop d.t path filesize filesize.toNat 0 writable)
      (fileLoop d.t' path filesize filesize.toNat 0 writable) := by
  refine ⟨fun g g' hg => ?_, fun _ => (fileLoop_packets _ _ _ _ _).grows⟩
  obtain ⟨⟨hhost, hpackets, hsame⟩, ⟨s, hs, hs'⟩, his⟩ := hg
  have hrun := fileLoop_ends d.carries path filesize writable hs
  have hrun' := fileLoop_ends d.carries' path filesize writable hs'
  have hlevel : ∀ {l : τ} {l' : τ'} (bs : Bytes), d.half l = d.half g.link →
      d.half' l' = d.half' g'.link → Level d { g with link := l, host := g.host.appended path bs }
        { g' with link := l', host := g'.host.appended path bs } := by
    intro l l' bs hl hl'
    have hwritten : g.host.appended path bs = g'.host.appended path bs := by rw [hhost]
    refine ⟨hwritten, hpackets, ?_⟩
    rw [hl, hl']
    exact hsame
  split at hrun
  · rename_i hlen
    rw [if_pos hlen] at hrun'
    obtain ⟨l, hl, hheld, hhalf⟩ := hrun
    obtain ⟨l', hl', hheld', hhalf'⟩ := hrun'
    rw [hl, hl']
    exact ⟨rfl, hlevel _ hhalf hhalf', ⟨_, hheld, hheld'⟩, his⟩
  · rename_i hlen
    rw [if_neg hlen] at hrun'
    obtain ⟨x, l, hl, hhalf⟩ := hrun
    obtain ⟨x', l', hl', hhalf'⟩ := hrun'
    rw [hl, hl']
    exact .inr (hlevel _ hhalf hhalf')

/-- The loop of `recv_list` takes the same bytes, but what it prints and leaves in `is` depends on how
they come. -/
theorem listLoop_follows (msgLen : ℤ) (buffer : Bytes) :
    Follows d e Anyhow (listLoop d.t msgLen msgLen.toNat buffer 0)
      (listLoop d.t' msgLen msgLen.toNat buffer 0) := by
  refine ⟨fun g g' hg => ?_, fun _ => (listLoop_packets _ _ _ _).grows⟩
  obtain ⟨⟨hhost, hpackets, hsame⟩, ⟨s, hs, hs'⟩, his⟩ := hg
  have hrun := listLoop_ends d.carries msgLen msgLen.toNat buffer 0 hs (by omega)
  have hrun' := listLoop_ends d.carries' msgLen msgLen.toNat buffer 0 hs' (by omega)
  have hlevel : ∀ {u : Globals τ} {u' : Globals τ'}, u.host = g.host → u.packets = g.packets →
      d.half u.link = d.half g.link → u'.host = g'.host → u'.packets = g'.packets →
      d.half' u'.link = d.half' g'.link → Level d u u' := by
    intro u u' hh hp hl hh' hp' hl'
    refine ⟨hh.trans (hhost.trans hh'.symm), hp.trans (hpackets.trans hp'.symm), ?_⟩
    rw [hp, hl, hl']
    exact hsame
  split at hrun
  · rename_i hlen
    rw [if_pos hlen] at hrun'
    obtain ⟨u, hu, hh, hp, hheld, hl⟩ := hrun
    obtain ⟨u', hu', hh', hp', hheld', hl'⟩ := hrun'
    rw [hu, hu']
    exact ⟨rfl, hlevel hh hp hl hh' hp' hl', ⟨_, hheld, hheld'⟩, trivial⟩
  · rename_i hlen
    rw [if_neg hlen] at hrun'
    obtain ⟨x, u, hu, hh, hp, hl⟩ := hrun
    obtain ⟨x', u', hu', hh', hp', hl'⟩ := hrun'
    rw [hu, hu']
    exact .inr (hlevel hh hp hl hh' hp' hl')

theorem recvList_follows : Follows d Eq Anyhow (recvList d.t) (recvList d.t') := by
  refine .bind (onHost_follows _) fun stale => .bind (extract_follows _) fun response => ?_
  refine .ite (fun _ => .bind (extract_follows _) fun tag => ?_) fun _ => (Follows.pure ()).anyhow
  refine .ite (fun _ => (Follows.pure ()).anyhow) fun _ => .bind (onHost_follows _) fun stale => ?_
  refine .bind (extract_follows _) fun msgLen => .ite (fun _ => (Follows.pure ()).anyhow) fun _ => ?_
  exact .bind (str_follows []) fun _ => listLoop_follows _ _

theorem recvFile_follows (filename : Bytes) :
    Follows d Eq Eq (recvFile d.t filename) (recvFile d.t' filename) := by
  refine .bind (onHost_follows _) fun stale => .bind (extract_follows _) fun response => ?_
  refine .ite (fun _ => .bind (extract_follows _) fun tag => ?_) fun _ => .pure ()
  refine .ite (fun _ => .pure ()) fun _ => .bind (onHost_follows _) fun stale => ?_
  refine .bind (extract_follows _) fun filesize => .ite (fun _ => .pure ()) fun _ => ?_
  refine .bind (str_follows []) fun _ => .bind (onHost_follows _) fun file => ?_
  cases file with
  | none => exact .pure ()
  | some path => exact .bind (onHost_follows _) fun writable => fileLoop_follows path filesize writable

/-! ### Commands -/

theorem cmdLocalList_follows (path : Bytes) :
    Follows d e e (cmdLocalList path) (cmdLocalList path) := by
  refine .bind (onHost_follows _) fun dd => ?_
  cases dd with
  | none => exact .pure ()
  | some names =>
    refine .bind (.mapM (fun name => .bind (onHost_follows _) fun _ => .pure _) names) fun lines => ?_
    exact ⟨fun _ _ hg => ⟨rfl, ⟨hg.level.host, hg.level.packets, hg.level.same⟩, hg.stream, hg.is⟩,
      fun _ => .modify fun _ => List.prefix_rfl⟩

/-- A request, and its reply. -/
theorem request_follows {α : Type} {cmd : Bytes} (hne : cmd ≠ []) {m : EStateM Ex (Globals τ) α}
    {m' : EStateM Ex (Globals τ') α} (hm : Follows d Eq e' m m') :
    Follows d e e' (sendCmd d.t cmd >>= fun _ => recvResponse d.t >>= fun _ => m)
      (sendCmd d.t' cmd >>= fun _ => recvResponse d.t' >>= fun _ => m') :=
  .bind (cryptoSend_follows hne) fun _ => .bind recvResponse_follows fun _ => hm

theorem cmdQuit_follows : Follows d e Eq (cmdQuit d.t) (cmdQuit d.t') :=
  .bind (cryptoSend_follows (by decide)) fun _ => recvResponse_follows

theorem cmdRetr_follows (filename : Bytes) :
    Follows d Eq Eq (cmdRetr d.t filename) (cmdRetr d.t' filename) :=
  .ite (fun _ => .pure ()) fun _ => request_follows
    (List.append_ne_nil_of_right_ne_nil _ (List.cons_ne_nil _ _)) (recvFile_follows filename)

theorem cmdStor_follows (filepath : Bytes) :
    Follows d Eq Eq (cmdStor d.t filepath) (cmdStor d.t' filepath) := by
  refine .ite (fun _ => .pure ()) fun _ => .bind (onHost_follows _) fun filesize => ?_
  cases filesize with
  | none => exact .pure ()
  | some size =>
    refine request_follows (List.append_ne_nil_of_right_ne_nil _ (List.cons_ne_nil _ _)) ?_
    refine .bind (onHost_follows _) fun stale => .bind (extract_follows _) fun response => ?_
    exact .ite (fun _ => sendFile_follows filepath size) fun _ => .pure ()

theorem cmdDele_follows (filename : Bytes) :
    Follows d Eq Eq (cmdDele d.t filename) (cmdDele d.t' filename) := by
  refine .ite (fun _ => .pure ()) fun _ => request_follows
    (List.append_ne_nil_of_right_ne_nil _ (List.cons_ne_nil _ _)) ?_
  refine .bind (onHost_follows _) fun stale => .bind (extract_follows _) fun response => ?_
  exact .pure ()

theorem dispatch_follows (strCmd arg : Bytes) :
    Follows d Eq Anyhow (dispatch d.t strCmd arg) (dispatch d.t' strCmd arg) := by
  refine .ite (fun _ => ?quit) fun _ => .ite (fun _ => ?lls) fun _ => ?_
  case quit => exact .bind cmdQuit_follows fun _ => (Follows.pure false).anyhow
  case lls => exact .bind (cmdLocalList_follows arg) fun _ => (Follows.pure true).anyhow
  refine .ite (fun _ => ?rls) fun _ => .ite (fun _ => ?get) fun _ => ?_
  case rls =>
    exact .bind (request_follows (by decide) recvList_follows) fun _ => .pure true
  case get => exact .bind (cmdRetr_follows arg) fun _ => (Follows.pure true).anyhow
  refine .ite (fun _ => ?put) fun _ => .ite (fun _ => ?rm) fun _ => (Follows.pure true).anyhow
  case put => exact .bind (cmdStor_follows arg) fun _ => (Follows.pure true).anyhow
  case rm => exact .bind (cmdDele_follows arg) fun _ => (Follows.pure true).anyhow

/-- **A line** keeps two clients near each other. -/
theorem round_follows (line : Option Bytes) :
    Follows d Anyhow Anyhow (round d.t line) (round d.t' line) := by
  refine .bind (str_follows _) fun _ => .ite (fun _ => (Follows.pure true).anyhow) fun _ => ?_
  refine .bind (extract_follows _) fun strCmd => .bind (extract_follows _) fun arg => ?_
  exact dispatch_follows strCmd arg

end Near

/-! ### The lines of a user -/

section Lines

variable (d : ServerClient.Pairing τ γ τ' γ')

/-- Two clients behind the same lines. -/
inductive Abreast : Prompt τ → Prompt τ' → Prop
  | waiting {g : Globals τ} {g' : Globals τ'} (h : Near d Anyhow g g') : Abreast ⟨true, g⟩ ⟨true, g'⟩
  | stopped {g : Globals τ} {g' : Globals τ'} (h : Level d g g') : Abreast ⟨false, g⟩ ⟨false, g'⟩
  | passed {g : Globals τ} {p' : Prompt τ'} (h : Passed d g p'.globals) : Abreast ⟨false, g⟩ p'

variable {d}

theorem Abreast.step {p : Prompt τ} {p' : Prompt τ'} (h : Abreast d p p') (line : Option Bytes) :
    Abreast d (Prompt.step d.t p line).1 (Prompt.step d.t' p' line).1 := by
  have hround : Follows d Anyhow Anyhow (round d.t line) (round d.t' line) := round_follows line
  cases h with
  | @waiting g g' h =>
    rw [Prompt.step, Prompt.step, if_pos rfl, if_pos rfl]
    cases hr : (round d.t line).run g with
    | ok more u =>
      obtain ⟨more', u', hr', rfl, hnear⟩ := hround.both.of_ok h hr
      rw [hr']
      cases more with
      | true => exact .waiting hnear
      | false => exact .stopped hnear.level
    | error x u =>
      rcases hround.both.of_error h hr with ⟨x', u', hr', hparted⟩ | ⟨more', u', hr', hpassed⟩
      · rw [hr']
        rcases hparted with hpassed | hlevel
        · exact .passed hpassed
        · exact .stopped hlevel
      · rw [hr']
        exact .passed hpassed
  | stopped h => exact .stopped h
  | @passed g p' h =>
    rw [Prompt.step, if_neg Bool.false_ne_true, Prompt.step]
    split
    · -- the second client goes on alone
      have hgrows := hround.grows g.link p'.globals
      cases hr' : (round d.t' line).run p'.globals with
      | ok more' u' =>
        rw [hr'] at hgrows
        exact .passed ⟨h.1.trans hgrows, h.2⟩
      | error x' u' =>
        rw [hr'] at hgrows
        exact .passed ⟨h.1.trans hgrows, h.2⟩
    · exact .passed h

theorem Prompt.step_unseen (t : Transport τ) (p : Prompt τ) (line : Option Bytes) :
    (Prompt.step t p line).2 = [] := by
  rw [Prompt.step]
  split
  · split <;> rfl
  · rfl

/-- **Two clients on a stream stay abreast**, line after line. -/
theorem lines_abreast {p : Prompt τ} {p' : Prompt τ'} (h : Abreast d p p')
    (lines : List (Option Bytes)) :
    Abreast d (Machine.run (Prompt.step d.t) p lines).1 (Machine.run (Prompt.step d.t') p' lines).1 := by
  refine (Machine.run_simulates (C := fun _ _ => True) (V := fun _ _ => True) (R := Abreast d) ?_ h
    (Machine.meets_true lines)).1
  intro q q' line hq _
  rw [Prompt.step_unseen, Prompt.step_unseen]
  exact ⟨hq.step line, .nil⟩

end Lines

end ClientMain

end Cybrg
