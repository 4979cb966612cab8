import Cybrg.Common.Carrier
import Cybrg.Server.Client

/-!
# The server on a stream

The server reads its requests from a transport that carries a stream.  How the stream is cut into the
fragments that `recv` returns makes no difference to it.

* `storLoop_run` — what the loop of `cmd_stor` takes from the stream and writes to its file;
* `Beside` — two servers that are at the same point of the same stream, or of one that goes on
  for longer;
* `serve_follows` — they stay so;
* `after_follows`, `after_leads` — one has come as far as the other.
-/

namespace Cybrg

open Files

namespace ServerClient

variable {τ γ : Type} {t : Transport τ} {holds : Bytes → τ → Prop} {half : τ → γ}

/-! ### The loop of `cmd_stor` -/

/-- What the loop does with a fragment: it writes as much of it as the file takes. -/
def keep (path : Path) (writable : ℕ) (fragment : Bytes) : EStateM Ex (Client τ) ℕ := do
  onHost (Host.append path (fragment.take writable))
  return writable - fragment.length

theorem storLoop_eq (t : Transport τ) (path : Path) (size : ℤ) (n : ℕ) (received : ℤ)
    (writable : ℕ) :
    storLoop t path size n received writable
      = Transport.bodyLoop (recvBodyFragment t) (keep path) size n received writable := by
  induction n generalizing received writable with
  | zero => rfl
  | succ n ih =>
    rw [storLoop, Transport.bodyLoop]
    simp only [keep, bind_assoc, pure_bind, ih]

/-- **The loop of `cmd_stor`** takes as many bytes from the stream as are still missing and writes
them to its file, as far as this can be written; if the stream ends before, it throws. -/
theorem storLoop_run (hc : t.Carries holds half) (path : Path) (size : ℤ) (n : ℕ) (received : ℤ)
    (writable : ℕ) {c : Client τ} {s : Bytes} (h : holds s c.link)
    (hn : (size - received).toNat ≤ n) :
    if (size - received).toNat ≤ s.length then
      ∃ l, (storLoop t path size n received writable).run c
          = .ok () { c with
              link := l
              host := c.host.appended path ((s.take (size - received).toNat).take writable) } ∧
        holds (s.drop (size - received).toNat) l ∧ half l = half c.link
    else
      ∃ e l, (storLoop t path size n received writable).run c
          = .error e { c with link := l, host := c.host.appended path (s.take writable) } ∧
        half l = half c.link := by
  have hloop := hc.bodyLoop (f := Client.link) (p := fun l c => { c with link := l })
    (fun _ _ => rfl) (a := keep path) (u := []) (b := writable) (s := c)
    (I := fun u w c' => c' = { c with
      link := c'.link, host := c.host.appended path (u.take writable) } ∧ w = writable - u.length)
    ?_ ?_ size n received ?_ h hn
  · rw [storLoop_eq]
    split at hloop
    · rename_i hlen
      rw [if_pos hlen]
      obtain ⟨w, c', hrun, ⟨hc', -⟩, hheld, hhalf⟩ := hloop
      rw [hc'] at hrun
      exact ⟨c'.link, hrun, hheld, hhalf⟩
    · rename_i hlen
      rw [if_neg hlen]
      obtain ⟨e, w, c', hrun, ⟨hc', -⟩, hhalf⟩ := hloop
      rw [hc'] at hrun
      exact ⟨e, c'.link, hrun, hhalf⟩
  · intro u w c' l hI
    obtain ⟨hc', hw⟩ := hI
    rw [hc']
    exact ⟨rfl, hw⟩
  · intro u w c' fragment hI
    obtain ⟨hc', hw⟩ := hI
    rw [hc']
    refine ⟨w - fragment.length, _, rfl, ⟨?_, ?_⟩, rfl⟩
    · simp only [Host.appended, Store.append_append, List.take_append, hw]
    · rw [hw, List.length_append, Nat.sub_sub]
  · refine ⟨?_, (Nat.sub_zero _).symm⟩
    rw [List.take_nil, Host.appended_nil]

/-! ### A reply that is sent -/

/-- The object with a note of the packet that it sends. -/
def Client.noted (c : Client τ) : Client τ := { c with packets := c.packets ++ [c.os] }

theorem sendCmd_of_empty (t : Transport τ) {c : Client τ} (h : c.os = []) :
    (sendCmd t).run c = .ok () c := by
  have hlen : ¬ c.os.length ≠ 0 := by rw [h]; simp
  have hc : { c with os := [] } = c := by rw [← h]
  unfold sendCmd
  rw [Exec.bind_of_ok (EStateM.run_get c), if_neg hlen, EStateM.run_modify, hc]

theorem sendCmd_run (t : Transport τ) {c : Client τ} (h : c.os ≠ []) :
    (sendCmd t).run c = match (t.send c.os).run c.link with
      | .ok _ l => .ok () { c.noted with link := l, os := [] }
      | .error e l => .error e { c.noted with link := l } := by
  have hlen : c.os.length ≠ 0 := fun h0 => h (List.length_eq_zero_iff.mp h0)
  unfold sendCmd
  rw [Exec.bind_of_ok (EStateM.run_get c), if_pos hlen,
    Exec.bind_of_ok (EStateM.run_modify _ c)]
  rw [EStateM.run_bind, onLink, Exec.run_zoom]
  cases (t.send c.os).run c.link <;> rfl

/-- What was given to `Crypto::send` stays. -/
def Grows {α : Type} (m : EStateM Ex (Client τ) α) : Prop :=
  Exec.Within (fun c c' => c.packets <+: c'.packets) m

theorem grows_path : Exec.Path fun c c' : Client τ => c.packets <+: c'.packets :=
  ⟨fun _ => List.prefix_rfl, fun _ _ _ => List.IsPrefix.trans⟩

theorem Grows.of_packets {α : Type} {m : EStateM Ex (Client τ) α}
    (h : Exec.Leaves Client.packets m) : Grows m := by
  intro c
  rw [h c]

theorem sendCmd_grows (t : Transport τ) : Grows (sendCmd t) := by
  intro c
  by_cases hnil : c.os = []
  · rw [sendCmd_of_empty t hnil]
    exact List.prefix_rfl
  · rw [sendCmd_run t hnil]
    cases (t.send c.os).run c.link <;> exact List.prefix_append _ _

/-! ### Two servers on a stream -/

/-- The object without its link. -/
def Client.rest (c : Client τ) : Client Unit := { c with link := () }

/-- The object with another link. -/
def Client.withLink {τ' : Type} (c : Client τ) (l : τ') : Client τ' := { c with link := l }

theorem Client.rest_withLink (c : Client τ) : c.rest.withLink c.link = c := rfl

/-- What two servers are run on: two transports that carry a stream, and that send alike while
their sending halves are the `same` after the packets that were sent, unless the first one is
`spent`. -/
structure Pairing (τ γ τ' γ' : Type) where
  t : Transport τ
  holds : Bytes → τ → Prop
  half : τ → γ
  carries : t.Carries holds half
  t' : Transport τ'
  holds' : Bytes → τ' → Prop
  half' : τ' → γ'
  carries' : t'.Carries holds' half'
  same : List Bytes → γ → γ' → Prop
  spent : List Bytes → γ → Prop
  sends : t.SendsAlike holds half t' holds' half' same spent

section Beside

variable {τ' γ' : Type} (d : Pairing τ γ τ' γ') (more : Bytes)

/-- Two servers that have done the same and have sent the same. -/
def Alike (c : Client τ) (c' : Client τ') : Prop :=
  c.rest = c'.rest ∧ d.same c.packets (d.half c.link) (d.half' c'.link)

/-- Two servers at the same point of their streams; the second stream has `more` at its end. -/
def Beside (c : Client τ) (c' : Client τ') : Prop :=
  Alike d c c' ∧ ∃ s, d.holds s c.link ∧ d.holds' (s ++ more) c'.link

/-- Why the first server may have stopped before the second one. -/
def Excused (c : Client τ) : Prop := more ≠ [] ∨ d.spent c.packets (d.half c.link)

/-- The first server has stopped, and the second one has gone on. -/
def Overtaken (c : Client τ) (c' : Client τ') : Prop :=
  c.packets <+: c'.packets ∧ Excused d more c

/-- Both servers have stopped. -/
def Parted (c : Client τ) (c' : Client τ') : Prop := Overtaken d more c c' ∨ Alike d c c'

/-- Two pieces of program that keep servers beside each other and return the same. -/
structure Follows {α : Type} (m : EStateM Ex (Client τ) α) (m' : EStateM Ex (Client τ') α) :
    Prop where
  both : Exec.Both (Beside d more) m m' (fun a a' c c' => a = a' ∧ Beside d more c c')
    (Parted d more) (Overtaken d more)
  grows : ∀ _ : τ, Grows m'

variable {d more}

theorem Grows.stay {α : Type} {m' : EStateM Ex (Client τ') α} (h : Grows m') (c : Client τ) :
    Exec.Within (fun u u' => Overtaken d more c u → Overtaken d more c u') m' :=
  fun u hu => ⟨hu.1.trans (h u), hu.2⟩

theorem Follows.bind {α β : Type} {m : EStateM Ex (Client τ) α} {m' : EStateM Ex (Client τ') α}
    {f : α → EStateM Ex (Client τ) β} {f' : α → EStateM Ex (Client τ') β}
    (hm : Follows d more m m') (hf : ∀ a, Follows d more (f a) (f' a)) :
    Follows d more (m >>= f) (m' >>= f') := by
  refine ⟨Exec.Both.bind hm.both (Exec.Both.same fun a => (hf a).both) (fun _ _ => .inl) ?_, ?_⟩
  · exact fun a c => ((hf a).grows c.link).stay c
  · exact fun l => .bind grows_path (hm.grows l) fun a => (hf a).grows l

theorem Follows.pure {α : Type} (a : α) : Follows d more (Pure.pure a) (Pure.pure a) :=
  ⟨Exec.Both.pure fun _ _ h => ⟨rfl, h⟩, fun _ => .pure grows_path a⟩

theorem Follows.ite {α : Type} {p : Prop} [Decidable p] {m n : EStateM Ex (Client τ) α}
    {m' n' : EStateM Ex (Client τ') α} (hm : p → Follows d more m m')
    (hn : ¬ p → Follows d more n n') :
    Follows d more (if p then m else n) (if p then m' else n') := by
  by_cases h : p
  · rw [if_pos h, if_pos h]
    exact hm h
  · rw [if_neg h, if_neg h]
    exact hn h

/-- Read the state: what the two servers find differs only in the link. -/
theorem Follows.get {β : Type} {f : Client τ → EStateM Ex (Client τ) β}
    {f' : Client τ' → EStateM Ex (Client τ') β}
    (h : ∀ c c', c.rest = c'.rest → Follows d more (f c) (f' c')) :
    Follows d more (MonadState.get >>= f) (MonadState.get >>= f') :=
  ⟨fun c c' hc => (h c c' hc.1.1).both c c' hc,
    fun l c' => (h (c'.rest.withLink l) c' rfl).grows l c'⟩

/-- A piece of program that does not use the link and sends nothing. -/
theorem Follows.of_rest {α : Type} {m : EStateM Ex (Client τ) α} {m' : EStateM Ex (Client τ') α}
    (m₀ : EStateM Ex (Client Unit) α) (hpackets : Exec.Leaves Client.packets m₀)
    (hm : m = Exec.zoom Client.rest (fun r c => r.withLink c.link) m₀)
    (hm' : m' = Exec.zoom Client.rest (fun r c => r.withLink c.link) m₀) :
    Follows d more m m' := by
  subst hm hm'
  refine ⟨fun c c' hc => ?_, fun _ => .of_packets (.zoom_part (fun _ _ h => h) hpackets)⟩
  obtain ⟨⟨hrest, hsame⟩, s, hs, hs'⟩ := hc
  have hend : d.same (Exec.endState (m₀.run c'.rest)).packets (d.half c.link) (d.half' c'.link) := by
    rw [hpackets c'.rest, ← hrest]
    exact hsame
  simp only [Exec.run_zoom, hrest]
  cases hr : m₀.run c'.rest with
  | ok a r =>
    rw [hr] at hend
    exact ⟨rfl, ⟨rfl, hend⟩, s, hs, hs'⟩
  | error e r =>
    rw [hr] at hend
    exact .inr ⟨rfl, hend⟩

theorem modify_follows {f : Client τ → Client τ} {f' : Client τ' → Client τ'}
    (f₀ : Client Unit → Client Unit) (hpackets : ∀ r, (f₀ r).packets = r.packets)
    (hf : ∀ c, f c = (f₀ c.rest).withLink c.link)
    (hf' : ∀ c, f' c = (f₀ c.rest).withLink c.link) :
    Follows d more (modify f) (modify f') := by
  obtain rfl := funext hf
  obtain rfl := funext hf'
  exact .of_rest (modify f₀) (.modify hpackets) rfl rfl

theorem write_follows (bs : Bytes) : Follows d more (write bs) (write bs) :=
  modify_follows (fun c => { c with os := c.os ++ bs }) (fun _ => rfl) (fun _ => rfl) fun _ => rfl

theorem extractWord_follows (old : Bytes) : Follows d more (extractWord old) (extractWord old) :=
  .of_rest (extractWord old) (.bind .get fun _ => .bind (.modify fun _ => rfl) fun _ => .pure _)
    rfl rfl

theorem extractInt64_follows (old : ℤ) : Follows d more (extractInt64 old) (extractInt64 old) :=
  .of_rest (extractInt64 old) (.bind .get fun _ => .bind (.modify fun _ => rfl) fun _ => .pure _)
    rfl rfl

theorem onHost_follows {α : Type} (m : EStateM Ex Host α) :
    Follows d more (onHost m) (onHost m) := by
  refine .of_rest (onHost m) (.zoom fun _ _ => rfl) ?_ ?_ <;>
  · funext c
    show (onHost m).run c = (Exec.zoom _ _ (onHost m)).run c
    simp only [onHost, Exec.run_zoom, Client.rest]
    cases m.run c.host <;> rfl

/-! ### The server's calls -/

/-- A header is read from both streams, unless the first one ends before it does. -/
theorem onLink_recvHeader_follows :
    Follows d more (onLink d.t.recvHeader) (onLink d.t'.recvHeader) := by
  refine ⟨fun c c' hc => ?_, fun _ => .of_packets (.zoom fun _ _ => rfl)⟩
  obtain ⟨⟨hrest, hsame⟩, s, hs, hs'⟩ := hc
  have hrun := d.carries.recvHeader hs
  have hrun' := d.carries'.recvHeader hs'
  have hpackets : c.packets = c'.packets := congrArg Client.packets hrest
  have halike : ∀ {l : τ} {l' : τ'}, d.half l = d.half c.link → d.half' l' = d.half' c'.link →
      Alike d { c with link := l } { c' with link := l' } := by
    intro l l' hl hl'
    refine ⟨hrest, ?_⟩
    rw [hl, hl']
    exact hsame
  rw [onLink, onLink, Exec.run_zoom, Exec.run_zoom]
  cases hscan : Transport.scanHeader s with
  | some x =>
    obtain ⟨header, rest⟩ := x
    rw [hscan] at hrun
    rw [Transport.scanHeader_append hscan more] at hrun'
    obtain ⟨l, hl, hheld, hhalf⟩ := hrun
    obtain ⟨l', hl', hheld', hhalf'⟩ := hrun'
    rw [hl, hl']
    exact ⟨rfl, halike hhalf hhalf', rest, hheld, hheld'⟩
  | none =>
    rw [hscan] at hrun
    obtain ⟨e, l, hl, hhalf⟩ := hrun
    rw [hl]
    by_cases hmore : more = []
    · rw [hmore, List.append_nil, hscan] at hrun'
      obtain ⟨e', l', hl', hhalf'⟩ := hrun'
      rw [hl']
      exact .inr (halike hhalf hhalf')
    · -- the second stream goes on
      have hover : ∀ l' : τ', Overtaken d more { c with link := l } { c' with link := l' } :=
        fun l' => ⟨hpackets ▸ List.prefix_rfl, .inl hmore⟩
      cases d.t'.recvHeader.run c'.link with
      | ok header l' => exact hover l'
      | error e' l' => exact .inl (hover l')

theorem recvCmd_follows : Follows d more (recvCmd d.t) (recvCmd d.t') := by
  refine Follows.bind (modify_follows (fun c => { c with is := (c.is.ignore bufferSize).clear })
    (fun _ => rfl) (fun _ => rfl) fun _ => rfl) fun _ => ?_
  refine Follows.bind onLink_recvHeader_follows fun header => ?_
  exact modify_follows (fun c => { c with is := c.is.str header }) (fun _ => rfl) (fun _ => rfl)
    fun _ => rfl

theorem sendCmd_follows : Follows d more (sendCmd d.t) (sendCmd d.t') := by
  refine ⟨fun c c' hc => ?_, fun _ => sendCmd_grows d.t'⟩
  obtain ⟨⟨hrest, hsame⟩, s, hs, hs'⟩ := hc
  have hos : c.os = c'.os := congrArg Client.os hrest
  by_cases hnil : c.os = []
  · rw [sendCmd_of_empty d.t hnil, sendCmd_of_empty d.t' (hos.symm.trans hnil)]
    exact ⟨rfl, ⟨hrest, hsame⟩, s, hs, hs'⟩
  · have hnoted : c.rest.noted = c'.rest.noted := congrArg Client.noted hrest
    have hpackets : c.noted.packets = c'.noted.packets := congrArg Client.packets hnoted
    have hboth := d.sends _ _ _ _ hnil c.link c'.link ⟨hs, hs', hsame⟩
    rw [sendCmd_run d.t hnil, sendCmd_run d.t' fun h => hnil (hos.trans h), ← hos]
    cases hl : (d.t.send c.os).run c.link with
    | ok n l =>
      cases hl' : (d.t'.send c.os).run c'.link with
      | ok n' l' =>
        rw [hl, hl'] at hboth
        obtain ⟨hheld, hheld', hsame'⟩ := hboth
        exact ⟨rfl, ⟨congrArg (fun r => { r with os := [] }) hnoted, hsame'⟩, s, hheld, hheld'⟩
      | error e l' =>
        rw [hl, hl'] at hboth
        exact hboth.elim
    | error e l =>
      have hover : ∀ {c₁ : Client τ'}, c₁.packets = c'.noted.packets →
          d.spent (c.packets ++ [c.os]) (d.half l) →
          Overtaken d more { c.noted with link := l } c₁ := by
        intro c₁ hc₁ hspent
        refine ⟨?_, .inr hspent⟩
        rw [hc₁, ← hpackets]
      cases hl' : (d.t'.send c.os).run c'.link with
      | ok n' l' =>
        rw [hl, hl'] at hboth
        exact hover rfl hboth
      | error e' l' =>
        rw [hl, hl'] at hboth
        rcases hboth with hspent | hsame'
        · exact .inl (hover rfl hspent)
        · exact .inr ⟨hnoted, hsame'⟩

theorem answer_follows (status : Status) :
    Follows d more (answer d.t status) (answer d.t' status) :=
  Follows.bind (write_follows _) fun _ => sendCmd_follows

/-! ### The loops over bodies -/

theorem sendFull_follows (count : ℕ) :
    Follows d more (sendFull d.t count) (sendFull d.t' count) :=
  Follows.ite (fun _ => sendCmd_follows) fun _ => .pure ()

theorem retrLoop_follows (content : Bytes) (count : ℕ) :
    Follows d more (retrLoop d.t content count) (retrLoop d.t' content count) := by
  induction content generalizing count with
  | nil => exact .pure ()
  | cons b content ih =>
    exact Follows.bind (write_follows [b]) fun _ =>
      Follows.bind (sendFull_follows count) fun _ => ih (count + 1)

theorem storLoop_leaves_packets (t : Transport τ) (path : Path) (size : ℤ) (n : ℕ) (received : ℤ)
    (writable : ℕ) : Exec.Leaves Client.packets (storLoop t path size n received writable) := by
  induction n generalizing received writable with
  | zero => exact .pure ()
  | succ n ih =>
    refine .ite (.bind (.zoom fun _ _ => rfl) fun fragment => ?_) (.pure ())
    exact .bind (.zoom fun _ _ => rfl) fun _ => ih _ _

/-- The loop of `cmd_stor` takes the same bytes, however they come. -/
theorem storLoop_follows (path : Path) (size : ℤ) (writable : ℕ) :
    Follows d more (storLoop d.t path size size.toNat 0 writable)
      (storLoop d.t' path size size.toNat 0 writable) := by
  refine ⟨fun c c' hc => ?_, fun _ => .of_packets (storLoop_leaves_packets _ _ _ _ _ _)⟩
  obtain ⟨⟨hrest, hsame⟩, s, hs, hs'⟩ := hc
  have hhost : c.host = c'.host := congrArg Client.host hrest
  have hpackets : c.packets = c'.packets := congrArg Client.packets hrest
  have hrun := storLoop_run d.carries path size size.toNat 0 writable hs (by omega)
  have hrun' := storLoop_run d.carries' path size size.toNat 0 writable hs' (by omega)
  have halike : ∀ {l : τ} {l' : τ'} (bs : Bytes), d.half l = d.half c.link →
      d.half' l' = d.half' c'.link →
      Alike d { c with link := l, host := c.host.appended path bs }
        { c' with link := l', host := c'.host.appended path bs } := by
    intro l l' bs hl hl'
    refine ⟨?_, ?_⟩
    · show { c.rest with host := c.host.appended path bs }
        = { c'.rest with host := c'.host.appended path bs }
      rw [hrest, hhost]
    · rw [hl, hl']
      exact hsame
  by_cases henough : (size - 0).toNat ≤ s.length
  · rw [if_pos henough] at hrun
    rw [if_pos (by rw [List.length_append]; omega), List.take_append_of_le_length henough,
      List.drop_append_of_le_length henough] at hrun'
    obtain ⟨l, hl, hheld, hhalf⟩ := hrun
    obtain ⟨l', hl', hheld', hhalf'⟩ := hrun'
    rw [hl, hl']
    exact ⟨rfl, halike _ hhalf hhalf', _, hheld, hheld'⟩
  · rw [if_neg henough] at hrun
    obtain ⟨e, l, hl, hhalf⟩ := hrun
    rw [hl]
    by_cases hmore : more = []
    · rw [hmore, List.append_nil, if_neg henough] at hrun'
      obtain ⟨e', l', hl', hhalf'⟩ := hrun'
      rw [hl']
      exact .inr (halike _ hhalf hhalf')
    · have hleaves := storLoop_leaves_packets d.t' path size size.toNat 0 writable c'
      cases hr : (storLoop d.t' path size size.toNat 0 writable).run c' with
      | ok u c₁ =>
        rw [hr] at hleaves
        exact ⟨(hpackets.trans hleaves.symm) ▸ List.prefix_rfl, .inl hmore⟩
      | error e' c₁ =>
        rw [hr] at hleaves
        exact .inl ⟨(hpackets.trans hleaves.symm) ▸ List.prefix_rfl, .inl hmore⟩

/-! ### The handlers -/

theorem cmdDele_follows : Follows d more (cmdDele d.t) (cmdDele d.t') := by
  refine Follows.bind (extractWord_follows []) fun filename => ?_
  refine Follows.ite (fun _ => answer_follows _) fun _ => ?_
  refine Follows.bind (onHost_follows _) fun removed => ?_
  exact Follows.ite (fun _ => answer_follows _) fun _ => answer_follows _

theorem cmdList_follows : Follows d more (cmdList d.t) (cmdList d.t') := by
  refine Follows.bind (onHost_follows _) fun dd => ?_
  cases dd with
  | none => exact answer_follows _
  | some names =>
    refine Follows.bind (write_follows _) fun _ => ?_
    refine Follows.bind sendCmd_follows fun _ => ?_
    exact Follows.bind (write_follows _) fun _ => sendCmd_follows

theorem cmdRetr_follows : Follows d more (cmdRetr d.t) (cmdRetr d.t') := by
  refine Follows.bind (extractWord_follows []) fun filename => ?_
  refine Follows.ite (fun _ => answer_follows _) fun _ => ?_
  refine Follows.bind (onHost_follows _) fun file => ?_
  cases file with
  | none => exact answer_follows _
  | some node =>
    refine Follows.get fun c c' hrest => ?_
    have hhost : c.host = c'.host := congrArg Client.host hrest
    dsimp only
    rw [hhost]
    refine Follows.bind (onHost_follows _) fun readable => ?_
    refine Follows.bind (write_follows _) fun _ => ?_
    refine Follows.bind sendCmd_follows fun _ => ?_
    exact Follows.bind (retrLoop_follows _ _) fun _ => sendCmd_follows

theorem cmdStor_follows : Follows d more (cmdStor d.t) (cmdStor d.t') := by
  refine Follows.bind (extractWord_follows []) fun filename => ?_
  refine Follows.ite (fun _ => answer_follows _) fun _ => ?_
  refine Follows.bind (extractWord_follows []) fun tag => ?_
  refine Follows.bind (onHost_follows _) fun stale => ?_
  refine Follows.bind (extractInt64_follows stale) fun size => ?_
  refine Follows.ite (fun _ => answer_follows _) fun _ => ?_
  refine Follows.ite (fun _ => answer_follows _) fun _ => ?_
  refine Follows.bind (onHost_follows _) fun file => ?_
  cases file with
  | none => exact answer_follows _
  | some path =>
    refine Follows.bind (answer_follows _) fun _ => ?_
    refine Follows.bind (onHost_follows _) fun writable => ?_
    exact storLoop_follows path size writable

/-! ### The loop of `execute` -/

theorem handle_follows (h : Handler) {m : EStateM Ex (Client τ) Unit}
    {m' : EStateM Ex (Client τ') Unit} (hm : Follows d more m m') :
    Follows d more (handle h m) (handle h m') :=
  Follows.bind (modify_follows (fun c => { c with handlers := c.handlers ++ [h] })
    (fun _ => rfl) (fun _ => rfl) fun _ => rfl) fun _ => hm

theorem dispatch_follows (cmd : Bytes) :
    Follows d more (dispatch d.t cmd) (dispatch d.t' cmd) := by
  refine Follows.ite (fun _ => ?dele) fun _ => ?_
  case dele => exact Follows.bind (handle_follows _ cmdDele_follows) fun _ => .pure true
  refine Follows.ite (fun _ => ?list) fun _ => ?_
  case list => exact Follows.bind (handle_follows _ cmdList_follows) fun _ => .pure true
  refine Follows.ite (fun _ => ?quit) fun _ => ?_
  case quit => exact Follows.bind (answer_follows _) fun _ => .pure false
  refine Follows.ite (fun _ => ?retr) fun _ => ?_
  case retr => exact Follows.bind (handle_follows _ cmdRetr_follows) fun _ => .pure true
  refine Follows.ite (fun _ => ?stor) fun _ => ?_
  case stor => exact Follows.bind (handle_follows _ cmdStor_follows) fun _ => .pure true
  exact Follows.bind (answer_follows _) fun _ => .pure true

theorem iteration_follows : Follows d more (iteration d.t) (iteration d.t') := by
  refine Follows.bind recvCmd_follows fun _ => ?_
  refine Follows.get fun c c' hrest => ?_
  have hcmd : c.cmd = c'.cmd := congrArg Client.cmd hrest
  rw [hcmd]
  refine Follows.bind (extractWord_follows _) fun cmd => ?_
  refine Follows.bind (modify_follows (fun c => { c with cmd := cmd }) (fun _ => rfl)
    (fun _ => rfl) fun _ => rfl) fun _ => ?_
  refine Follows.get fun c c' hrest => ?_
  have his : c.is = c'.is := congrArg Client.is hrest
  rw [his]
  exact Follows.ite (fun _ => dispatch_follows cmd) fun _ => .pure true

/-- **Two servers on a stream stay beside each other**, round after round. -/
theorem serve_follows (n : ℕ) : Follows d more (serve d.t n) (serve d.t' n) := by
  induction n with
  | zero => exact .pure ()
  | succ n ih =>
    refine Follows.bind iteration_follows fun more => ?_
    exact Follows.ite (fun _ => ih) fun _ => .pure ()

/-! ### Rounds -/

/-- A loop that is still running has come through its first round. -/
theorem Loop.after_succ {t : Transport τ} {n : ℕ} {c e : Client τ}
    (h : Loop.after t (n + 1) ⟨true, c⟩ = ⟨true, e⟩) :
    ∃ c₁, (iteration t).run c = .ok true c₁ ∧ Loop.after t n ⟨true, c₁⟩ = ⟨true, e⟩ := by
  have hafter : Loop.after t (n + 1) ⟨true, c⟩ = Loop.after t n (Loop.step t ⟨true, c⟩ ()).1 := rfl
  rw [hafter, Loop.step, if_pos rfl] at h
  cases hr : (iteration t).run c with
  | error x c₁ =>
    rw [hr] at h
    simp only [Loop.after_stopped, Loop.mk.injEq, Bool.false_eq_true, false_and] at h
  | ok goOn c₁ =>
    rw [hr] at h
    cases goOn with
    | true => exact ⟨c₁, rfl, h⟩
    | false => simp only [Loop.after_stopped, Loop.mk.injEq, Bool.false_eq_true, false_and] at h

theorem Loop.after_of_iteration {t : Transport τ} {c c₁ : Client τ}
    (h : (iteration t).run c = .ok true c₁) (n : ℕ) :
    Loop.after t (n + 1) ⟨true, c⟩ = Loop.after t n ⟨true, c₁⟩ := by
  have hafter : Loop.after t (n + 1) ⟨true, c⟩ = Loop.after t n (Loop.step t ⟨true, c⟩ ()).1 := rfl
  rw [hafter, Loop.step, if_pos rfl, h]

theorem Loop.after_add (t : Transport τ) (n m : ℕ) (l : Loop τ) :
    Loop.after t (n + m) l = Loop.after t m (Loop.after t n l) := by
  unfold Loop.after
  rw [List.replicate_add, Machine.run_append]

/-- What was given to `Crypto::send` stays, round after round. -/
theorem Loop.after_packets {t : Transport τ} (h : Grows (iteration t)) (n : ℕ) (l : Loop τ) :
    l.client.packets <+: (Loop.after t n l).client.packets := by
  induction n generalizing l with
  | zero => exact List.prefix_rfl
  | succ n ih =>
    have hstep : l.client.packets <+: (Loop.step t l ()).1.client.packets := by
      rw [Loop.step]
      split
      · have hround := h l.client
        cases hr : (iteration t).run l.client <;>
        · rw [hr] at hround
          exact hround
      · exact List.prefix_rfl
    exact hstep.trans (ih _)

/-- Where the first server has come after some rounds, the second one comes as well. -/
theorem after_follows {n : ℕ} {c e : Client τ} {c' : Client τ'} (hc : Beside d more c c')
    (h : Loop.after d.t n ⟨true, c⟩ = ⟨true, e⟩) :
    ∃ e', Loop.after d.t' n ⟨true, c'⟩ = ⟨true, e'⟩ ∧ Beside d more e e' := by
  induction n generalizing c c' with
  | zero =>
    cases h
    exact ⟨c', rfl, hc⟩
  | succ n ih =>
    obtain ⟨c₁, hr, h⟩ := Loop.after_succ h
    obtain ⟨goOn, c₁', hr', rfl, hc₁⟩ := (iteration_follows (d := d)).both.of_ok hc hr
    rw [Loop.after_of_iteration hr']
    exact ih hc₁ h

/-- Where the second server has come after some rounds, the first one comes as well, unless it is
overtaken. -/
theorem after_leads {n : ℕ} {c : Client τ} {c' e' : Client τ'} (hc : Beside d more c c')
    (h : Loop.after d.t' n ⟨true, c'⟩ = ⟨true, e'⟩) (hnot : ∀ e, ¬ Overtaken d more e e') :
    ∃ e, Loop.after d.t n ⟨true, c⟩ = ⟨true, e⟩ ∧ Beside d more e e' := by
  induction n generalizing c c' with
  | zero =>
    cases h
    exact ⟨c, rfl, hc⟩
  | succ n ih =>
    obtain ⟨c₁', hr', h⟩ := Loop.after_succ h
    cases hr : (iteration d.t).run c with
    | ok goOn c₁ =>
      obtain ⟨goOn', c₂, hr₂, rfl, hc₁⟩ := (iteration_follows (d := d)).both.of_ok hc hr
      rw [hr'] at hr₂
      cases hr₂
      rw [Loop.after_of_iteration hr]
      exact ih hc₁ h
    | error x c₁ =>
      rcases (iteration_follows (d := d)).both.of_error hc hr with ⟨x', c₂, hr₂, -⟩ |
        ⟨goOn', c₂, hr₂, hover⟩
      · rw [hr'] at hr₂
        cases hr₂
      · rw [hr'] at hr₂
        cases hr₂
        have hround : Follows d more (iteration d.t) (iteration d.t') := iteration_follows
        have hend := Loop.after_packets (hround.grows c.link) n ⟨true, c₁'⟩
        rw [h] at hend
        exact absurd ⟨hover.1.trans hend, hover.2⟩ (hnot c₁)

end Beside

end ServerClient

end Cybrg
