import Cybrg.Server.StoreRequests

/-!
# Uploads that fail

`Client::cmd_stor` truncates the file before the first byte of its body has arrived, and writes each
fragment as it comes.  Whatever goes wrong then leaves the beginning of the new content behind.

* `AllOrNothing` — the path leads to what it led to before, or to the whole body;
* `stored` — what arrives of a body and can be written;
* `Accepts.store` — the file store when `cmd_stor` has returned or thrown;
* `all_or_nothing_iff` — when an upload is all or nothing.
-/

namespace Cybrg

open Streams Files

namespace ServerClient

variable {τ γ : Type} {t : Transport τ} {holds : Bytes → τ → Prop} {half : τ → γ}

/-- When `cmd_stor` has returned or thrown, the file `name` holds what it held before, or all of the
`n` bytes that were announced.  The bytes that arrive before the transfer fails are `stream`. -/
def AllOrNothing (t : Transport τ) (c : Client τ) (name : Bytes) (n : ℤ) (stream : Bytes) : Prop :=
  (Exec.endState ((cmdStor t).run c)).host.store.held (fullpath name)
      = c.host.store.held (fullpath name) ∨
    n.toNat ≤ stream.length ∧
      (Exec.endState ((cmdStor t).run c)).host.store.held (fullpath name)
        = some (.file (stream.take n.toNat))

/-- The answer to the request can be sent. -/
def AnswerSent (t : Transport τ) (c : Client τ) : Prop :=
  ∃ n l, (t.send (c.os ++ Status.ok.reply)).run c.link = .ok n l

instance (t : Transport τ) (c : Client τ) : Decidable (AnswerSent t c) :=
  match h : (t.send (c.os ++ Status.ok.reply)).run c.link with
  | .ok n l => .isTrue ⟨n, l, h⟩
  | .error _ _ => .isFalse fun ⟨_, _, hrun⟩ => nomatch h.symm.trans hrun

/-- What arrives of a body of `n` bytes and can be written. -/
def stored (t : Transport τ) (c : Client τ) (n : ℤ) (stream : Bytes) : Bytes :=
  if AnswerSent t c then (stream.take n.toNat).take (c.host.limits.headD n.toNat) else []

/-- All of the body arrives and can be written. -/
def Whole (t : Transport τ) (c : Client τ) (n : ℤ) (stream : Bytes) : Prop :=
  n.toNat ≤ stream.length ∧
    (n.toNat = 0 ∨ AnswerSent t c ∧ n.toNat ≤ c.host.limits.headD n.toNat)

theorem whole_iff {c : Client τ} {n : ℤ} {stream : Bytes} :
    Whole t c n stream ↔ n.toNat ≤ stream.length ∧ stored t c n stream = stream.take n.toNat := by
  refine and_congr_right fun hlen => ?_
  have htake : (stream.take n.toNat).length = n.toNat := by
    rw [List.length_take, Nat.min_eq_left hlen]
  unfold stored
  by_cases hsent : AnswerSent t c
  · rw [if_pos hsent, List.take_eq_self_iff, htake]
    constructor
    · rintro (hzero | ⟨-, hfits⟩)
      · rw [hzero]
        exact Nat.zero_le _
      · exact hfits
    · exact fun hfits => .inr ⟨hsent, hfits⟩
  · rw [if_neg hsent]
    constructor
    · rintro (hzero | ⟨hdone, -⟩)
      · rw [hzero, List.take_zero]
      · exact absurd hdone hsent
    · intro hnil
      exact .inl (htake.symm.trans (List.length_eq_zero_iff.mpr hnil.symm))

/-- The loop writes what arrives, whether it returns or throws. -/
theorem storLoop_store (hc : t.Carries holds half) (path : Path) (n : ℤ) (writable : ℕ)
    {c : Client τ} {stream : Bytes} (h : holds stream c.link) :
    (Exec.endState ((storLoop t path n n.toNat 0 writable).run c)).host.store
      = c.host.store.append path ((stream.take n.toNat).take writable) := by
  have hloop := storLoop_run hc path n n.toNat 0 writable h (by rw [Int.sub_zero])
  rw [Int.sub_zero] at hloop
  split at hloop
  · obtain ⟨l, hrun, -, -⟩ := hloop
    rw [hrun]
    rfl
  · rename_i hshort
    obtain ⟨e, l, hrun, -⟩ := hloop
    rw [hrun, List.take_of_length_le (not_le.mp hshort).le]
    rfl

/-- **What an upload leaves behind**: the file has been truncated, and what arrived has been written
to it. -/
theorem Accepts.store (hc : t.Carries holds half) (haside : t.SendsAside holds) {c : Client τ}
    {name : Bytes} {n : ℤ} {stream : Bytes} (h : holds stream c.link) (hacc : Accepts t c name n) :
    ∃ path was, c.host.store.truncates (fullpath name) = some (path, was) ∧
      (Exec.endState ((cmdStor t).run c)).host.store
        = (c.host.store.truncate path).append path (stored t c n stream) := by
  obtain ⟨is, path, was, htruncates, hrun⟩ := hacc
  refine ⟨path, was, htruncates, ?_⟩
  have hanswer := answer_run t .ok { c with
    is := is
    host := c.host.recalled.called .openOut (some (path, was, c.host.store.truncate path)) }
  rw [hrun]
  dsimp only at hanswer
  cases hsend : (t.send (c.os ++ Status.ok.reply)).run c.link with
  | error e l =>
    -- the file is truncated, and the answer is not sent
    have hnot : ¬ AnswerSent t c := by
      rintro ⟨k, l', hsent⟩
      rw [hsend] at hsent
      cases hsent
    rw [hsend] at hanswer
    rw [Exec.bind_of_error hanswer, stored, if_neg hnot, Store.append_nil]
    rfl
  | ok k l =>
    have hheld : holds stream l := haside h hsend
    rw [hsend] at hanswer
    rw [Exec.bind_of_ok hanswer, stored, if_pos ⟨k, l, hsend⟩,
      Exec.bind_of_ok (onHost_of_ok (Host.run_limit n.toNat _))]
    exact storLoop_store hc path n _ hheld

/-- A request that is refused leaves the store alone. -/
theorem Refuses.store {c : Client τ} (h : Refuses t c) :
    (Exec.endState ((cmdStor t).run c)).host.store = c.host.store := by
  obtain ⟨status, -, is, host, hstore, hrun⟩ := h
  rw [hrun, answer_run, ← hstore]
  dsimp only
  cases (t.send (c.os ++ status.reply)).run c.link <;> rfl

/-- What is no regular file is opened and left as it is. -/
theorem allOrNothing_of_special (hc : t.Carries holds half) (haside : t.SendsAside holds)
    {c : Client τ} {name : Bytes} {n : ℤ} {stream reads : Bytes} (h : holds stream c.link)
    (hacc : Accepts t c name n)
    (hspecial : c.host.store.held (fullpath name) = some (.special reads)) :
    AllOrNothing t c name n stream := by
  obtain ⟨path, was, htruncates, hstore⟩ := hacc.store hc haside h
  rw [Store.held_of_place (Store.place_of_truncates htruncates).1] at hspecial
  left
  rw [hstore, Store.append_truncate_of_special hspecial]

/-- The file is opened, and is a regular file or new. -/
theorem allOrNothing_of_plain (hc : t.Carries holds half) (haside : t.SendsAside holds)
    {c : Client τ} {name : Bytes} {n : ℤ} {stream : Bytes} (h : holds stream c.link)
    (hacc : Accepts t c name n)
    (hplain : ∀ reads, c.host.store.held (fullpath name) ≠ some (.special reads)) :
    AllOrNothing t c name n stream ↔
      c.host.store.held (fullpath name) = some (.file (stored t c n stream)) ∨
        Whole t c n stream := by
  obtain ⟨path, was, htruncates, hstore⟩ := hacc.store hc haside h
  have hplain' : ∀ reads, c.host.store.get path ≠ some (.special reads) := by
    rw [← Store.held_of_place (Store.place_of_truncates htruncates).1]
    exact hplain
  have hheld : (Exec.endState ((cmdStor t).run c)).host.store.held (fullpath name)
      = some (.file (stored t c n stream)) := by
    rw [hstore, Store.append_truncate hplain', Store.held_set htruncates]
  rw [AllOrNothing, hheld, whole_iff]
  refine or_congr eq_comm (and_congr_right fun _ => ?_)
  rw [Option.some.injEq, Node.file.injEq]

/-- **When an upload is all or nothing**: the file cannot be opened, or it is no regular file, or it
held just what arrives of the body and can be written, or this is all of the body. -/
theorem all_or_nothing_iff (hc : t.Carries holds half) (haside : t.SendsAside holds) {c : Client τ}
    {s name stream : Bytes} {n : ℤ} (hreq : Upload (tokens s) name n) (h : holds stream c.link) :
    AllOrNothing t (c.reading s) name n stream ↔
      ¬ Opens c.host name ∨ (∃ reads, c.host.store.held (fullpath name) = some (.special reads)) ∨
        c.host.store.held (fullpath name) = some (.file (stored t c n stream)) ∨
          Whole t c n stream := by
  obtain ⟨num, htokens, hname, hnum, hpos, hle⟩ := hreq
  have hread : sizeRead c.stale [num] = n := by
    have hmax : maxFileSize = 4294967296 := rfl
    rw [sizeRead_numeral hnum]
    omega
  by_cases hopen : Opens c.host name
  · have hacc : Accepts t (c.reading s) name n := by
      have haccepts := stor_accepts (t := t) (c := c) ⟨htokens, hname, hread.trans_le hle⟩ hopen
      rwa [hread] at haccepts
    rw [or_iff_right (not_not.mpr hopen)]
    by_cases hspecial : ∃ reads, c.host.store.held (fullpath name) = some (.special reads)
    · obtain ⟨reads, hheld⟩ := hspecial
      exact iff_of_true (allOrNothing_of_special hc haside h hacc hheld) (.inl ⟨reads, hheld⟩)
    · rw [or_iff_right hspecial]
      exact allOrNothing_of_plain hc haside h hacc fun reads hheld => hspecial ⟨reads, hheld⟩
  · refine iff_of_true (.inl ?_) (.inl hopen)
    have hrefuses : Refuses t (c.reading s) := by
      refine stor_refuses fun name' rest hasks => ?_
      obtain ⟨rfl, -⟩ := List.cons.inj (htokens.symm.trans hasks.1)
      exact hopen
    rw [hrefuses.store]

/-- `SERVER_ROOT` with one file, of three bytes, and a client whose connection ends behind the
bytes `stream`. -/
def oldFile (stream : Bytes) : Client Bytes where
  link := stream
  host := { store :=
    { entries := [([], .dir), (serverRootPath, .dir), (serverRootPath ++ [text "a"], .file (text "old"))]
      nodup := by decide } }

theorem upload_two : Upload (tokens (text " a\nSize: 2\n\n")) (text "a") 2 := by
  have hdigits : ∀ d ∈ text "2", isDigit d := List.all_eq_true.mp rfl
  exact ⟨text "2", by decide, by decide, .plain (by decide) hdigits, by decide, by decide⟩

/-- A body of which both bytes arrive. -/
theorem whole_upload :
    AllOrNothing .plain ((oldFile (text "xy")).reading (text " a\nSize: 2\n\n")) (text "a") 2
      (text "xy") := by
  refine (all_or_nothing_iff plain_carries plain_sendsAside upload_two rfl).mpr ?_
  refine .inr (.inr (.inr ⟨by decide, .inr ⟨⟨_, _, rfl⟩, by decide⟩⟩))

/-- **A connection that ends inside the body** leaves the first byte of it, and the old content is
lost. -/
theorem half_upload :
    ¬ AllOrNothing .plain ((oldFile (text "x")).reading (text " a\nSize: 2\n\n")) (text "a") 2
        (text "x") ∧
      (Exec.endState ((cmdStor .plain).run
        ((oldFile (text "x")).reading (text " a\nSize: 2\n\n")))).host.store.held
          (fullpath (text "a")) = some (.file (text "x")) := by
  refine ⟨?_, ?_⟩
  · unfold AllOrNothing
    decide +kernel
  · decide +kernel

end ServerClient

end Cybrg
