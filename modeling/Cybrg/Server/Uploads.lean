import Cybrg.Server.Threads

/-!
# Uploads to the same file

Every `cmd_stor` empties its file when it opens it, and writes at a position of its own.

* `Threads.upload_step`, `Threads.contents_step` — what a step does to an upload and to a file;
* `Threads.mixed_run` — every byte of a file comes from an upload, at the same position;
* `Threads.Progress` — the invariant of an upload that has its file to itself;
* `Threads.uploads_mix` — both, for uploads that are all completed;
* `Threads.uploads_mixed` — the file need not be one of the bodies.
-/

namespace Cybrg

open Files

namespace ServerClient

variable {τ : Type} {t : Transport τ}

namespace Threads

variable {w : Threads τ}

/-! ### Uploads -/

theorem upload_runs {α : Type} {i : ℕ} {m : EStateM Ex (Client τ) α} {next : α → Task}
    {failed : Task} {x : Option (ℕ × Bytes)} (hnext : ∀ a, (next a).upload = x)
    (hfailed : failed.upload = x) : ((w.runs i m next failed).task i).upload = x := by
  obtain ⟨a, h⟩ | h := runs_task w i m next failed
  · rw [h, hnext]
  · rw [h, hfailed]

/-- A piece of a program after which nothing is uploaded. -/
theorem not_upload_runs {α : Type} {i : ℕ} {m : EStateM Ex (Client τ) α} {next : α → Task}
    {failed : Task} {x : ℕ × Bytes} (hnext : ∀ a, (next a).upload = none)
    (hfailed : failed.upload = none) :
    ((w.runs i m next failed).task i).upload ≠ some x := by
  rw [upload_runs hnext hfailed]
  exact nofun

/-- A stream that writes. -/
theorem flush_upload {i k n : ℕ} {body : Bytes} (h : (w.task i).upload = some (k, body)) :
    ∃ written, (w.flush i n).1.disk = w.disk.write k written ((body.drop written).take (n + 1)) ∧
      (w.flush i n).2 = [] ∧ ((w.flush i n).1.task i).upload = some (k, body) := by
  cases htask : w.task i with
  | receiving k' size body' written =>
    rw [htask] at h
    cases h
    simp only [flush, htask]
    refine ⟨written, rfl, trivial, ?_⟩
    rw [task, setThread_self]
    rfl
  | leaving k' body' written =>
    rw [htask] at h
    cases h
    simp only [flush, htask]
    refine ⟨written, rfl, trivial, ?_⟩
    rw [task, setThread_self]
    rfl
  | _ =>
    rw [htask] at h
    cases h

/-- **What a step does to an upload**: it receives more, or it ends. -/
theorem upload_step {i k : ℕ} {body : Bytes} (h : (w.task i).upload = some (k, body)) (e : Event) :
    (∃ more, ((step t w e).1.task i).upload = some (k, body ++ more)) ∨
      ∃ c, Note.closed i k body c ∈ (step t w e).2 := by
  have hsame : ∀ {w' : Threads τ}, w'.threads i = w.threads i →
      ∃ more, (w'.task i).upload = some (k, body ++ more) := by
    intro w' hthread
    refine ⟨[], ?_⟩
    rw [task, hthread, List.append_nil]
    exact h
  by_cases hi : i = e.index
  · cases e with
    | request j r =>
      obtain rfl : i = j := hi
      have hbusy : w.task i ≠ .ready := fun hready => by
        rw [hready] at h
        cases h
      exact .inl (hsame (by rw [step, if_neg hbusy]))
    | proceed j n =>
      obtain rfl : i = j := hi
      cases htask : w.task i with
      | receiving k' size body' written =>
        rw [htask] at h
        cases h
        simp only [step, proceed, htask]
        split
        · obtain ⟨fragment, hr⟩ | hr := runs_task w i
            (recvBodyFragment t (min (size - body.length) bufferSize).toNat)
            (fun fragment => .receiving k size (body ++ fragment) written)
            (.leaving k body written)
          · exact .inl ⟨fragment, by rw [hr]; rfl⟩
          · exact .inl ⟨[], by rw [hr, List.append_nil]; rfl⟩
        · split
          · exact .inr ⟨true, List.mem_singleton_self _⟩
          · exact .inl (hsame rfl)
      | leaving k' body' written =>
        rw [htask] at h
        cases h
        simp only [step, proceed, htask]
        split
        · exact .inr ⟨false, List.mem_singleton_self _⟩
        · exact .inl (hsame rfl)
      | _ =>
        rw [htask] at h
        cases h
    | flush j n =>
      obtain rfl : i = j := hi
      obtain ⟨-, -, -, hup⟩ := flush_upload (n := n) h
      exact .inl ⟨[], by rw [List.append_nil]; exact hup⟩
  · exact .inl (hsame (step_ne hi))

theorem flush_idle {i n : ℕ} (h : (w.task i).upload = none) : w.flush i n = (w, []) := by
  cases htask : w.task i with
  | receiving k' size body' written =>
    rw [htask] at h
    cases h
  | leaving k' body' written =>
    rw [htask] at h
    cases h
  | _ => simp [flush, htask]

/-- **What a step does to a file**: nothing, or an upload is opened, or one writes. -/
theorem contents_step (t : Transport τ) (w : Threads τ) (e : Event) (k : ℕ) :
    ((step t w e).1.disk.contents k = w.disk.contents k ∧ ∀ i, Note.opened i k ∉ (step t w e).2) ∨
    ((step t w e).1.disk.contents k = [] ∧ (step t w e).2 = [.opened e.index k] ∧
      ((step t w e).1.task e.index).upload = some (k, [])) ∨
    (∃ i n body written, e = .flush i n ∧ (w.task i).upload = some (k, body) ∧
      (step t w e).1.disk.contents k
        = overwrite (w.disk.contents k) written ((body.drop written).take (n + 1)) ∧
      (step t w e).2 = [] ∧ ((step t w e).1.task i).upload = some (k, body)) := by
  cases e with
  | request i r =>
    simp only [step]
    split
    · cases r with
      | retr filename =>
        refine .inl ?_
        simp only [request]
        split <;> simp
      | stor filename size =>
        simp only [request]
        split
        · refine .inl ?_
          simp
        · by_cases hk : k = w.disk.truncates filename.path
          · subst hk
            refine .inr (.inl ⟨?_, rfl, upload_runs (fun _ => rfl) rfl⟩)
            rw [runs_disk, Disk.contents_truncate, if_pos rfl]
          · refine .inl ⟨?_, fun j hj => ?_⟩
            · rw [runs_disk, Disk.contents_truncate, if_neg hk]
            · cases List.mem_singleton.mp hj
              exact hk rfl
      | dele filename =>
        refine .inl ?_
        simp only [request]
        split <;> simp [Disk.unlink]
    · refine .inl ?_
      simp
  | proceed i n =>
    refine .inl ?_
    simp only [step, proceed]
    split
    · simp
    · split <;> simp
    · split
      · simp
      · split <;> simp
    · split <;> simp
    · simp
  | flush i n =>
    simp only [step]
    cases hup : (w.task i).upload with
    | none =>
      refine .inl ?_
      rw [flush_idle hup]
      simp
    | some x =>
      obtain ⟨k', body⟩ := x
      obtain ⟨written, hdisk, hnotes, htask⟩ := flush_upload (n := n) hup
      by_cases hk : k = k'
      · subst hk
        refine .inr (.inr ⟨i, n, body, written, rfl, hup, ?_, hnotes, htask⟩)
        rw [hdisk, Disk.contents_write, if_pos rfl]
      · refine .inl ⟨?_, fun j hj => ?_⟩
        · rw [hdisk, Disk.contents_write, if_neg hk]
        · rw [hnotes] at hj
          cases hj

/-- An upload to `k`: one that is over, or one that is going on. -/
def Body (w : Threads τ) (out : List Note) (k : ℕ) (body : Bytes) : Prop :=
  (∃ i c, Note.closed i k body c ∈ out) ∨ ∃ i, (w.task i).upload = some (k, body)

theorem Body.step {out : List Note} {k : ℕ} {body : Bytes} (h : Body w out k body) (e : Event) :
    ∃ more, Body (step t w e).1 (out ++ (step t w e).2) k (body ++ more) := by
  obtain ⟨i, c, hc⟩ | ⟨i, hi⟩ := h
  · refine ⟨[], .inl ⟨i, c, ?_⟩⟩
    rw [List.append_nil]
    exact List.mem_append_left _ hc
  · obtain ⟨more, hmore⟩ | ⟨c, hc⟩ := upload_step (t := t) hi e
    · exact ⟨more, .inr ⟨i, hmore⟩⟩
    · refine ⟨[], .inl ⟨i, c, ?_⟩⟩
      rw [List.append_nil]
      exact List.mem_append_right _ hc

/-- Every byte of a file to which something was uploaded comes from an upload, at the same
position, or from a gap; and some upload is as long as the file. -/
def Mixed (w : Threads τ) (out : List Note) : Prop :=
  ∀ k i, Note.opened i k ∈ out →
    (∀ (p : ℕ) (b : Byte), (w.disk.contents k)[p]? = some b →
      b = 0 ∨ ∃ body : Bytes, Body w out k body ∧ body[p]? = some b) ∧
    ∃ body : Bytes, Body w out k body ∧ (w.disk.contents k).length ≤ body.length

theorem getElem?_append_some {body : Bytes} {p : ℕ} {b : Byte} (h : body[p]? = some b)
    (more : Bytes) : (body ++ more)[p]? = some b := by
  rw [List.getElem?_append_left (List.getElem?_eq_some_iff.mp h).1]
  exact h

/-- What is written is part of the body, at its own position. -/
theorem getElem?_piece {body : Bytes} {written m j : ℕ} {b : Byte}
    (h : ((body.drop written).take m)[j]? = some b) : body[written + j]? = some b := by
  rw [List.getElem?_take] at h
  split at h
  · rwa [List.getElem?_drop] at h
  · cases h

theorem Mixed.step {out : List Note} (h : Mixed w out) (e : Event) :
    Mixed (step t w e).1 (out ++ (step t w e).2) := by
  intro k i hopened
  -- what is known of the file stays known if its content does
  have hkeep : ∀ {p : ℕ} {b : Byte}, (∃ body : Bytes, Body w out k body ∧ body[p]? = some b) →
      ∃ body : Bytes, Body (Threads.step t w e).1 (out ++ (Threads.step t w e).2) k body ∧
        body[p]? = some b := by
    rintro p b ⟨body, hbody, hb⟩
    obtain ⟨more, hmore⟩ := hbody.step (t := t) e
    exact ⟨_, hmore, getElem?_append_some hb more⟩
  have hlong : ∀ {l : ℕ}, (∃ body, Body w out k body ∧ l ≤ body.length) →
      ∃ body, Body (Threads.step t w e).1 (out ++ (Threads.step t w e).2) k body ∧
        l ≤ body.length := by
    rintro l ⟨body, hbody, hl⟩
    obtain ⟨more, hmore⟩ := hbody.step (t := t) e
    exact ⟨_, hmore, by rw [List.length_append]; omega⟩
  obtain ⟨hsame, hnone⟩ | ⟨hempty, hnotes, hup⟩ | ⟨j, n, body, written, rfl, hup, hwrite, hnotes,
    hup'⟩ := contents_step t w e k
  · rcases List.mem_append.mp hopened with hold | hnew
    · obtain ⟨hbytes, hlen⟩ := h k i hold
      rw [hsame]
      exact ⟨fun p b hb => (hbytes p b hb).imp_right hkeep, hlong hlen⟩
    · exact absurd hnew (hnone i)
  · rw [hempty]
    exact ⟨fun p b hb => by simp at hb, [], .inr ⟨e.index, hup⟩, le_refl _⟩
  · have hold : Note.opened i k ∈ out := by
      rwa [hnotes, List.append_nil] at hopened
    obtain ⟨hbytes, hlen⟩ := h k i hold
    have hbody : Body (Threads.step t w (.flush j n)).1
        (out ++ (Threads.step t w (.flush j n)).2) k body := .inr ⟨j, hup'⟩
    rw [hwrite]
    refine ⟨fun p b hb => ?_, ?_⟩
    · obtain hold | hgap | ⟨q, rfl, hpiece⟩ := byte_overwrite hb
      · exact (hbytes p b hold).imp_right hkeep
      · exact .inl hgap
      · exact .inr ⟨body, hbody, getElem?_piece hpiece⟩
    · rcases Nat.lt_or_ge written body.length with hlt | hge
      · have hle := length_overwrite_le (w.disk.contents k) written
          ((body.drop written).take (n + 1))
        have hpiece : written + ((body.drop written).take (n + 1)).length ≤ body.length := by
          rw [List.length_take, List.length_drop]
          omega
        rcases Nat.le_total (w.disk.contents k).length body.length with hc | hc
        · exact ⟨body, hbody, by omega⟩
        · obtain ⟨other, hother, hl⟩ := hlong hlen
          exact ⟨other, hother, by omega⟩
      · rw [List.drop_eq_nil_of_le hge, List.take_nil, overwrite_nil]
        exact hlong hlen

theorem mixed_run (t : Transport τ) (disk : Disk) (links : ℕ → Client τ) (es : List Event) :
    Mixed (run t disk links es).1 (run t disk links es).2 := by
  have hnew : Mixed (new disk links) [] := fun _ _ h => absurd h List.not_mem_nil
  exact Machine.invariant_trace (J := Mixed) (fun _ _ e h _ => h.step e) hnew
    (Machine.meets_true es)

/-! ### An upload that is left alone -/

/-- An upload that a step begins or goes on with. -/
theorem upload_origin {i k : ℕ} {body : Bytes} {e : Event}
    (h : ((step t w e).1.task i).upload = some (k, body)) :
    (∃ body', (w.task i).upload = some (k, body')) ∨ Note.opened i k ∈ (step t w e).2 := by
  by_cases hi : i = e.index
  · cases e with
    | request j r =>
      obtain rfl : i = j := hi
      simp only [step] at h ⊢
      split at h
      · rename_i hready
        rw [if_pos hready]
        cases r with
        | retr filename =>
          simp only [request] at h
          split at h
          · exact absurd h (not_upload_runs (fun _ => rfl) rfl)
          · rw [task, setThread_self] at h
            cases h
        | stor filename size =>
          simp only [request] at h ⊢
          split at h
          · exact absurd h (not_upload_runs (fun _ => rfl) rfl)
          · rename_i hsize
            have hup : (({ w with disk := w.disk.truncate filename.path }.runs i (answer t .ok)
                (fun _ => .receiving (w.disk.truncates filename.path) size [] 0)
                (.leaving (w.disk.truncates filename.path) [] 0)).task i).upload
                  = some (w.disk.truncates filename.path, []) :=
              upload_runs (fun _ => rfl) rfl
            cases hup.symm.trans h
            rw [if_neg hsize]
            exact .inr (List.mem_singleton_self _)
        | dele filename =>
          simp only [request] at h
          split at h <;> exact absurd h (not_upload_runs (fun _ => rfl) rfl)
      · exact .inl ⟨body, h⟩
    | proceed j n =>
      obtain rfl : i = j := hi
      refine .inl ?_
      simp only [step, proceed] at h
      split at h
      · exact absurd h (not_upload_runs (fun _ => rfl) rfl)
      · split at h <;> exact absurd h (not_upload_runs (fun _ => rfl) rfl)
      · rename_i k' size body' written htask
        have hsame : (w.task i).upload = some (k', body') := by rw [htask]; rfl
        split at h
        · obtain ⟨fragment, hr⟩ | hr := runs_task w i
            (recvBodyFragment t (min (size - body'.length) bufferSize).toNat)
            (fun fragment => .receiving k' size (body' ++ fragment) written)
            (.leaving k' body' written)
          · rw [hr] at h
            cases h
            exact ⟨_, hsame⟩
          · rw [hr] at h
            cases h
            exact ⟨_, hsame⟩
        · split at h
          · rw [task, setThread_self] at h
            cases h
          · exact ⟨body, h⟩
      · split at h
        · rw [task, setThread_self] at h
          cases h
        · exact ⟨body, h⟩
      · exact ⟨body, h⟩
    | flush j n =>
      obtain rfl : i = j := hi
      cases hup : (w.task i).upload with
      | some x =>
        obtain ⟨k', body'⟩ := x
        obtain ⟨-, -, -, hafter⟩ := flush_upload (n := n) hup
        rw [step, hafter] at h
        cases h
        exact .inl ⟨_, rfl⟩
      | none =>
        rw [step, flush_idle hup, hup] at h
        cases h
  · rw [task, step_ne hi] at h
    exact .inl ⟨body, h⟩

/-- No other upload than that of the thread `i` opens the file `k` or writes to it, and `i` does
not open it again. -/
def Undisturbed (t : Transport τ) (i k : ℕ) (w : Threads τ) (e : Event) : Prop :=
  (∀ j, Note.opened j k ∉ (step t w e).2) ∧
    ∀ j n body, e = .flush j n → (w.task j).upload = some (k, body) → j = i

/-- How far an upload of `size` bytes to a file has come that nobody else writes to. -/
inductive Progress (w : Threads τ) (out : List Note) (i k : ℕ) (size : ℤ) : Prop where
  | receiving (body : Bytes) (written : ℕ) (task : w.task i = .receiving k size body written)
      (content : w.disk.contents k = body.take written) (le : written ≤ body.length)
  | leaving (body : Bytes) (written : ℕ) (task : w.task i = .leaving k body written)
      (content : w.disk.contents k = body.take written) (le : written ≤ body.length)
  | closed (body : Bytes) (completed : Bool) (note : Note.closed i k body completed ∈ out)
      (content : w.disk.contents k = body) (all : completed = true → size ≤ body.length)
      (ended : ∀ body, (w.task i).upload ≠ some (k, body))

/-- Writing the next piece of a body behind what was written of it. -/
theorem overwrite_take {body : Bytes} {written : ℕ} (h : written ≤ body.length) (m : ℕ) :
    overwrite (body.take written) written ((body.drop written).take m)
      = body.take (written + ((body.drop written).take m).length) := by
  have hlen : (body.take written).length = written := by
    rw [List.length_take]
    omega
  have hend := overwrite_length (body.take written) ((body.drop written).take m)
  rw [hlen] at hend
  rw [hend, ← List.take_add, List.length_take, List.length_drop]
  rcases Nat.le_total (written + m) body.length with hle | hge
  · rw [Nat.min_eq_left (by omega)]
  · rw [List.take_of_length_le hge, List.take_of_length_le (by omega)]

/-- What a stream has written stays the beginning of the body. -/
theorem contents_flush {d : Disk} {k written : ℕ} {body : Bytes}
    (content : d.contents k = body.take written) (le : written ≤ body.length) (m : ℕ) :
    (d.write k written ((body.drop written).take m)).contents k
        = body.take (written + ((body.drop written).take m).length) ∧
      written + ((body.drop written).take m).length ≤ body.length := by
  refine ⟨?_, ?_⟩
  · rw [Disk.contents_write, if_pos rfl, content, overwrite_take le]
  · rw [List.length_take, List.length_drop]
    omega

/-- The file is only changed by the stream of the thread `i`. -/
theorem Undisturbed.contents {i k : ℕ} {e : Event} (he : Undisturbed t i k w e)
    (hflush : ∀ n body, e = .flush i n → (w.task i).upload ≠ some (k, body)) :
    (step t w e).1.disk.contents k = w.disk.contents k := by
  obtain ⟨hsame, -⟩ | ⟨-, hnotes, -⟩ | ⟨j, n, body, written, hj, hup, -⟩ := contents_step t w e k
  · exact hsame
  · exact absurd (hnotes ▸ List.mem_singleton_self _) (he.1 e.index)
  · obtain rfl := he.2 j n body hj hup
    exact absurd hup (hflush n body hj)

/-- A step that leaves the thread and the file alone. -/
theorem Progress.of_same {w' : Threads τ} {out : List Note} {i k : ℕ} {size : ℤ}
    (h : Progress w out i k size) (hthread : w'.threads i = w.threads i)
    (hcontent : w'.disk.contents k = w.disk.contents k) (notes : List Note) :
    Progress w' (out ++ notes) i k size := by
  have htask : w'.task i = w.task i := congrArg Thread.task hthread
  cases h with
  | receiving body written task content le =>
    exact .receiving body written (htask.trans task) (hcontent.trans content) le
  | leaving body written task content le =>
    exact .leaving body written (htask.trans task) (hcontent.trans content) le
  | closed body completed note content all ended =>
    exact .closed body completed (List.mem_append_left _ note) (hcontent.trans content) all
      (by rw [htask]; exact ended)

theorem Progress.step {out : List Note} {i k : ℕ} {size : ℤ} (h : Progress w out i k size)
    {e : Event} (he : Undisturbed t i k w e) :
    Progress (step t w e).1 (out ++ (step t w e).2) i k size := by
  by_cases hi : i = e.index
  · cases h with
    | receiving body written htask content le =>
      cases e with
      | request j r =>
        obtain rfl : i = j := hi
        rw [Threads.step, if_neg fun hready => by rw [htask] at hready; cases hready]
        exact (Progress.receiving body written htask content le).of_same rfl rfl []
      | proceed j n =>
        obtain rfl : i = j := hi
        simp only [Threads.step, proceed, htask]
        split
        · obtain ⟨fragment, hr⟩ | hr := runs_task w i
            (recvBodyFragment t (min (size - body.length) bufferSize).toNat)
            (fun fragment => .receiving k size (body ++ fragment) written)
            (.leaving k body written)
          · refine .receiving (body ++ fragment) written hr ?_ (by rw [List.length_append]; omega)
            rw [runs_disk, content, List.take_append_of_le_length le]
          · exact .leaving body written hr (by rw [runs_disk, content]) le
        · split
          · rename_i hsize hwritten
            refine .closed body true (List.mem_append_right _ (List.mem_singleton_self _)) ?_
              (fun _ => not_lt.mp hsize) fun body' => ?_
            · rw [setThread_disk, content, hwritten, List.take_length]
            · rw [task, setThread_self]
              exact (Option.some_ne_none _).symm
          · exact (Progress.receiving body written htask content le).of_same rfl rfl []
      | flush j n =>
        obtain rfl : i = j := hi
        simp only [Threads.step, flush, htask]
        obtain ⟨hcontent, hle⟩ := contents_flush content le (n + 1)
        refine .receiving body (written + ((body.drop written).take (n + 1)).length) ?_ ?_ hle
        · rw [task, setThread_self]
        · rw [setThread_disk, hcontent]
    | leaving body written htask content le =>
      cases e with
      | request j r =>
        obtain rfl : i = j := hi
        rw [Threads.step, if_neg fun hready => by rw [htask] at hready; cases hready]
        exact (Progress.leaving body written htask content le).of_same rfl rfl []
      | proceed j n =>
        obtain rfl : i = j := hi
        simp only [Threads.step, proceed, htask]
        split
        · rename_i hwritten
          refine .closed body false (List.mem_append_right _ (List.mem_singleton_self _)) ?_
            (fun hcompleted => absurd hcompleted Bool.false_ne_true) fun body' => ?_
          · rw [setThread_disk, content, hwritten, List.take_length]
          · rw [task, setThread_self]
            exact (Option.some_ne_none _).symm
        · exact (Progress.leaving body written htask content le).of_same rfl rfl []
      | flush j n =>
        obtain rfl : i = j := hi
        simp only [Threads.step, flush, htask]
        obtain ⟨hcontent, hle⟩ := contents_flush content le (n + 1)
        refine .leaving body (written + ((body.drop written).take (n + 1)).length) ?_ ?_ hle
        · rw [task, setThread_self]
        · rw [setThread_disk, hcontent]
    | closed body completed note content all ended =>
      refine .closed body completed (List.mem_append_left _ note)
        ((he.contents fun n body' _ => ended body').trans content) all fun body' hup => ?_
      obtain ⟨body'', hold⟩ | hopened := upload_origin hup
      · exact ended body'' hold
      · exact he.1 i hopened
  · exact h.of_same (step_ne hi) (he.contents fun n _ hf => absurd (by rw [hf]; rfl) hi) _

/-- An upload begins with an empty file. -/
theorem Progress.begin {i k : ℕ} {filename : FileName} {size : ℤ}
    (h : Note.opened i k ∈ (Threads.step t w (.request i (.stor filename size))).2) :
    Progress (Threads.step t w (.request i (.stor filename size))).1 [] i k size := by
  simp only [Threads.step, request] at h ⊢
  split at h
  · rename_i hready
    rw [if_pos hready]
    split at h
    · cases h
    · rename_i hsize
      rw [if_neg hsize]
      cases List.mem_singleton.mp h
      have hempty : (w.disk.truncate filename.path).contents (w.disk.truncates filename.path)
          = [] := by
        rw [Disk.contents_truncate, if_pos rfl]
      obtain ⟨_, hr⟩ | hr := runs_task { w with disk := w.disk.truncate filename.path } i
        (answer t .ok) (fun _ => .receiving (w.disk.truncates filename.path) size [] 0)
        (.leaving (w.disk.truncates filename.path) [] 0)
      · exact .receiving [] 0 hr (by rw [runs_disk]; exact hempty) (le_refl _)
      · exact .leaving [] 0 hr (by rw [runs_disk]; exact hempty) (le_refl _)
  · cases h

/-- **Uploads to one file, all completed.**  In the file `k` there is at every position a byte of one
of the bodies, the one at the same position, or a zero, and the file is no longer than some body.
If one upload has the file to itself from its opening on, the file is its body, in full. -/
theorem uploads_mix (t : Transport τ) (disk : Disk) (links : ℕ → Client τ) (es : List Event) (k : ℕ)
    (hsome : ∃ i, Note.opened i k ∈ (run t disk links es).2)
    (hdone : ∀ i body, ((run t disk links es).1.task i).upload ≠ some (k, body))
    (hnormal : ∀ i body c, Note.closed i k body c ∈ (run t disk links es).2 → c = true) :
    let file := (run t disk links es).1.disk.contents k
    (∀ (p : ℕ) (b : Byte), file[p]? = some b → b = 0 ∨
      ∃ i body, Note.closed i k body true ∈ (run t disk links es).2 ∧ body[p]? = some b) ∧
    (∃ i body, Note.closed i k body true ∈ (run t disk links es).2 ∧
      file.length ≤ body.length) ∧
    ∀ (es₁ es₂ : List Event) (i : ℕ) (filename : FileName) (size : ℤ),
      es = es₁ ++ .request i (.stor filename size) :: es₂ →
      Note.opened i k ∈ (step t (run t disk links es₁).1 (.request i (.stor filename size))).2 →
      Machine.Meets (step t) (Undisturbed t i k)
        (step t (run t disk links es₁).1 (.request i (.stor filename size))).1 es₂ →
      ∃ body, Note.closed i k body true ∈ (run t disk links es).2 ∧ size ≤ body.length ∧
        file = body := by
  have hclosed : ∀ {body : Bytes},
      Body (run t disk links es).1 (run t disk links es).2 k body →
        ∃ i, Note.closed i k body true ∈ (run t disk links es).2 := by
    intro body hbody
    obtain ⟨i, c, hc⟩ | ⟨i, hi⟩ := hbody
    · exact ⟨i, hnormal i body c hc ▸ hc⟩
    · exact absurd hi (hdone i body)
  obtain ⟨i₀, hopened⟩ := hsome
  obtain ⟨hbytes, longest, hlong, hlen⟩ := mixed_run t disk links es k i₀ hopened
  refine ⟨fun p b hb => ?_, ?_, ?_⟩
  · obtain hgap | ⟨body, hbody, hb⟩ := hbytes p b hb
    · exact .inl hgap
    · obtain ⟨i, hi⟩ := hclosed hbody
      exact .inr ⟨i, body, hi, hb⟩
  · obtain ⟨i, hi⟩ := hclosed hlong
    exact ⟨i, longest, hi, hlen⟩
  · rintro es₁ es₂ i filename size rfl hopens hun
    have hprogress := Machine.invariant_trace (J := fun w out => Progress w out i k size)
      (fun _ _ _ h he => h.step he) (Progress.begin hopens) hun
    rw [List.nil_append] at hprogress
    simp only [run, Machine.run_append, Machine.run_cons] at hdone hnormal ⊢
    cases hprogress with
    | receiving body written htask _ _ =>
      exact absurd (by rw [htask]; rfl) (hdone i body)
    | leaving body written htask _ _ =>
      exact absurd (by rw [htask]; rfl) (hdone i body)
    | closed body completed note content all ended =>
      have hnote := List.mem_append_right (Machine.run (step t) (new disk links) es₁).2
        (List.mem_append_right (step t (Machine.run (step t) (new disk links) es₁).1
          (.request i (.stor filename size))).2 note)
      have htrue := hnormal i body completed hnote
      subst htrue
      exact ⟨body, hnote, all rfl, content⟩

/-! ### Two uploads -/

/-- Two uploads, one after the other. -/
def inTurn : List Event :=
  [.request 0 (.stor nameA 4), .proceed 0 0, .flush 0 3, .proceed 0 0, .request 1 (.stor nameA 2),
    .proceed 1 0, .flush 1 1, .proceed 1 0]

/-- Two uploads that are open at the same time. -/
def atOnce : List Event :=
  [.request 0 (.stor nameA 4), .request 1 (.stor nameA 2), .proceed 0 0, .flush 0 3, .proceed 1 0,
    .flush 1 1, .proceed 0 0, .proceed 1 0]

/-- No other threads have steps in these runs. -/
theorem done_of_two {es : List Event} (hes : ∀ e ∈ es, e.index < 2) {links : ℕ → Client Bytes}
    {disk : Disk} {k : ℕ} (h₀ : ((run .plain disk links es).1.task 0).upload = none)
    (h₁ : ((run .plain disk links es).1.task 1).upload = none) (i : ℕ) (body : Bytes) :
    ((run .plain disk links es).1.task i).upload ≠ some (k, body) := by
  match i with
  | 0 => rw [h₀]; exact (Option.some_ne_none _).symm
  | 1 => rw [h₁]; exact (Option.some_ne_none _).symm
  | i + 2 =>
    rw [task, untouched_run fun e he => by have := hes e he; omega]
    exact (Option.some_ne_none _).symm

/-- Two uploads, one after the other, leave the second body. -/
theorem uploads_mix_in_turn :
    ∃ body, Note.closed 1 0 body true
        ∈ (run .plain (diskA []) (sessions (text "aaaa") (text "bb")) inTurn).2 ∧
      (run .plain (diskA []) (sessions (text "aaaa") (text "bb")) inTurn).1.disk.contents 0
        = body := by
  have hnotes : (run .plain (diskA []) (sessions (text "aaaa") (text "bb")) inTurn).2
      = [.opened 0 0, .closed 0 0 (text "aaaa") true, .opened 1 0, .closed 1 0 (text "bb") true] := by
    decide +kernel
  obtain ⟨-, -, hlast⟩ := uploads_mix .plain (diskA []) (sessions (text "aaaa") (text "bb")) inTurn 0
    ⟨0, by rw [hnotes]; decide⟩
    (done_of_two (by decide) (by decide +kernel) (by decide +kernel))
    (by rw [hnotes]; simp)
  have hproceed : ∀ w : Threads Bytes, (step .plain w (.proceed 1 0)).2 = [] ∨
      (step .plain w (.proceed 1 0)).2 = [.closed 1 0 (text "bb") true] →
      Undisturbed .plain 1 0 w (.proceed 1 0) := by
    intro w hw
    refine ⟨fun j hj => ?_, fun j n body h _ => by cases h⟩
    obtain hw | hw := hw <;> rw [hw] at hj <;> simp at hj
  have hflush : ∀ w : Threads Bytes, (step .plain w (.flush 1 1)).2 = [] →
      Undisturbed .plain 1 0 w (.flush 1 1) := by
    intro w hw
    refine ⟨fun j hj => ?_, fun j n body h _ => by cases h; rfl⟩
    rw [hw] at hj
    cases hj
  obtain ⟨body, hbody, -, hfile⟩ := hlast (inTurn.take 4) (inTurn.drop 5) 1 nameA 2 rfl
    (by decide +kernel) ⟨hproceed _ (.inl (by decide +kernel)), hflush _ (by decide +kernel),
      hproceed _ (.inr (by decide +kernel)), trivial⟩
  exact ⟨body, hbody, hfile⟩

/-- **Uploads can mix.** -/
theorem uploads_mixed :
    ¬ ∀ (disk : Disk) (links : ℕ → Client Bytes) (es : List Event) (k : ℕ),
      (∃ i, Note.opened i k ∈ (run .plain disk links es).2) →
      (∀ i body, ((run .plain disk links es).1.task i).upload ≠ some (k, body)) →
      (∀ i body c, Note.closed i k body c ∈ (run .plain disk links es).2 → c = true) →
      ∃ i body, Note.closed i k body true ∈ (run .plain disk links es).2 ∧
        (run .plain disk links es).1.disk.contents k = body := by
  intro hclaim
  have hnotes : (run .plain (diskA []) (sessions (text "aaaa") (text "bb")) atOnce).2
      = [.opened 0 0, .opened 1 0, .closed 0 0 (text "aaaa") true, .closed 1 0 (text "bb") true] := by
    decide +kernel
  have hfile : (run .plain (diskA []) (sessions (text "aaaa") (text "bb")) atOnce).1.disk.contents 0
      = text "bbaa" := by
    decide +kernel
  obtain ⟨i, body, hbody, hcontents⟩ := hclaim (diskA []) (sessions (text "aaaa") (text "bb")) atOnce
    0 ⟨0, by rw [hnotes]; decide⟩
    (done_of_two (by decide) (by decide +kernel) (by decide +kernel))
    (by rw [hnotes]; simp)
  rw [hfile] at hcontents
  rw [hnotes, ← hcontents] at hbody
  simp [text] at hbody

end Threads

end ServerClient

end Cybrg
