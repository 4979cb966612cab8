import Cybrg.Server.Threads

/-!
# Downloads while others upload

`cmd_retr` asks for the size of its file, announces it, and then sends what it reads up to the end
of the file, which need not be where it was.

* `sendCmd_packets`, `retrLoop_sent` — what a piece of the program sends;
* `Threads.sending_run` — the loop, read by read;
* `Threads.download_framed_iff` — a download sends as many bytes as it has announced if and only
  if each of its reads agrees with the announcement;
* `Threads.download_misframed` — another client's upload makes it send fewer.
-/

namespace Cybrg

open Files

namespace ServerClient

variable {τ : Type} {t : Transport τ}

/-! ### What a piece of a program sends -/

/-- `c` has sent `bs` since it was `c₀`, but for what waits in `os`. -/
def Sent (c₀ : Client τ) (bs : Bytes) (c : Client τ) : Prop :=
  ∃ ps, c.packets = c₀.packets ++ ps ∧ ps.flatten ++ c.os = c₀.os ++ bs

theorem Sent.refl (c : Client τ) : Sent c [] c := ⟨[], by simp⟩

theorem Sent.trans {c c' c'' : Client τ} {a b : Bytes} (h : Sent c a c') (h' : Sent c' b c'') :
    Sent c (a ++ b) c'' := by
  obtain ⟨ps, hpackets, hos⟩ := h
  obtain ⟨qs, hpackets', hos'⟩ := h'
  refine ⟨ps ++ qs, by rw [hpackets', hpackets, List.append_assoc], ?_⟩
  rw [List.flatten_append, List.append_assoc, hos', ← List.append_assoc, hos, List.append_assoc]

theorem write_sent {c₀ : Client τ} {bs : Bytes} (more : Bytes) :
    Exec.Triple (Sent c₀ bs) (write more) (fun _ => Sent c₀ (bs ++ more)) fun _ => True := by
  refine .modify fun c h => ?_
  obtain ⟨ps, hpackets, hos⟩ := h
  refine ⟨ps, hpackets, ?_⟩
  rw [← List.append_assoc, hos, List.append_assoc]

/-- What waits is sent, in one packet. -/
theorem sendCmd_packets {c c' : Client τ} {u : Unit} (h : (sendCmd t).run c = .ok u c') :
    c'.os = [] ∧ c'.packets = c.packets ++ if c.os = [] then [] else [c.os] := by
  unfold sendCmd at h
  rw [Exec.bind_of_ok (EStateM.run_get c)] at h
  by_cases hos : c.os = []
  · rw [if_neg (by simp [hos])] at h
    cases h
    exact ⟨rfl, by rw [if_pos hos, List.append_nil]⟩
  · rw [if_pos (by simp [hos])] at h
    obtain ⟨_, c₁, h₁, h⟩ := Exec.bind_ok h
    cases h₁
    obtain ⟨_, c₂, h₂, h⟩ := Exec.bind_ok h
    cases h
    obtain ⟨l, -, rfl⟩ := Exec.zoom_ok h₂
    exact ⟨rfl, by rw [if_neg hos]⟩

theorem sendCmd_sent {c₀ : Client τ} {bs : Bytes} :
    Exec.Triple (Sent c₀ bs) (sendCmd t) (fun _ c => Sent c₀ bs c ∧ c.os = []) fun _ => True := by
  intro c hpre
  obtain ⟨ps, hpackets, hos⟩ := hpre
  cases h : (sendCmd t).run c with
  | error e c' => trivial
  | ok u c' =>
    obtain ⟨hos', hpackets'⟩ := sendCmd_packets h
    refine ⟨⟨ps ++ if c.os = [] then [] else [c.os], ?_, ?_⟩, hos'⟩
    · rw [hpackets', hpackets, List.append_assoc]
    · rw [hos', List.append_nil, List.flatten_append, ← hos]
      split
      · rename_i hnil
        rw [hnil, List.flatten_nil]
      · rw [List.flatten_singleton]

/-- A status is sent, and nothing waits. -/
theorem answer_os {status : Status} {c c' : Client τ} {u : Unit}
    (h : (answer t status).run c = .ok u c') : c'.os = [] := by
  obtain ⟨_, c₁, -, h⟩ := Exec.bind_ok h
  exact (sendCmd_packets h).1

/-- The announcement of a size goes out in a packet of its own. -/
theorem announce_packets {size : ℤ} {c c' : Client τ} {u : Unit} (hos : c.os = [])
    (h : (Threads.announce t size).run c = .ok u c') :
    c'.os = [] ∧ c'.packets = c.packets ++ [sizeReply size] := by
  obtain ⟨_, c₁, h₁, h⟩ := Exec.bind_ok h
  cases h₁
  have hnow : c'.os = [] ∧ c'.packets
      = c.packets ++ if c.os ++ sizeReply size = [] then [] else [c.os ++ sizeReply size] :=
    sendCmd_packets h
  rw [hos, List.nil_append, if_neg (sizeReply_ne_nil size)] at hnow
  exact hnow

theorem sendFull_sent {c₀ : Client τ} {bs : Bytes} (count : ℕ) :
    Exec.Triple (Sent c₀ bs) (sendFull t count) (fun _ => Sent c₀ bs) fun _ => True := by
  refine .ite (fun _ => ?_) fun _ => .pure fun _ h => h
  exact sendCmd_sent.post (fun _ _ h => h.1) fun _ h => h

/-- The loop of `cmd_retr` sends what it reads. -/
theorem retrLoop_sent {c₀ : Client τ} (content : Bytes) {bs : Bytes} (count : ℕ) :
    Exec.Triple (Sent c₀ bs) (retrLoop t content count) (fun _ => Sent c₀ (bs ++ content))
      fun _ => True := by
  induction content generalizing bs count with
  | nil =>
    rw [List.append_nil]
    exact .pure fun _ h => h
  | cons b content ih =>
    rw [show bs ++ b :: content = bs ++ [b] ++ content by simp]
    exact .bind (write_sent [b]) fun _ => .bind (sendFull_sent count) fun _ => ih (count + 1)

namespace Threads

variable {w : Threads τ}

/-! ### What waits to be sent -/

/-- Where a thread can have something that waits to be sent. -/
def Holds : Task → Prop
  | .sending _ _ _ | .leaving _ _ _ | .stopped => True
  | _ => False

/-- Nothing waits in a thread that is not in the loop of `cmd_retr` and has met no exception. -/
def Flushed (w : Threads τ) : Prop := ∀ i, ¬ Holds (w.task i) → (w.client i).os = []

theorem Flushed.setThread (h : Flushed w) {i : ℕ} {thread : Thread τ}
    (hthread : ¬ Holds thread.task → thread.client.os = []) : Flushed (w.setThread i thread) := by
  intro j hj
  by_cases hi : j = i
  · subst hi
    simp only [task, client, setThread_self] at hj ⊢
    exact hthread hj
  · simp only [task, client, setThread_ne hi] at hj ⊢
    exact h j hj

theorem Flushed.runs {α : Type} (h : Flushed w) {i : ℕ} {m : EStateM Ex (Client τ) α}
    {next : α → Task} {failed : Task}
    (hnext : ∀ a c, m.run (w.client i) = .ok a c → ¬ Holds (next a) → c.os = [])
    (hfailed : Holds failed) : Flushed (w.runs i m next failed) := by
  obtain ⟨a, c, hr, heq⟩ | ⟨e, c, hr, heq⟩ := runs_cases w i m next failed
  · rw [heq]
    exact h.setThread (hnext a c hr)
  · rw [heq]
    exact h.setThread fun hn => absurd hfailed hn

theorem Flushed.of_threads (h : Flushed w) (disk : Disk) : Flushed { w with disk } := h

theorem Flushed.step (h : Flushed w) (e : Event) : Flushed (step t w e).1 := by
  have hanswer : ∀ {w : Threads τ}, Flushed w → ∀ (i : ℕ) (status : Status) (next failed : Task),
      Holds failed → Flushed (w.runs i (answer t status) (fun _ => next) failed) :=
    fun hw i status next failed hf => hw.runs (fun _ _ hr _ => answer_os hr) hf
  cases e with
  | request i r =>
    simp only [Threads.step]
    split
    · rename_i hready
      have hos : (w.client i).os = [] := h i (by rw [hready]; exact id)
      cases r with
      | retr filename =>
        simp only [request]
        split
        · exact hanswer h i _ _ _ trivial
        · exact h.setThread fun _ => hos
      | stor filename size =>
        simp only [request]
        split
        · exact hanswer h i _ _ _ trivial
        · exact hanswer (h.of_threads _) i _ _ _ trivial
      | dele filename =>
        simp only [request]
        split
        · exact hanswer h i _ _ _ trivial
        · exact hanswer (h.of_threads _) i _ _ _ trivial
    · exact h
  | proceed i n =>
    simp only [Threads.step, proceed]
    split
    · exact h.runs (fun _ _ _ hn => absurd trivial hn) trivial
    · split
      · exact h.runs (fun _ _ hr _ => (sendCmd_packets hr).1) trivial
      · exact h.runs (fun _ _ _ hn => absurd trivial hn) trivial
    · rename_i htask
      have hos : (w.client i).os = [] := h i (by rw [htask]; exact id)
      split
      · refine h.runs (fun fragment c hr _ => ?_) trivial
        obtain ⟨l, -, rfl⟩ := Exec.zoom_ok hr
        exact hos
      · split
        · exact h.setThread fun _ => hos
        · exact h
    · split
      · exact h.setThread fun hn => absurd trivial hn
      · exact h
    · exact h
  | flush i n =>
    simp only [Threads.step, flush]
    split
    · rename_i htask
      have hos : (w.client i).os = [] := h i (by rw [htask]; exact id)
      exact (h.of_threads _).setThread fun _ => hos
    · exact (h.of_threads _).setThread fun hn => absurd trivial hn
    · exact h

/-- In a run that begins with nothing to be sent. -/
theorem flushed_run {disk : Disk} {links : ℕ → Client τ} (hlinks : ∀ i, (links i).os = [])
    (es : List Event) : Flushed (run t disk links es).1 :=
  Machine.invariant_run (fun _ e h _ => h.step e) (fun i _ => hlinks i) (Machine.meets_true es)

/-! ### Downloads -/

/-- A read of `n` bytes at the position `p` of a file that was announced with `size` bytes and has
`len` now agrees with the announcement: before `size` it finds something and nothing beyond, and
from there on nothing. -/
def Agrees (size : ℤ) (p len n : ℕ) : Prop :=
  ((p : ℤ) < size → p < len ∧ (min (p + n) len : ℕ) ≤ size) ∧ (size ≤ p → len ≤ p)

instance (size : ℤ) (p len n : ℕ) : Decidable (Agrees size p len n) :=
  inferInstanceAs (Decidable ((_ → _) ∧ (_ → _)))

/-- A read that finds the end agrees if this is where the announcement puts it. -/
theorem agrees_end {size : ℤ} {p len n : ℕ} (h : len ≤ p) :
    (p : ℤ) = size ↔ (p : ℤ) ≤ size ∧ Agrees size p len n := by
  unfold Agrees
  omega

/-- A read that finds something agrees if it stays within the announced size. -/
theorem agrees_more {size : ℤ} {p len n : ℕ} (h : p < len) (hn : 0 < n) :
    ((min (p + n) len : ℕ) : ℤ) ≤ size ↔ (p : ℤ) ≤ size ∧ Agrees size p len n := by
  unfold Agrees
  omega

/-- So does the next read of a thread. -/
def TaskAgrees (disk : Disk) (n : ℕ) : Task → Prop
  | .sending k size count => Agrees size count (disk.contents k).length (n + 1)
  | _ => True

instance (disk : Disk) (n : ℕ) : ∀ task : Task, Decidable (TaskAgrees disk n task)
  | .sending _ _ _ => inferInstanceAs (Decidable (Agrees _ _ _ _))
  | .ready | .opened _ | .receiving _ _ _ _ | .leaving _ _ _ | .stopped =>
      inferInstanceAs (Decidable True)

/-- If the event is a read of the thread `i`, it agrees with the announcement. -/
def ReadAgrees (i : ℕ) (w : Threads τ) : Event → Prop
  | .proceed j n => j = i → TaskAgrees w.disk n (w.task i)
  | _ => True

instance (i : ℕ) (w : Threads τ) : ∀ e : Event, Decidable (ReadAgrees i w e)
  | .proceed j n => inferInstanceAs (Decidable (j = i → TaskAgrees w.disk n (w.task i)))
  | .request _ _ | .flush _ _ => inferInstanceAs (Decidable True)

/-- The event is no new request to the thread `i`. -/
def Continues (i : ℕ) : Event → Prop
  | .request j _ => j ≠ i
  | _ => True

/-- A thread between two requests, or at the end of its session, stays as it is. -/
theorem resting_step {i : ℕ} (hrest : w.task i = .ready ∨ w.task i = .stopped) {e : Event}
    (he : Continues i e) : (step t w e).1.threads i = w.threads i ∧ ReadAgrees i w e := by
  by_cases hi : i = e.index
  · cases e with
    | request j r => exact absurd hi.symm he
    | proceed j n =>
      obtain rfl : i = j := hi
      obtain hr | hr := hrest <;> simp [step, proceed, ReadAgrees, TaskAgrees, hr]
    | flush j n =>
      obtain rfl : i = j := hi
      obtain hr | hr := hrest <;> simp [step, flush, ReadAgrees, hr]
  · refine ⟨step_ne hi, ?_⟩
    cases e with
    | request j r => trivial
    | proceed j n => exact fun hj => absurd hj.symm hi
    | flush j n => trivial

theorem resting_run {i : ℕ} {es : List Event} (hes : ∀ e ∈ es, Continues i e)
    (hrest : w.task i = .ready ∨ w.task i = .stopped) :
    (Machine.run (step t) w es).1.threads i = w.threads i ∧
      Machine.Meets (step t) (ReadAgrees i) w es := by
  induction es generalizing w with
  | nil => exact ⟨rfl, trivial⟩
  | cons e es ih =>
    obtain ⟨hthread, hread⟩ := resting_step (t := t) hrest (hes e List.mem_cons_self)
    have hrest' : (step t w e).1.task i = .ready ∨ (step t w e).1.task i = .stopped := by
      rw [task, hthread]
      exact hrest
    obtain ⟨hend, hmeets⟩ := ih (fun e he => hes e (List.mem_cons_of_mem _ he)) hrest'
    exact ⟨hend.trans hthread, hread, hmeets⟩

/-- A thread that is ready later has met no exception now. -/
theorem runs_of_ready {α : Type} {i : ℕ} {m : EStateM Ex (Client τ) α} {next : α → Task}
    {es : List Event} (hes : ∀ e ∈ es, Continues i e)
    (hend : (Machine.run (step t) (w.runs i m next .stopped) es).1.task i = .ready) :
    ∃ a c, m.run (w.client i) = .ok a c ∧
      w.runs i m next .stopped = w.setThread i ⟨c, next a⟩ := by
  obtain ⟨a, c, hr, heq⟩ | ⟨e, c, -, heq⟩ := runs_cases w i m next .stopped
  · exact ⟨a, c, hr, heq⟩
  · obtain ⟨hthread, -⟩ := resting_run (t := t) hes (w := w.setThread i ⟨c, .stopped⟩)
      (.inr (by rw [task, setThread_self]))
    rw [heq, task, hthread, setThread_self] at hend
    cases hend

/-- What a download that goes on to its end sends from here on, and when this is what was
announced. -/
def Finishes (t : Transport τ) (i : ℕ) (w : Threads τ) (es : List Event) (size : ℤ)
    (count : ℕ) : Prop :=
  ∃ body, Sent (w.client i) body ((Machine.run (step t) w es).1.client i) ∧
    ((Machine.run (step t) w es).1.client i).os = [] ∧
    (((count + body.length : ℕ) : ℤ) = size ↔
      (count : ℤ) ≤ size ∧ Machine.Meets (step t) (ReadAgrees i) w es)

section Read

variable {i k n count : ℕ} {size : ℤ} {es : List Event}

theorem readAgrees_iff (htask : w.task i = .sending k size count) :
    ReadAgrees i w (.proceed i n) ↔ Agrees size count (w.disk.contents k).length (n + 1) := by
  simp only [ReadAgrees, htask, TaskAgrees, forall_const]

/-- A read that finds the end of the file. -/
theorem Finishes.at_end (hes : ∀ e ∈ es, Continues i e)
    (htask : w.task i = .sending k size count) (hbs : w.disk.read k count (n + 1) = [])
    (hend : (Machine.run (step t) w (.proceed i n :: es)).1.task i = .ready) :
    Finishes t i w (.proceed i n :: es) size count := by
  have hstep : step t w (.proceed i n)
      = (w.runs i (sendCmd t) (fun _ => .ready) .stopped, []) := by
    simp only [step, proceed, htask, hbs, if_true]
  have hle : (w.disk.contents k).length ≤ count := by
    have hlen := w.disk.length_read_eq k count (n + 1)
    rw [hbs, List.length_nil] at hlen
    omega
  unfold Finishes
  rw [Machine.Meets, readAgrees_iff htask]
  rw [Machine.run_cons, hstep] at hend ⊢
  obtain ⟨u, c, hr, heq⟩ := runs_of_ready hes hend
  obtain ⟨hsent, hos⟩ := sendCmd_sent.of_ok (Sent.refl (w.client i)) hr
  obtain ⟨hthread, hmeets⟩ := resting_run (t := t) hes (w := w.setThread i ⟨c, .ready⟩)
    (.inl (by rw [task, setThread_self]))
  have hfinal : (Machine.run (step t) (w.setThread i ⟨c, .ready⟩) es).1.client i = c := by
    rw [client, hthread, setThread_self]
  rw [heq]
  refine ⟨[], hfinal.symm ▸ hsent, hfinal.symm ▸ hos, ?_⟩
  rw [and_iff_left hmeets]
  exact agrees_end hle

/-- A read that finds something, and a download that finishes after it. -/
theorem Finishes.after_read (hes : ∀ e ∈ es, Continues i e)
    (htask : w.task i = .sending k size count) (hbs : w.disk.read k count (n + 1) ≠ [])
    (hend : (Machine.run (step t) w (.proceed i n :: es)).1.task i = .ready)
    (ih : ∀ c, (Machine.run (step t) (w.setThread i ⟨c, .sending k size
        (count + (w.disk.read k count (n + 1)).length)⟩) es).1.task i = .ready →
      Finishes t i (w.setThread i ⟨c, .sending k size
        (count + (w.disk.read k count (n + 1)).length)⟩) es size
        (count + (w.disk.read k count (n + 1)).length)) :
    Finishes t i w (.proceed i n :: es) size count := by
  have hlen := w.disk.length_read_eq k count (n + 1)
  have hpos := List.length_pos_iff.mpr hbs
  generalize hread : w.disk.read k count (n + 1) = bs at *
  have hstep : step t w (.proceed i n) = (w.runs i (retrLoop t bs count)
      (fun _ => .sending k size (count + bs.length)) .stopped, []) := by
    simp only [step, proceed, htask, hread, hbs, if_false]
  unfold Finishes
  rw [Machine.Meets, readAgrees_iff htask]
  rw [Machine.run_cons, hstep] at hend ⊢
  obtain ⟨u, c, hr, heq⟩ := runs_of_ready hes hend
  rw [heq] at hend ⊢
  obtain ⟨body, hsent, hos, hiff⟩ := ih c hend
  rw [client, setThread_self] at hsent
  have hfirst : Sent (w.client i) bs c :=
    (retrLoop_sent bs count).of_ok (Sent.refl (w.client i)) hr
  refine ⟨bs ++ body, hfirst.trans hsent, hos, ?_⟩
  rw [List.length_append, ← Nat.add_assoc, hiff, ← and_assoc,
    ← agrees_more (by omega) (Nat.succ_pos n)]
  rw [show count + bs.length = min (count + (n + 1)) (w.disk.contents k).length by omega]

end Read

/-- **The loop of a download**, read by read. -/
theorem sending_run {i k : ℕ} {size : ℤ} {es : List Event} (hes : ∀ e ∈ es, Continues i e)
    {count : ℕ} (htask : w.task i = .sending k size count)
    (hend : (Machine.run (step t) w es).1.task i = .ready) : Finishes t i w es size count := by
  induction es generalizing w count with
  | nil =>
    rw [Machine.run_nil, htask] at hend
    cases hend
  | cons e es ih =>
    have hes' : ∀ e ∈ es, Continues i e := fun e he => hes e (List.mem_cons_of_mem _ he)
    have hcont := hes e List.mem_cons_self
    -- a step that is not a read of this thread
    have hother : ReadAgrees i w e → (step t w e).1.threads i = w.threads i →
        Finishes t i w (e :: es) size count := by
      intro hread hthread
      rw [Machine.run_cons] at hend
      obtain ⟨body, hsent, hos, hiff⟩ := ih hes' (by rw [task, hthread]; exact htask) hend
      rw [client, hthread] at hsent
      refine ⟨body, hsent, hos, hiff.trans (and_congr_right fun _ => ?_)⟩
      exact ⟨fun h => ⟨hread, h⟩, fun h => h.2⟩
    by_cases hi : i = e.index
    · cases e with
      | request j r => exact absurd hi.symm hcont
      | flush j n =>
        obtain rfl : i = j := hi
        exact hother trivial (by simp [step, flush, htask])
      | proceed j n =>
        obtain rfl : i = j := hi
        by_cases hbs : w.disk.read k count (n + 1) = []
        · exact .at_end hes' htask hbs hend
        · exact .after_read hes' htask hbs hend fun c => ih hes' (by rw [task, setThread_self])
    · refine hother ?_ (step_ne hi)
      cases e with
      | request j r => trivial
      | proceed j n => exact fun hj => absurd hj.symm hi
      | flush j n => trivial

/-- What a download sends: one packet with the size that the file had at some point, and the body;
and when the two agree. -/
def Served (t : Transport τ) (i k : ℕ) (w : Threads τ) (es : List Event) : Prop :=
  ∃ (size : ℕ) (body : List Bytes),
    ((Machine.run (step t) w es).1.client i).packets
      = (w.client i).packets ++ sizeReply size :: body ∧
    (∃ n before after, es = before ++ .proceed i n :: after ∧
      size = ((Machine.run (step t) w before).1.disk.contents k).length) ∧
    (body.flatten.length = size ↔ Machine.Meets (step t) (ReadAgrees i) w es)

/-- The size is asked for, and the loop follows. -/
theorem Served.of_size {i k n : ℕ} {es : List Event} (hes : ∀ e ∈ es, Continues i e)
    (htask : w.task i = .opened k) (hos : (w.client i).os = [])
    (hend : (Machine.run (step t) w (.proceed i n :: es)).1.task i = .ready) :
    Served t i k w (.proceed i n :: es) := by
  generalize hsize : (w.disk.contents k).length = size
  have hstep : step t w (.proceed i n)
      = (w.runs i (announce t size) (fun _ => .sending k size 0) .stopped, []) := by
    simp only [step, proceed, htask, hsize]
  have hread : ReadAgrees i w (.proceed i n) := by
    intro _
    rw [htask]
    trivial
  unfold Served
  rw [Machine.Meets, and_iff_right hread]
  rw [Machine.run_cons, hstep] at hend ⊢
  obtain ⟨u, c, hr, heq⟩ := runs_of_ready hes hend
  obtain ⟨hos', hpackets⟩ := announce_packets hos hr
  rw [heq] at hend ⊢
  obtain ⟨body, hsent, hosEnd, hiff⟩ :=
    sending_run hes (by rw [task, setThread_self]) hend
  rw [client, setThread_self] at hsent
  obtain ⟨ps, hps, hflat⟩ := hsent
  rw [hosEnd, hos', List.append_nil, List.nil_append] at hflat
  rw [and_iff_right (Nat.cast_le.mpr (Nat.zero_le size)), Nat.zero_add, Nat.cast_inj] at hiff
  refine ⟨size, ps, ?_, ⟨n, [], es, rfl, hsize.symm⟩, hflat ▸ hiff⟩
  rw [hps, hpackets, List.append_assoc, List.singleton_append]

/-- **A download**, from its open file on. -/
theorem opened_run {i k : ℕ} {es : List Event} (hes : ∀ e ∈ es, Continues i e)
    (htask : w.task i = .opened k) (hos : (w.client i).os = [])
    (hend : (Machine.run (step t) w es).1.task i = .ready) : Served t i k w es := by
  induction es generalizing w with
  | nil =>
    rw [Machine.run_nil, htask] at hend
    cases hend
  | cons e es ih =>
    have hes' : ∀ e ∈ es, Continues i e := fun e he => hes e (List.mem_cons_of_mem _ he)
    -- a step that does not ask for the size
    have hother : ReadAgrees i w e → (step t w e).1.threads i = w.threads i →
        Served t i k w (e :: es) := by
      intro hread hthread
      have hclient : (step t w e).1.client i = w.client i := congrArg Thread.client hthread
      rw [Machine.run_cons] at hend
      obtain ⟨size, body, hpackets, ⟨n, before, after, hsplit, hsize⟩, hiff⟩ :=
        ih hes' (by rw [task, hthread]; exact htask) (by rw [hclient]; exact hos) hend
      rw [hclient] at hpackets
      refine ⟨size, body, hpackets, ⟨n, e :: before, after, by rw [hsplit, List.cons_append],
        hsize⟩, hiff.trans ⟨fun h => ⟨hread, h⟩, fun h => h.2⟩⟩
    by_cases hi : i = e.index
    · cases e with
      | request j r => exact absurd hi.symm (hes _ List.mem_cons_self)
      | flush j n =>
        obtain rfl : i = j := hi
        exact hother trivial (by simp [step, flush, htask])
      | proceed j n =>
        obtain rfl : i = j := hi
        exact .of_size hes' htask hos hend
    · refine hother ?_ (step_ne hi)
      cases e with
      | request j r => trivial
      | proceed j n => exact fun hj => absurd hj.symm hi
      | flush j n => trivial

/-- **A download is well framed if and only if its reads agree with what it has announced.**
Thread `i` has opened the file `k` for a RETR, and goes on to the end of it, whatever the other
threads do in between; what it sends is the announcement of the size that the file had at some
point, and a body. -/
theorem download_framed_iff (t : Transport τ) {disk : Disk} {links : ℕ → Client τ}
    (hlinks : ∀ i, (links i).os = []) {i k : ℕ} {es fs : List Event}
    (hopen : (run t disk links es).1.task i = .opened k) (hfs : ∀ e ∈ fs, Continues i e)
    (hend : (run t disk links (es ++ fs)).1.task i = .ready) :
    ∃ (size : ℕ) (body : List Bytes),
      ((run t disk links (es ++ fs)).1.client i).packets
        = ((run t disk links es).1.client i).packets ++ sizeReply size :: body ∧
      (∃ n before after, fs = before ++ .proceed i n :: after ∧
        size = ((run t disk links (es ++ before)).1.disk.contents k).length) ∧
      (body.flatten.length = size ↔
        Machine.Meets (step t) (ReadAgrees i) (run t disk links es).1 fs) := by
  have hos : ((run t disk links es).1.client i).os = [] :=
    flushed_run hlinks es i (by rw [hopen]; exact id)
  rw [run, Machine.run_append] at hend
  obtain ⟨size, body, hpackets, ⟨n, before, after, hsplit, hsize⟩, hiff⟩ :=
    opened_run hfs hopen hos hend
  refine ⟨size, body, ?_, ⟨n, before, after, hsplit, ?_⟩, hiff⟩
  · rw [run, Machine.run_append]
    exact hpackets
  · rw [run, Machine.run_append]
    exact hsize

/-! ### Another client on the same file -/

/-- The first client asks for the file. -/
def askedFor : List Event := [.request 0 (.retr nameA)]

/-- A second client opens it for an upload once its size was asked for. -/
def emptied : List Event := [.proceed 0 0, .request 1 (.stor nameA 3), .proceed 0 0]

/-- The body of the second client arrives before the file is read. -/
def replaced : List Event :=
  [.proceed 0 0, .request 1 (.stor nameA 3), .proceed 1 0, .flush 1 2, .proceed 0 9, .proceed 0 0]

/-- The name is removed and given to another file. -/
def renamed : List Event :=
  [.request 1 (.dele nameA), .proceed 0 0, .request 1 (.stor nameA 3), .proceed 1 0, .flush 1 2,
    .proceed 0 9, .proceed 0 0]

/-- A download of a file whose name was removed. -/
theorem download_framed_renamed :
    ∃ (size : ℕ) (body : List Bytes),
      ((run .plain (diskA (text "ab")) (sessions [] (text "xyz"))
        (askedFor ++ renamed)).1.client 0).packets = sizeReply size :: body ∧
      body.flatten.length = size := by
  obtain ⟨size, body, hpackets, -, hiff⟩ := @download_framed_iff Bytes .plain (diskA (text "ab"))
    (sessions [] (text "xyz")) (fun _ => rfl) 0 0 askedFor renamed (by decide +kernel)
    (by simp [renamed, Continues]) (by decide +kernel)
  exact ⟨size, body, hpackets, hiff.mpr (by decide +kernel)⟩

/-- **A download can send fewer bytes than it has announced, and more.** -/
theorem download_misframed :
    ¬ ∀ (disk : Disk) (links : ℕ → Client Bytes), (∀ i, (links i).os = []) →
      ∀ (i k : ℕ) (es fs : List Event), (run .plain disk links es).1.task i = .opened k →
        (∀ e ∈ fs, Continues i e) → (run .plain disk links (es ++ fs)).1.task i = .ready →
        ∃ (size : ℕ) (body : List Bytes),
          ((run .plain disk links (es ++ fs)).1.client i).packets
            = ((run .plain disk links es).1.client i).packets ++ sizeReply size :: body ∧
          body.flatten.length = size := by
  intro hclaim
  obtain ⟨size, body, hpackets, hlen⟩ := hclaim (diskA (text "ab")) (sessions [] (text "xyz"))
    (fun _ => rfl) 0 0 askedFor emptied (by decide +kernel)
    (by simp [emptied, Continues]) (by decide +kernel)
  -- two bytes are announced and none is sent
  have hend : ((run .plain (diskA (text "ab")) (sessions [] (text "xyz"))
      (askedFor ++ emptied)).1.client 0).packets = [sizeReply 2] := by
    decide +kernel
  have hbegin : ((run .plain (diskA (text "ab")) (sessions [] (text "xyz"))
      askedFor).1.client 0).packets = [] := by
    decide +kernel
  rw [hend, hbegin] at hpackets
  obtain ⟨hreply, hbody⟩ := List.cons.inj hpackets
  rw [← hbody] at hlen
  obtain rfl : 0 = size := hlen
  revert hreply
  decide +kernel

/-- More bytes than were announced. -/
example : ((run .plain (diskA (text "ab")) (sessions [] (text "xyz"))
    (askedFor ++ replaced)).1.client 0).packets = [sizeReply 2, text "x", text "yz"] := by
  decide +kernel

end Threads

end ServerClient

end Cybrg
