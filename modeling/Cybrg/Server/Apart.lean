import Cybrg.Server.Threads

/-!
# Threads with files of their own

Every name belongs to one thread, and a thread asks for its own names only.

* `Threads.Touches` — what a step does to the disk;
* `Threads.Settled` — an open file has a name of its thread, and no other one;
* `Threads.Alike` — a thread cannot tell two servers apart;
* `Threads.Alike.step`, `Threads.Alike.other` — it cannot after its own steps, nor after those of other
  threads.
-/

namespace Cybrg

open Files

namespace ServerClient

/-- The path that a request is about. -/
def Request.path : Request → Path
  | .retr filename => filename.path
  | .stor filename _ => filename.path
  | .dele filename => filename.path

/-- The file that a thread has open. -/
def Task.file : Task → Option ℕ
  | .opened k => some k
  | .sending k _ _ => some k
  | .receiving k _ _ _ => some k
  | .leaving k _ _ => some k
  | _ => none

/-- Two threads are at the same place, with files that `S` relates. -/
inductive Task.Matches (S : ℕ → ℕ → Prop) : Task → Task → Prop
  | ready : Matches S .ready .ready
  | opened {k k' : ℕ} (h : S k k') : Matches S (.opened k) (.opened k')
  | sending {k k' : ℕ} (h : S k k') (size : ℤ) (count : ℕ) :
      Matches S (.sending k size count) (.sending k' size count)
  | receiving {k k' : ℕ} (h : S k k') (size : ℤ) (body : Bytes) (written : ℕ) :
      Matches S (.receiving k size body written) (.receiving k' size body written)
  | leaving {k k' : ℕ} (h : S k k') (body : Bytes) (written : ℕ) :
      Matches S (.leaving k body written) (.leaving k' body written)
  | stopped : Matches S .stopped .stopped

theorem Task.Matches.mono {S S' : ℕ → ℕ → Prop} {a b : Task} (h : a.Matches S b)
    (hS : ∀ k k', S k k' → S' k k') : a.Matches S' b := by
  cases h with
  | ready => exact .ready
  | opened h => exact .opened (hS _ _ h)
  | sending h size count => exact .sending (hS _ _ h) size count
  | receiving h size body written => exact .receiving (hS _ _ h) size body written
  | leaving h body written => exact .leaving (hS _ _ h) body written
  | stopped => exact .stopped

namespace Threads

variable {τ : Type} {t : Transport τ} {w w' : Threads τ} {owner : Path → ℕ} {i j : ℕ}

/-! ### What a step does to the disk -/

/-- A thread asks for what belongs to it. -/
def Owned (owner : Path → ℕ) : Event → Prop
  | .request i r => owner r.path = i
  | _ => True

/-- What a step of the thread `i` makes of a disk. -/
inductive Touches (owner : Path → ℕ) (i : ℕ) (d : Disk) : Disk → Prop
  | nothing : Touches owner i d d
  | truncate {p : Path} (hp : owner p = i) : Touches owner i d (d.truncate p)
  | unlink {p : Path} (hp : owner p = i) : Touches owner i d (d.unlink p)
  | write {p : Path} (hp : owner p = i) {k : ℕ} (hk : d.names p = some k) (pos : ℕ) (bs : Bytes) :
      Touches owner i d (d.write k pos bs)

/-- No file has two names, and an open file has a name that belongs to its thread. -/
structure Settled (owner : Path → ℕ) (w : Threads τ) : Prop where
  single : w.disk.Single
  named : ∀ j k, (w.task j).file = some k → ∃ p, owner p = j ∧ w.disk.names p = some k

theorem Touches.single {d d' : Disk} (ht : Touches owner j d d') (h : d.Single) : d'.Single := by
  cases ht with
  | nothing => exact h
  | truncate _ => exact h.truncate _
  | unlink _ => exact h.unlink _
  | write _ _ _ _ => exact h

/-- What another thread touches has other names. -/
theorem Touches.names {d d' : Disk} (ht : Touches owner j d d') {p : Path} (hp : owner p ≠ j) :
    d'.names p = d.names p := by
  have hne : ∀ {q}, owner q = j → p ≠ q := fun hq h => hp (h.symm ▸ hq)
  cases ht with
  | nothing => rfl
  | truncate hq => rw [Disk.names_truncate, if_neg (hne hq)]
  | unlink hq => rw [Disk.names_unlink, if_neg (hne hq)]
  | write _ _ _ _ => rfl

theorem Touches.find {d d' : Disk} (ht : Touches owner j d d') (h : d.Single) {p : Path}
    (hp : owner p ≠ j) : d'.find p = d.find p := by
  have hne : ∀ {q}, owner q = j → p ≠ q := fun hq h => hp (h.symm ▸ hq)
  cases ht with
  | nothing => rfl
  | truncate hq => rw [h.find_truncate, if_neg (hne hq)]
  | unlink hq => rw [Disk.find_unlink, if_neg (hne hq)]
  | write hq hk pos bs => rw [h.find_write hk, if_neg (hne hq)]

/-! ### What a step does to its thread -/

/-- A piece of a program leaves the open file open, or gives it up. -/
theorem file_runs {α : Type} {m : EStateM Ex (Client τ) α} {next : α → Task} {failed : Task}
    {D : Option ℕ → Prop} (hnext : ∀ a, D (next a).file) (hfailed : D failed.file) :
    D ((w.runs i m next failed).task i).file := by
  obtain ⟨a, h⟩ | h := runs_task w i m next failed
  · rw [h]
    exact hnext a
  · rw [h]
    exact hfailed

theorem proceed_disk (n : ℕ) : (proceed t w i n).1.disk = w.disk := by
  simp only [proceed]
  split
  · simp
  · split <;> simp
  · split
    · simp
    · split <;> simp
  · split <;> simp
  · rfl

/-- A handler that goes on keeps its file open, or is done with it. -/
theorem proceed_file (n : ℕ) :
    ((proceed t w i n).1.task i).file = (w.task i).file ∨
      ((proceed t w i n).1.task i).file = none := by
  unfold proceed
  cases htask : w.task i with
  | opened k =>
    refine file_runs (D := fun f => f = some k ∨ f = none) (fun _ => .inl rfl) (.inr rfl)
  | sending k size count =>
    simp only
    split
    · exact file_runs (D := fun f => f = some k ∨ f = none) (fun _ => .inr rfl) (.inr rfl)
    · exact file_runs (D := fun f => f = some k ∨ f = none) (fun _ => .inl rfl) (.inr rfl)
  | receiving k size body written =>
    simp only
    split
    · exact file_runs (D := fun f => f = some k ∨ f = none) (fun _ => .inl rfl) (.inl rfl)
    · split
      · refine .inr ?_
        rw [task, setThread_self]
        rfl
      · refine .inl ?_
        rw [htask]
  | leaving k body written =>
    simp only
    split
    · refine .inr ?_
      rw [task, setThread_self]
      rfl
    · refine .inl ?_
      rw [htask]
  | ready =>
    refine .inl ?_
    rw [htask]
  | stopped =>
    refine .inl ?_
    rw [htask]

/-- A stream writes to the file that its thread has open. -/
theorem flush_touches (n : ℕ) :
    ((flush w i n).1.task i).file = (w.task i).file ∧
      ((flush w i n).1.disk = w.disk ∨ ∃ k pos bs, (w.task i).file = some k ∧
        (flush w i n).1.disk = w.disk.write k pos bs) := by
  unfold flush
  cases htask : w.task i with
  | receiving k size body written =>
    refine ⟨?_, .inr ⟨k, _, _, rfl, rfl⟩⟩
    rw [task, setThread_self]
    rfl
  | leaving k body written =>
    refine ⟨?_, .inr ⟨k, _, _, rfl, rfl⟩⟩
    rw [task, setThread_self]
    rfl
  | _ => exact ⟨by rw [htask], .inl rfl⟩

/-- What a thread has open after a step of its own has a name of its own. -/
theorem Settled.own (h : Settled owner w) {e : Event} (he : Owned owner e) :
    Touches owner e.index w.disk (step t w e).1.disk ∧
      ∀ k, ((step t w e).1.task e.index).file = some k →
        ∃ p, owner p = e.index ∧ (step t w e).1.disk.names p = some k := by
  cases e with
  | request i r =>
    have hready : ∀ {m : EStateM Ex (Client τ) Unit} {d : Disk},
        ∀ k, (({ w with disk := d }.runs i m (fun _ => .ready) .stopped).task i).file = some k →
          ∃ p, owner p = i ∧ d.names p = some k := by
      intro m d k
      refine file_runs (D := fun f => f = some k → ∃ p, owner p = i ∧ d.names p = some k) ?_ ?_
      · intro _ hk
        cases hk
      · intro hk
        cases hk
    simp only [step, Event.index]
    split
    · cases r with
      | retr filename =>
        simp only [request]
        split
        · rw [runs_disk]
          exact ⟨.nothing, hready⟩
        · rename_i k hk
          refine ⟨.nothing, fun k' hk' => ?_⟩
          rw [task, setThread_self] at hk'
          cases hk'
          exact ⟨_, he, hk⟩
      | stor filename size =>
        simp only [request]
        split
        · rw [runs_disk]
          exact ⟨.nothing, hready⟩
        · rw [runs_disk]
          have hnames : (w.disk.truncate filename.path).names filename.path
              = some (w.disk.truncates filename.path) := Function.update_self _ _ _
          refine ⟨.truncate he, fun k => ?_⟩
          refine file_runs (D := fun f => f = some k → ∃ p, owner p = i ∧
            (w.disk.truncate filename.path).names p = some k) ?_ ?_
          · intro _ hk
            cases hk
            exact ⟨_, he, hnames⟩
          · intro hk
            cases hk
            exact ⟨_, he, hnames⟩
      | dele filename =>
        simp only [request]
        split
        · rw [runs_disk]
          exact ⟨.nothing, hready⟩
        · rw [runs_disk]
          exact ⟨.unlink he, hready⟩
    · exact ⟨.nothing, h.named i⟩
  | proceed i n =>
    show Touches owner i w.disk (proceed t w i n).1.disk ∧
      ∀ k, ((proceed t w i n).1.task i).file = some k →
        ∃ p, owner p = i ∧ (proceed t w i n).1.disk.names p = some k
    rw [proceed_disk]
    refine ⟨.nothing, fun k hk => ?_⟩
    cases proceed_file (t := t) (w := w) (i := i) n with
    | inl hfile => exact h.named i k (hfile ▸ hk)
    | inr hnone =>
      rw [hnone] at hk
      cases hk
  | flush i n =>
    show Touches owner i w.disk (flush w i n).1.disk ∧
      ∀ k, ((flush w i n).1.task i).file = some k →
        ∃ p, owner p = i ∧ (flush w i n).1.disk.names p = some k
    obtain ⟨hfile, hdisk⟩ := flush_touches (w := w) (i := i) n
    rw [hfile]
    cases hdisk with
    | inl hdisk =>
      rw [hdisk]
      exact ⟨.nothing, h.named i⟩
    | inr hdisk =>
      obtain ⟨k, pos, bs, hk, hdisk⟩ := hdisk
      obtain ⟨p, hp, hnames⟩ := h.named i k hk
      rw [hdisk]
      exact ⟨.write hp hnames pos bs, h.named i⟩

/-- What is settled stays so when one thread goes on. -/
theorem Settled.moved (h : Settled owner w) (htouches : Touches owner i w.disk w'.disk)
    (hother : ∀ j, j ≠ i → w'.threads j = w.threads j)
    (hown : ∀ k, (w'.task i).file = some k → ∃ p, owner p = i ∧ w'.disk.names p = some k) :
    Settled owner w' := by
  refine ⟨htouches.single h.single, fun j k hk => ?_⟩
  by_cases hj : j = i
  · subst hj
    exact hown k hk
  · have htask : w'.task j = w.task j := congrArg Thread.task (hother j hj)
    rw [htask] at hk
    obtain ⟨p, hp, hnames⟩ := h.named j k hk
    refine ⟨p, hp, ?_⟩
    rw [htouches.names (hp ▸ hj)]
    exact hnames

/-- **What is settled stays settled**, whoever makes a step. -/
theorem Settled.step (h : Settled owner w) {e : Event} (he : Owned owner e) :
    Settled owner (step t w e).1 := by
  obtain ⟨htouches, hown⟩ := h.own (t := t) he
  exact h.moved htouches (fun j hj => step_ne hj) hown

/-- A thread that runs a piece of its program and has no file open then. -/
theorem Settled.runs {α : Type} (h : Settled owner w) (m : EStateM Ex (Client τ) α) :
    Settled owner (w.runs i m (fun _ => .ready) .stopped) := by
  refine h.moved ?_ (fun j hj => runs_ne hj) fun k => ?_
  · rw [runs_disk]
    exact .nothing
  · rw [runs_disk]
    refine file_runs (D := fun f => f = some k → ∃ p, owner p = i ∧ w.disk.names p = some k)
      (fun _ hk => ?_) fun hk => ?_
    · cases hk
    · cases hk

/-! ### What a thread can tell -/

/-- Two files with the same name, which belongs to the thread `i`. -/
def SameName (owner : Path → ℕ) (i : ℕ) (d d' : Disk) (k k' : ℕ) : Prop :=
  ∃ p, owner p = i ∧ d.names p = some k ∧ d'.names p = some k'

/-- The thread `i` is the same on both servers, and its files have the same contents. -/
structure Alike (owner : Path → ℕ) (i : ℕ) (w w' : Threads τ) : Prop where
  client : w.client i = w'.client i
  find : ∀ p, owner p = i → w.disk.find p = w'.disk.find p
  task : (w.task i).Matches (SameName owner i w.disk w'.disk) (w'.task i)

theorem Alike.symm (h : Alike owner i w w') : Alike owner i w' w := by
  refine ⟨h.client.symm, fun p hp => (h.find p hp).symm, ?_⟩
  have hback : ∀ {a b : Task}, a.Matches (SameName owner i w.disk w'.disk) b →
      b.Matches (SameName owner i w'.disk w.disk) a := by
    intro a b hab
    have hname : ∀ {k k'}, SameName owner i w.disk w'.disk k k' →
        SameName owner i w'.disk w.disk k' k := by
      intro k k' hk
      obtain ⟨p, hp, hk, hk'⟩ := hk
      exact ⟨p, hp, hk', hk⟩
    cases hab with
    | ready => exact .ready
    | opened h => exact .opened (hname h)
    | sending h size count => exact .sending (hname h) size count
    | receiving h size body written => exact .receiving (hname h) size body written
    | leaving h body written => exact .leaving (hname h) body written
    | stopped => exact .stopped
  exact hback h.task

/-- When another thread goes on, this cannot be told. -/
theorem Alike.moved {w₁ : Threads τ} (h : Alike owner i w w') (hw : Settled owner w)
    (htouches : Touches owner j w.disk w₁.disk) (hi : i ≠ j) (hthread : w₁.threads i = w.threads i) :
    Alike owner i w₁ w' := by
  refine ⟨(congrArg Thread.client hthread).trans h.client, fun p hp => ?_, ?_⟩
  · rw [htouches.find hw.single (hp ▸ hi)]
    exact h.find p hp
  · have htask : w₁.task i = w.task i := congrArg Thread.task hthread
    rw [htask]
    refine h.task.mono fun k k' hk => ?_
    obtain ⟨p, hp, hk, hk'⟩ := hk
    refine ⟨p, hp, ?_, hk'⟩
    rw [htouches.names (hp ▸ hi)]
    exact hk

/-- A step of another thread cannot be told. -/
theorem Alike.other (h : Alike owner i w w') (hw : Settled owner w) {e : Event}
    (he : Owned owner e) (hi : i ≠ e.index) : Alike owner i (step t w e).1 w' := by
  obtain ⟨htouches, -⟩ := hw.own (t := t) he
  exact h.moved hw htouches hi (step_ne hi)

/-- Nor can it be told when another thread runs a piece of its program. -/
theorem Alike.runs {α : Type} (h : Alike owner i w w') (hw : Settled owner w) (hi : i ≠ j)
    (m : EStateM Ex (Client τ) α) (next : α → Task) (failed : Task) :
    Alike owner i (w.runs j m next failed) w' := by
  refine h.moved (j := j) hw ?_ hi (runs_ne hi)
  rw [runs_disk]
  exact .nothing

/-- A file of the thread has the same content on both servers. -/
theorem Alike.contents (h : Alike owner i w w') {k k' : ℕ}
    (hk : SameName owner i w.disk w'.disk k k') : w.disk.contents k = w'.disk.contents k' := by
  obtain ⟨p, hp, hk, hk'⟩ := hk
  have hfind := h.find p hp
  rw [Disk.find, Disk.find, hk, hk'] at hfind
  exact Option.some.inj hfind

/-- A name of the thread leads to a file on both servers, or on none. -/
theorem Alike.names (h : Alike owner i w w') {p : Path} (hp : owner p = i) :
    (w.disk.names p = none ∧ w'.disk.names p = none) ∨
      ∃ k k', w.disk.names p = some k ∧ w'.disk.names p = some k' := by
  have hfind := h.find p hp
  unfold Disk.find at hfind
  cases hk : w.disk.names p with
  | none =>
    cases hk' : w'.disk.names p with
    | none => exact .inl ⟨rfl, rfl⟩
    | some k' =>
      rw [hk, hk'] at hfind
      cases hfind
  | some k =>
    cases hk' : w'.disk.names p with
    | none =>
      rw [hk, hk'] at hfind
      cases hfind
    | some k' => exact .inr ⟨k, k', rfl, rfl⟩

theorem setThread_alike {c : Client τ} {a a' : Task}
    (hfind : ∀ p, owner p = i → w.disk.find p = w'.disk.find p)
    (ha : a.Matches (SameName owner i w.disk w'.disk) a') :
    Alike owner i (w.setThread i ⟨c, a⟩) (w'.setThread i ⟨c, a'⟩) := by
  refine ⟨?_, hfind, ?_⟩
  · rw [Threads.client, Threads.client, setThread_self, setThread_self]
  · rw [Threads.task, Threads.task, setThread_self, setThread_self]
    exact ha

/-- A piece of a program on both servers. -/
theorem runs_alike {α : Type} {m : EStateM Ex (Client τ) α} {next next' : α → Task}
    {failed failed' : Task} (hclient : w.client i = w'.client i)
    (hfind : ∀ p, owner p = i → w.disk.find p = w'.disk.find p)
    (hnext : ∀ a, (next a).Matches (SameName owner i w.disk w'.disk) (next' a))
    (hfailed : failed.Matches (SameName owner i w.disk w'.disk) failed') :
    Alike owner i (w.runs i m next failed) (w'.runs i m next' failed') := by
  unfold runs
  rw [hclient]
  cases m.run (w'.client i) with
  | ok a c => exact setThread_alike hfind (hnext a)
  | error e c => exact setThread_alike hfind hfailed

/-- An answer leads back to where requests are taken. -/
theorem answer_alike {m : EStateM Ex (Client τ) Unit} (hclient : w.client i = w'.client i)
    (hfind : ∀ p, owner p = i → w.disk.find p = w'.disk.find p) :
    Alike owner i (w.runs i m (fun _ => .ready) .stopped)
      (w'.runs i m (fun _ => .ready) .stopped) :=
  runs_alike hclient hfind (fun _ => .ready) .stopped

theorem Alike.request (h : Alike owner i w w') (hw : w.disk.Single) (hw' : w'.disk.Single)
    {r : Request} (hr : owner r.path = i) :
    Alike owner i (request t w i r).1 (request t w' i r).1 := by
  have hnames := h.names hr
  cases r with
  | retr filename =>
    simp only [Threads.request]
    cases hnames with
    | inl hnone =>
      have hk : w.disk.names filename.path = none := hnone.1
      have hk' : w'.disk.names filename.path = none := hnone.2
      rw [hk, hk']
      exact answer_alike h.client h.find
    | inr hsome =>
      obtain ⟨k, k', hk, hk'⟩ := hsome
      have hk : w.disk.names filename.path = some k := hk
      have hk' : w'.disk.names filename.path = some k' := hk'
      rw [hk, hk', h.client]
      exact setThread_alike h.find (.opened ⟨_, hr, hk, hk'⟩)
  | stor filename size =>
    simp only [Threads.request]
    split
    · exact answer_alike h.client h.find
    · have hname : SameName owner i (w.disk.truncate filename.path) (w'.disk.truncate filename.path)
          (w.disk.truncates filename.path) (w'.disk.truncates filename.path) := by
        refine ⟨filename.path, hr, ?_, ?_⟩
        · rw [Disk.names_truncate, if_pos rfl]
        · rw [Disk.names_truncate, if_pos rfl]
      refine runs_alike h.client (fun p hp => ?_) (fun _ => .receiving hname size [] 0)
        (.leaving hname [] 0)
      show (w.disk.truncate filename.path).find p = (w'.disk.truncate filename.path).find p
      rw [hw.find_truncate, hw'.find_truncate, h.find p hp]
  | dele filename =>
    simp only [Threads.request]
    cases hnames with
    | inl hnone =>
      have hk : w.disk.names filename.path = none := hnone.1
      have hk' : w'.disk.names filename.path = none := hnone.2
      rw [hk, hk']
      exact answer_alike h.client h.find
    | inr hsome =>
      obtain ⟨k, k', hk, hk'⟩ := hsome
      have hk : w.disk.names filename.path = some k := hk
      have hk' : w'.disk.names filename.path = some k' := hk'
      rw [hk, hk']
      refine answer_alike h.client fun p hp => ?_
      show (w.disk.unlink filename.path).find p = (w'.disk.unlink filename.path).find p
      rw [Disk.find_unlink, Disk.find_unlink, h.find p hp]

theorem Alike.proceed (h : Alike owner i w w') (n : ℕ) :
    Alike owner i (proceed t w i n).1 (proceed t w' i n).1 := by
  have htask := h.task
  simp only [Threads.proceed]
  cases hx : w.task i <;> cases hy : w'.task i <;> rw [hx, hy] at htask <;> cases htask
  · exact h
  · rename_i k k' hk
    have hcontents := h.contents hk
    simp only [hcontents]
    exact runs_alike h.client h.find (fun _ => .sending hk _ _) .stopped
  · rename_i k size count k' hk
    have hread : w.disk.read k count (n + 1) = w'.disk.read k' count (n + 1) := by
      rw [Disk.read, Disk.read, h.contents hk]
    simp only [hread]
    split
    · exact answer_alike h.client h.find
    · exact runs_alike h.client h.find (fun _ => .sending hk _ _) .stopped
  · rename_i k size body written k' hk
    simp only
    split
    · exact runs_alike h.client h.find (fun _ => .receiving hk _ _ _) (.leaving hk _ _)
    · split
      · rw [h.client]
        exact setThread_alike h.find .ready
      · exact h
  · rename_i k body written k' hk
    simp only
    split
    · rw [h.client]
      exact setThread_alike h.find .stopped
    · exact h
  · exact h

theorem Alike.flush (h : Alike owner i w w') (hw : w.disk.Single) (hw' : w'.disk.Single) (n : ℕ) :
    Alike owner i (flush w i n).1 (flush w' i n).1 := by
  have hwrite : ∀ {k k' : ℕ}, SameName owner i w.disk w'.disk k k' → ∀ (pos : ℕ) (bs : Bytes) (p : Path),
      owner p = i → (w.disk.write k pos bs).find p = (w'.disk.write k' pos bs).find p := by
    intro k k' hk pos bs p hp
    have hcontents := h.contents hk
    obtain ⟨q, -, hq, hq'⟩ := hk
    rw [hw.find_write hq, hw'.find_write hq', h.find p hp, hcontents]
  have htask := h.task
  simp only [Threads.flush]
  cases hx : w.task i <;> cases hy : w'.task i <;> rw [hx, hy] at htask <;> cases htask
  · exact h
  · exact h
  · exact h
  · rename_i k size body written k' hk
    simp only [h.client]
    exact setThread_alike (hwrite hk _ _) (.receiving hk _ _ _)
  · rename_i k body written k' hk
    simp only [h.client]
    exact setThread_alike (hwrite hk _ _) (.leaving hk _ _)
  · exact h

/-- **A step of the thread itself** is the same step on both servers. -/
theorem Alike.step (h : Alike owner i w w') (hw : w.disk.Single) (hw' : w'.disk.Single) {e : Event}
    (he : Owned owner e) (hi : e.index = i) : Alike owner i (step t w e).1 (step t w' e).1 := by
  subst hi
  cases e with
  | request i r =>
    have htask := h.task
    simp only [Threads.step]
    cases hx : w.task i <;> cases hy : w'.task i <;> rw [Event.index, hx, hy] at htask <;> cases htask
    · rw [if_pos rfl, if_pos rfl]
      exact h.request hw hw' he
    all_goals exact h
  | proceed i n => exact h.proceed n
  | flush i n => exact h.flush hw hw' n

/-! ### Runs -/

theorem settled_new {disk : Disk} (hdisk : disk.Single) (links : ℕ → Client τ) :
    Settled owner (new disk links) :=
  ⟨hdisk, fun _ _ hk => by cases hk⟩

end Threads

end ServerClient

end Cybrg
