import Cybrg.Library.OpenFiles
import Cybrg.Server.Client

/-!
# The threads of the server

`main` starts a thread for every client, and all threads work on the files of `SERVER_ROOT`.  What a
thread does between two system calls concerns nobody else, so a step is one system call and
what follows it up to the next one.  Here each thread has a link of its own; the threads of
`SharedBuffer` also share what `Crypto::recv` keeps in its process.

* `Request` — what `cmd_retr`, `cmd_stor` and `cmd_dele` are called for;
* `Task` — where a thread is, `Threads` — all threads and the disk;
* `Threads.step` — a thread takes a request, goes on, or has its stream write something;
* `Threads.step_ne`, `Threads.untouched_run` — what a thread does not do.
-/

namespace Cybrg

open Files

namespace ServerClient

/-! ### Threads -/

/-- A name that `parola` accepts and that does not lead to a directory by itself.  The other names
never come to a regular file. -/
abbrev FileName : Type := { filename : Bytes // parola filename = true ∧ Proper (fullpath filename) }

/-- The path that a handler opens or removes: `SERVER_ROOT` is a directory. -/
def FileName.path (filename : FileName) : Path := serverRootPath ++ [filename.1]

/-- A request once its header has been read. -/
inductive Request where
  | retr (filename : FileName)
  | stor (filename : FileName) (size : ℤ)
  | dele (filename : FileName)

/-- Where a thread is. -/
inductive Task where
  /-- Between two requests. -/
  | ready
  /-- In `cmd_retr`, before the size is asked for. -/
  | opened (file : ℕ)
  /-- In the loop of `cmd_retr`. -/
  | sending (file : ℕ) (size : ℤ) (count : ℕ)
  /-- In the loop of `cmd_stor`: `body` is what was received, and the stream has passed on
  `written` bytes of it. -/
  | receiving (file : ℕ) (size : ℤ) (body : Bytes) (written : ℕ)
  /-- An exception has left `cmd_stor`; its stream writes what it holds and is closed. -/
  | leaving (file : ℕ) (body : Bytes) (written : ℕ)
  /-- The session is over. -/
  | stopped
  deriving DecidableEq

/-- The file that a thread uploads to, and what it has received. -/
def Task.upload : Task → Option (ℕ × Bytes)
  | .receiving k _ body _ => some (k, body)
  | .leaving k body _ => some (k, body)
  | _ => none

structure Thread (τ : Type) where
  client : Client τ
  task : Task := .ready

/-- All threads, with a link each, and the disk. -/
structure Threads (τ : Type) where
  disk : Disk
  threads : ℕ → Thread τ

/-- What happens to uploads. -/
inductive Note where
  /-- A thread has opened a file for its upload. -/
  | opened (i k : ℕ)
  /-- A thread has closed the file of its upload, after all of the body or after an exception. -/
  | closed (i k : ℕ) (body : Bytes) (completed : Bool)
  deriving DecidableEq

/-- A step of the thread `i`. -/
inductive Event where
  | request (i : ℕ) (request : Request)
  /-- Its handler goes on; a read asks for `n + 1` bytes. -/
  | proceed (i n : ℕ)
  /-- Its stream passes on at most `n + 1` of the bytes that it holds. -/
  | flush (i n : ℕ)

def Event.index : Event → ℕ
  | .request i _ => i
  | .proceed i _ => i
  | .flush i _ => i

namespace Threads

variable {τ : Type} (t : Transport τ) (w : Threads τ)

/-- The disk of a new server process and its threads, one for each client. -/
def new (disk : Disk) (links : ℕ → Client τ) : Threads τ := ⟨disk, fun i => { client := links i }⟩

def task (i : ℕ) : Task := (w.threads i).task

def client (i : ℕ) : Client τ := (w.threads i).client

def setThread (i : ℕ) (thread : Thread τ) : Threads τ :=
  { w with threads := Function.update w.threads i thread }

/-- The thread `i` runs `m`, which does nothing to files, and is then at `next`, or at `failed`
after an exception. -/
def runs {α : Type} (i : ℕ) (m : EStateM Ex (Client τ) α) (next : α → Task) (failed : Task) :
    Threads τ :=
  match m.run (w.client i) with
  | .ok a c => w.setThread i ⟨c, next a⟩
  | .error _ c => w.setThread i ⟨c, failed⟩

/-- Up to the first system call of a handler, and what follows it. -/
def request (i : ℕ) : Request → Threads τ × List Note
  | .retr filename =>
      match w.disk.names filename.path with
      | none => (w.runs i (answer t .badFile) (fun _ => .ready) .stopped, [])
      | some k => (w.setThread i ⟨w.client i, .opened k⟩, [])
  | .stor filename size =>
      if maxFileSize < size then
        (w.runs i (answer t .commandNotImplemented) (fun _ => .ready) .stopped, [])
      else
        let k := w.disk.truncates filename.path
        ({ w with disk := w.disk.truncate filename.path }.runs i (answer t .ok)
          (fun _ => .receiving k size [] 0) (.leaving k [] 0), [.opened i k])
  | .dele filename =>
      match w.disk.names filename.path with
      | none => (w.runs i (answer t .badFile) (fun _ => .ready) .stopped, [])
      | some _ =>
          ({ w with disk := w.disk.unlink filename.path }.runs i (answer t .ok)
            (fun _ => .ready) .stopped, [])

/-- The reply of `cmd_retr` to a request for a file of `size` bytes. -/
def announce (size : ℤ) : EStateM Ex (Client τ) Unit := do
  write (sizeReply size)
  sendCmd t

/-- The next system call of a handler, and what follows it.  The end of a file is where a read
returns nothing.  `tellg` is exact, since no file system has files of `2 ^ 63` bytes. -/
def proceed (i n : ℕ) : Threads τ × List Note :=
  match w.task i with
  | .opened k =>
      let size := ((w.disk.contents k).length : ℤ)
      (w.runs i (announce t size) (fun _ => .sending k size 0) .stopped, [])
  | .sending k size count =>
      let bs := w.disk.read k count (n + 1)
      if bs = [] then (w.runs i (sendCmd t) (fun _ => .ready) .stopped, [])
      else
        (w.runs i (retrLoop t bs count) (fun _ => .sending k size (count + bs.length)) .stopped, [])
  | .receiving k size body written =>
      if (body.length : ℤ) < size then
        (w.runs i (recvBodyFragment t (min (size - body.length) bufferSize).toNat)
          (fun fragment => .receiving k size (body ++ fragment) written) (.leaving k body written),
          [])
      else if written = body.length then
        (w.setThread i ⟨w.client i, .ready⟩, [.closed i k body true])
      else (w, [])
  | .leaving k body written =>
      if written = body.length then
        (w.setThread i ⟨w.client i, .stopped⟩, [.closed i k body false])
      else (w, [])
  | _ => (w, [])

/-- The stream of an upload writes at its own position. -/
def flush (i n : ℕ) : Threads τ × List Note :=
  match w.task i with
  | .receiving k size body written =>
      let bs := (body.drop written).take (n + 1)
      ({ w with disk := w.disk.write k written bs }.setThread i
        ⟨w.client i, .receiving k size body (written + bs.length)⟩, [])
  | .leaving k body written =>
      let bs := (body.drop written).take (n + 1)
      ({ w with disk := w.disk.write k written bs }.setThread i
        ⟨w.client i, .leaving k body (written + bs.length)⟩, [])
  | _ => (w, [])

/-- One step.  Only a thread that is between two requests takes one. -/
def step : Event → Threads τ × List Note
  | .request i r => if w.task i = .ready then w.request t i r else (w, [])
  | .proceed i n => w.proceed t i n
  | .flush i n => w.flush i n

/-- A run of the server, from the beginning. -/
abbrev run (disk : Disk) (links : ℕ → Client τ) (es : List Event) : Threads τ × List Note :=
  Machine.run (step t) (new disk links) es

/-! ### What a step does -/

variable {t} {w}

@[simp] theorem setThread_self (i : ℕ) (thread : Thread τ) :
    (w.setThread i thread).threads i = thread := by
  simp [setThread]

theorem setThread_ne {i j : ℕ} (h : j ≠ i) (thread : Thread τ) :
    (w.setThread i thread).threads j = w.threads j := by
  simp [setThread, h]

@[simp] theorem setThread_disk (i : ℕ) (thread : Thread τ) :
    (w.setThread i thread).disk = w.disk := rfl

section Runs

variable {α : Type} {i : ℕ} {m : EStateM Ex (Client τ) α} {next : α → Task} {failed : Task}

/-- How a thread can come out of a piece of its program. -/
theorem runs_cases (w : Threads τ) (i : ℕ) (m : EStateM Ex (Client τ) α) (next : α → Task)
    (failed : Task) :
    (∃ a c, m.run (w.client i) = .ok a c ∧ w.runs i m next failed = w.setThread i ⟨c, next a⟩) ∨
      ∃ e c, m.run (w.client i) = .error e c ∧
        w.runs i m next failed = w.setThread i ⟨c, failed⟩ := by
  unfold runs
  cases h : m.run (w.client i) with
  | ok a c => exact .inl ⟨a, c, rfl, rfl⟩
  | error e c => exact .inr ⟨e, c, rfl, rfl⟩

@[simp] theorem runs_disk : (w.runs i m next failed).disk = w.disk := by
  obtain ⟨a, c, -, h⟩ | ⟨e, c, -, h⟩ := runs_cases w i m next failed <;> rw [h, setThread_disk]

theorem runs_ne {j : ℕ} (hj : j ≠ i) : (w.runs i m next failed).threads j = w.threads j := by
  obtain ⟨a, c, -, h⟩ | ⟨e, c, -, h⟩ := runs_cases w i m next failed <;>
    rw [h, setThread_ne hj]

/-- Where the thread is afterwards. -/
theorem runs_task (w : Threads τ) (i : ℕ) (m : EStateM Ex (Client τ) α) (next : α → Task)
    (failed : Task) :
    (∃ a, (w.runs i m next failed).task i = next a) ∨ (w.runs i m next failed).task i = failed := by
  obtain ⟨a, c, -, h⟩ | ⟨e, c, -, h⟩ := runs_cases w i m next failed
  · exact .inl ⟨a, by rw [h, task, setThread_self]⟩
  · exact .inr (by rw [h, task, setThread_self])

end Runs

/-- A step leaves all other threads alone. -/
theorem step_ne {e : Event} {j : ℕ} (hj : j ≠ e.index) :
    (step t w e).1.threads j = w.threads j := by
  cases e with
  | request i r =>
    simp only [step]
    split
    · cases r with
      | retr filename =>
        simp only [request]
        split
        · exact runs_ne hj
        · exact setThread_ne hj _
      | stor filename size =>
        simp only [request]
        split <;> exact runs_ne hj
      | dele filename =>
        simp only [request]
        split <;> exact runs_ne hj
    · rfl
  | proceed i n =>
    simp only [step, proceed]
    split
    · exact runs_ne hj
    · split <;> exact runs_ne hj
    · split
      · exact runs_ne hj
      · split
        · exact setThread_ne hj _
        · rfl
    · split
      · exact setThread_ne hj _
      · rfl
    · rfl
  | flush i n =>
    simp only [step, flush]
    split
    · exact setThread_ne hj _
    · exact setThread_ne hj _
    · rfl

/-- A thread with no steps stays as it is. -/
theorem untouched_run {i : ℕ} {es : List Event} (h : ∀ e ∈ es, i ≠ e.index) :
    (Machine.run (step t) w es).1.threads i = w.threads i := by
  induction es generalizing w with
  | nil => rfl
  | cons e es ih =>
    rw [Machine.run_cons]
    exact (ih fun e he => h e (List.mem_cons_of_mem _ he)).trans (step_ne (h e List.mem_cons_self))

/-! ### Small instances -/

/-- A file called `a`. -/
def nameA : FileName := ⟨text "a", by decide⟩

/-- A disk with this file only. -/
def diskA (content : Bytes) : Disk where
  names p := if p = nameA.path then some 0 else none
  contents _ := content
  next := 1
  allocated := by
    intro p k hk
    split at hk
    · cases hk
      decide
    · cases hk

/-- A session on a string of bytes: the bodies that its client uploads. -/
def session (bodies : Bytes) : Client Bytes :=
  { link := bodies, host := { store := { entries := [], nodup := List.nodup_nil } } }

/-- The first client has one body, all others have another one. -/
def sessions (first second : Bytes) (i : ℕ) : Client Bytes :=
  session (if i = 0 then first else second)

end Threads

end ServerClient

end Cybrg
