import Cybrg.Library.TwoRuns
import Cybrg.Server.Apart
import Cybrg.Server.Packetisation
import Cybrg.Sessions.Isolation

/-!
# Threads and their one receive buffer

`Crypto::recv` keeps what is left of a packet in `static` variables, so all threads of the server share
one receive buffer.

* `Listening` — threads that read their headers, too;
* `Shared` — the process: a thread that makes a turn finds the buffer as the last one has left it;
* `Shared.OwnBuffer` — a call of `recv` finds no bytes of another thread there;
* `Shared.tracks_run` — under `OwnBuffer` each thread might as well have a buffer of its own;
* `Shared.threads_apart` — what a thread does and what becomes of its files depends on its own turns
  only, in whatever order the turns of the threads come.
-/

namespace Cybrg

open Files

namespace ServerClient

namespace Threads

/-! ### Threads that read headers -/

/-- Threads, and what each has read of its headers. -/
structure Listening (τ : Type) where
  threads : Threads τ
  heard : ℕ → Bytes := fun _ => []

/-- A turn of a thread. -/
inductive Turn where
  /-- The loop of `recvCmd` asks for a byte. -/
  | hear (i : ℕ)
  | act (e : Event)

def Turn.index : Turn → ℕ
  | .hear i => i
  | .act e => e.index

/-- A thread asks for what belongs to it. -/
def Turn.Owned (owner : Path → ℕ) : Turn → Prop
  | .hear _ => True
  | .act e => Threads.Owned owner e

namespace Listening

variable {τ : Type}

/-- The thread `i` reads a byte, or an exception ends its session. -/
def hear (t : Transport τ) (w : Listening τ) (i : ℕ) : Listening τ where
  threads := w.threads.runs i (recvBodyFragment t 1) (fun _ => .ready) .stopped
  heard := Function.update w.heard i
    (w.heard i ++ returnedBytes (Exec.outcome ((recvBodyFragment t 1).run (w.threads.client i))))

/-- One turn.  A thread reads a header between two requests. -/
def step (t : Transport τ) (w : Listening τ) : Turn → Listening τ × List Note
  | .hear i => if w.threads.task i = .ready then (w.hear t i, []) else (w, [])
  | .act e => ({ w with threads := (Threads.step t w.threads e).1 }, (Threads.step t w.threads e).2)

variable {t : Transport τ} {w w' : Listening τ} {owner : Path → ℕ} {i : ℕ}

/-- A turn leaves all other threads alone. -/
theorem step_ne {e : Turn} (hi : i ≠ e.index) :
    (step t w e).1.threads.threads i = w.threads.threads i ∧ (step t w e).1.heard i = w.heard i := by
  cases e with
  | hear j =>
    simp only [step]
    split
    · exact ⟨runs_ne hi, Function.update_of_ne hi _ _⟩
    · exact ⟨rfl, rfl⟩
  | act e => exact ⟨Threads.step_ne hi, rfl⟩

/-- The thread `i` cannot tell two servers apart, where the threads have names of their own. -/
structure Alike (owner : Path → ℕ) (i : ℕ) (w w' : Listening τ) : Prop where
  left : Settled owner w.threads
  right : Settled owner w'.threads
  alike : Threads.Alike owner i w.threads w'.threads
  heard : w.heard i = w'.heard i

theorem Alike.symm (h : Alike owner i w w') : Alike owner i w' w :=
  ⟨h.right, h.left, h.alike.symm, h.heard.symm⟩

theorem settled_step (h : Settled owner w.threads) {e : Turn} (he : e.Owned owner) :
    Settled owner (step t w e).1.threads := by
  cases e with
  | hear j =>
    simp only [step]
    split
    · exact h.runs _
    · exact h
  | act e => exact h.step he

/-- A turn of the thread itself. -/
theorem Alike.step (h : Alike owner i w w') {e : Turn} (he : e.Owned owner) (hi : e.index = i) :
    Alike owner i (step t w e).1 (step t w' e).1 := by
  refine ⟨settled_step h.left he, settled_step h.right he, ?_, ?_⟩
  · cases e with
    | hear j =>
      subst hi
      have htask := h.alike.task
      simp only [Listening.step]
      cases hx : w.threads.task j <;> cases hy : w'.threads.task j <;>
        rw [Turn.index, hx, hy] at htask <;> cases htask
      · rw [if_pos rfl, if_pos rfl]
        exact runs_alike h.alike.client h.alike.find (fun _ => .ready) .stopped
      all_goals exact h.alike
    | act e => exact h.alike.step h.left.single h.right.single he hi
  · cases e with
    | hear j =>
      subst hi
      have htask := h.alike.task
      have hclient : w.threads.client j = w'.threads.client j := h.alike.client
      have hheard : w.heard j = w'.heard j := h.heard
      simp only [Listening.step, Turn.index]
      cases hx : w.threads.task j <;> cases hy : w'.threads.task j <;>
        rw [Turn.index, hx, hy] at htask <;> cases htask
      · rw [if_pos rfl, if_pos rfl]
        simp only [hear, hclient, Function.update_self, hheard]
      all_goals exact hheard
    | act e => exact h.heard

/-- A turn of another thread. -/
theorem Alike.other (h : Alike owner i w w') {e : Turn} (he : e.Owned owner) (hi : i ≠ e.index) :
    Alike owner i (Listening.step t w e).1 w' := by
  refine ⟨settled_step h.left he, h.right, ?_, (step_ne hi).2.trans h.heard⟩
  cases e with
  | hear j =>
    simp only [Listening.step]
    split
    · exact h.alike.runs h.left hi _ _ _
    · exact h.alike
  | act e => exact h.alike.other h.left he hi

/-- **Threads with files and buffers of their own do not disturb each other.** -/
theorem apart_run (h : Alike owner i w w') {es es' : List Turn} (hes : ∀ e ∈ es, e.Owned owner)
    (hes' : ∀ e ∈ es', e.Owned owner)
    (hown : es.filter (fun e => e.index = i) = es'.filter (fun e => e.index = i)) :
    Alike owner i (Machine.run (step t) w es).1 (Machine.run (step t) w' es').1 := by
  refine Machine.run_selected ?_ ?_ ?_ h hes hes' hown
  · intro v v' e hv he hi
    exact hv.step he (of_decide_eq_true hi)
  · intro v v' e hv he hi
    exact hv.other he fun heq => of_decide_eq_false hi heq.symm
  · intro v v' e hv he hi
    exact (hv.symm.other he fun heq => of_decide_eq_false hi heq.symm).symm

end Listening

/-! ### Programs that send -/

variable {P : Primitives} {o : Octets.ByteOrder}

/-- The object without a receive buffer. -/
def bufferless (c : Client Endpoint) : Client Session := c.withLink c.link.session

/-- The object with this buffer. -/
def withBuffer (c : Client Session) (b : RecvBuffer) : Client Endpoint := c.withLink ⟨c.link, b⟩

/-- Two objects that differ in their buffers only, which `B` relates. -/
def Near (B : RecvBuffer → RecvBuffer → Prop) (c d : Client Endpoint) : Prop :=
  ∃ b, B c.link.buf b ∧ d = withBuffer (bufferless c) b

theorem near_iff {B : RecvBuffer → RecvBuffer → Prop} {c d : Client Endpoint} :
    Near B c d ↔ bufferless c = bufferless d ∧ B c.link.buf d.link.buf := by
  constructor
  · rintro ⟨b, hb, rfl⟩
    exact ⟨rfl, hb⟩
  · rintro ⟨hsame, hb⟩
    refine ⟨d.link.buf, hb, ?_⟩
    rw [hsame]
    rfl

/-- A program that does not look at the buffer, and leaves it as it is. -/
def Steady {α : Type} (m : EStateM Ex (Client Endpoint) α) : Prop :=
  ∀ B c d, Near B c d → Exec.Agree (Near B) (m.run c) (m.run d)

namespace Steady

variable {α β : Type}

theorem pure (a : α) : Steady (Pure.pure a) := fun _ _ _ h => .ok h

theorem ite {p : Prop} [Decidable p] {x y : EStateM Ex (Client Endpoint) α} (hx : Steady x)
    (hy : Steady y) : Steady (if p then x else y) := by
  split
  · exact hx
  · exact hy

theorem bind {m : EStateM Ex (Client Endpoint) α} {f : α → EStateM Ex (Client Endpoint) β}
    (hm : Steady m) (hf : ∀ a, Steady (f a)) : Steady (m >>= f) :=
  fun B c d h => Exec.Agree.bind (hm B c d h) fun a c' d' _ h' => hf a B c' d' h'

theorem modify {f : Client Endpoint → Client Endpoint}
    (hf : ∀ c b, f (withBuffer (bufferless c) b) = withBuffer (bufferless (f c)) b)
    (hlink : ∀ c, (f c).link = c.link) : Steady (modify f) := by
  rintro B c d ⟨b, hb, rfl⟩
  show Exec.Agree (Near B) (.ok () (f c)) (.ok () (f (withBuffer (bufferless c) b)))
  refine .ok ⟨b, ?_, hf c b⟩
  rw [hlink]
  exact hb

/-- What reads nothing of the buffer. -/
theorem get_bind {f : Client Endpoint → EStateM Ex (Client Endpoint) α}
    (hsame : ∀ c b, f (withBuffer (bufferless c) b) = f c) (hf : ∀ c, Steady (f c)) :
    Steady (get >>= f) := by
  rintro B c d ⟨b, hb, rfl⟩
  show Exec.Agree (Near B) ((f c).run c)
    ((f (withBuffer (bufferless c) b)).run (withBuffer (bufferless c) b))
  rw [hsame]
  exact hf c B c _ ⟨b, hb, rfl⟩

/-- What works on the session. -/
theorem onSession (m : EStateM Ex Session α) : Steady (onLink (Crypto.onSession m)) := by
  rintro B c d ⟨b, hb, rfl⟩
  have hlink : Exec.Agree (fun l l' : Endpoint => l' = ⟨l.session, b⟩ ∧ l.buf = c.link.buf)
      ((Crypto.onSession m).run c.link)
      ((Crypto.onSession m).run (withBuffer (bufferless c) b).link) := by
    refine Exec.Agree.zoom (.refl (m.run c.link.session)) ?_
    rintro s s' rfl
    exact ⟨rfl, rfl⟩
  refine Exec.Agree.zoom hlink ?_
  rintro l l' ⟨rfl, hbuf⟩
  exact ⟨b, hbuf.symm ▸ hb, rfl⟩

theorem write (bs : Bytes) : Steady (write bs) := .modify (fun _ _ => rfl) fun _ => rfl

theorem sendCmd : Steady (sendCmd (.crypto P o)) := by
  refine .get_bind (fun _ _ => rfl) fun c => .ite ?_ ?_
  · refine .bind (.modify (fun _ _ => rfl) fun _ => rfl) fun _ => ?_
    exact .bind (.onSession _) fun _ => .modify (fun _ _ => rfl) fun _ => rfl
  · exact .modify (fun _ _ => rfl) fun _ => rfl

theorem answer (status : Status) : Steady (answer (.crypto P o) status) :=
  .bind (.write _) fun _ => .sendCmd

theorem announce (size : ℤ) : Steady (announce (.crypto P o) size) :=
  .bind (.write _) fun _ => .sendCmd

theorem retrLoop (bs : Bytes) (count : ℕ) : Steady (retrLoop (.crypto P o) bs count) := by
  induction bs generalizing count with
  | nil => exact .pure ()
  | cons b bs ih =>
    exact .bind (.write _) fun _ => .bind (.ite .sendCmd (.pure ())) fun _ => ih (count + 1)

end Steady

/-- Buffers that hold the same unread bytes. -/
def SameUnread (b b' : RecvBuffer) : Prop := b.remaining = b'.remaining ∧ b.unread = b'.unread

/-- A call of `recv` looks at the unread bytes only. -/
theorem near_recv {c d : Client Endpoint} (h : Near SameUnread c d) (len : ℕ) :
    Exec.Agree (Near SameUnread) ((recvBodyFragment (.crypto P o) len).run c)
      ((recvBodyFragment (.crypto P o) len).run d) := by
  obtain ⟨b, ⟨hremaining, hunread⟩, rfl⟩ := h
  have hlike : c.link.Like (withBuffer (bufferless c) b).link := ⟨rfl, hremaining, hunread⟩
  have hnear : ∀ {l l' : Endpoint}, l.Like l' → Near SameUnread { c with link := l }
      { withBuffer (bufferless c) b with link := l' } := by
    rintro ⟨s, b₁⟩ ⟨s', b₂⟩ ⟨hs, hr, hu⟩
    obtain rfl : s = s' := hs
    exact ⟨b₂, ⟨hr, hu⟩, rfl⟩
  exact Exec.Agree.zoom (Crypto.recv_agree (P := P) (o := o) hlike len) fun _ _ => hnear

/-! ### The same turn on two servers -/

/-- The handler of `cmd_stor` asks for more of a body. -/
def Fetches : Task → Prop
  | .receiving _ size body _ => (body.length : ℤ) < size
  | _ => False

instance : ∀ task : Task, Decidable (Fetches task)
  | .receiving _ size body _ => inferInstanceAs (Decidable ((body.length : ℤ) < size))
  | .ready | .opened _ | .sending _ _ _ | .leaving _ _ _ | .stopped => inferInstanceAs (Decidable False)

/-- A thread that is there calls `Crypto::recv`. -/
def Turn.Calls (task : Task) : Turn → Prop
  | .hear _ => task = .ready
  | .act (.proceed _ _) => Fetches task
  | .act _ => False

instance (task : Task) : ∀ e : Turn, Decidable (e.Calls task)
  | .hear _ => inferInstanceAs (Decidable (task = .ready))
  | .act (.proceed _ _) => inferInstanceAs (Decidable (Fetches task))
  | .act (.request _ _) | .act (.flush _ _) => inferInstanceAs (Decidable False)

variable {B : RecvBuffer → RecvBuffer → Prop} {i : ℕ}

/-- The thread `i` on two servers with the same files: `B` relates its buffers. -/
structure Close (B : RecvBuffer → RecvBuffer → Prop) (i : ℕ) (w v : Threads Endpoint) : Prop where
  disk : w.disk = v.disk
  task : w.task i = v.task i
  client : Near B (w.client i) (v.client i)

namespace Close

variable {w v : Threads Endpoint} (h : Close B i w v)

include h

theorem withDisk (d : Disk) : Close B i { w with disk := d } { v with disk := d } :=
  ⟨rfl, h.task, h.client⟩

theorem setThread {c d : Client Endpoint} (hclient : Near B c d) (task : Task) :
    Close B i (w.setThread i ⟨c, task⟩) (v.setThread i ⟨d, task⟩) := by
  refine ⟨h.disk, ?_, ?_⟩
  · simp only [Threads.task, setThread_self]
  · simp only [Threads.client, setThread_self]
    exact hclient

theorem runs {α : Type} {m : EStateM Ex (Client Endpoint) α}
    (hm : Exec.Agree (Near B) (m.run (w.client i)) (m.run (v.client i))) (next : α → Task)
    (failed : Task) : Close B i (w.runs i m next failed) (v.runs i m next failed) := by
  unfold Threads.runs
  generalize m.run (w.client i) = r at hm
  generalize m.run (v.client i) = r' at hm
  cases hm with
  | ok hend => exact h.setThread hend _
  | error hend => exact h.setThread hend _

theorem steady {α : Type} {m : EStateM Ex (Client Endpoint) α} (hm : Steady m) (next : α → Task)
    (failed : Task) : Close B i (w.runs i m next failed) (v.runs i m next failed) :=
  h.runs (hm B _ _ h.client) next failed

theorem request (r : Request) :
    Close B i (request (.crypto P o) w i r).1 (request (.crypto P o) v i r).1 ∧
      (request (.crypto P o) w i r).2 = (request (.crypto P o) v i r).2 := by
  cases r with
  | retr filename =>
    simp only [Threads.request, h.disk]
    split
    · exact ⟨h.steady (.answer _) _ _, rfl⟩
    · exact ⟨h.setThread h.client _, rfl⟩
  | stor filename size =>
    simp only [Threads.request, h.disk]
    split
    · exact ⟨h.steady (.answer _) _ _, rfl⟩
    · exact ⟨(h.withDisk _).steady (.answer _) _ _, rfl⟩
  | dele filename =>
    simp only [Threads.request, h.disk]
    split
    · exact ⟨h.steady (.answer _) _ _, rfl⟩
    · exact ⟨(h.withDisk _).steady (.answer _) _ _, rfl⟩

theorem proceed (n : ℕ)
    (hrecv : Fetches (w.task i) → ∀ len, Exec.Agree (Near B)
      ((recvBodyFragment (.crypto P o) len).run (w.client i))
      ((recvBodyFragment (.crypto P o) len).run (v.client i))) :
    Close B i (proceed (.crypto P o) w i n).1 (proceed (.crypto P o) v i n).1 ∧
      (proceed (.crypto P o) w i n).2 = (proceed (.crypto P o) v i n).2 := by
  simp only [Threads.proceed, h.task, h.disk]
  cases htask : v.task i with
  | opened k => exact ⟨h.steady (.announce _) _ _, rfl⟩
  | sending k size count =>
    simp only
    split
    · exact ⟨h.steady .sendCmd _ _, rfl⟩
    · exact ⟨h.steady (.retrLoop _ _) _ _, rfl⟩
  | receiving k size body written =>
    simp only
    split
    · rename_i hlen
      rw [h.task, htask] at hrecv
      exact ⟨h.runs (hrecv hlen _) _ _, rfl⟩
    · split
      · exact ⟨h.setThread h.client _, rfl⟩
      · exact ⟨h, rfl⟩
  | leaving k body written =>
    simp only
    split
    · exact ⟨h.setThread h.client _, rfl⟩
    · exact ⟨h, rfl⟩
  | ready => exact ⟨h, rfl⟩
  | stopped => exact ⟨h, rfl⟩

theorem flush (n : ℕ) :
    Close B i (flush w i n).1 (flush v i n).1 ∧ (flush w i n).2 = (flush v i n).2 := by
  simp only [Threads.flush, h.task, h.disk]
  cases v.task i with
  | receiving k size body written =>
    simp only
    exact ⟨(h.withDisk _).setThread h.client _, trivial⟩
  | leaving k body written =>
    simp only
    exact ⟨(h.withDisk _).setThread h.client _, trivial⟩
  | _ => exact ⟨h, rfl⟩

/-- **A turn of the thread** is the same turn on both servers, if a call of `recv` is. -/
theorem step {e : Event} (hi : e.index = i)
    (hrecv : (Turn.act e).Calls (w.task i) → ∀ len, Exec.Agree (Near B)
      ((recvBodyFragment (.crypto P o) len).run (w.client i))
      ((recvBodyFragment (.crypto P o) len).run (v.client i))) :
    Close B i (step (.crypto P o) w e).1 (step (.crypto P o) v e).1 ∧
      (step (.crypto P o) w e).2 = (step (.crypto P o) v e).2 := by
  subst hi
  cases e with
  | request i r =>
    have htask : w.task i = v.task i := h.task
    simp only [Threads.step, htask]
    split
    · exact h.request r
    · exact ⟨h, rfl⟩
  | proceed i n => exact h.proceed n hrecv
  | flush i n => exact h.flush n

end Close

/-- The same with headers. -/
theorem Listening.close_step {w v : Listening Endpoint} (h : Close B i w.threads v.threads)
    (hheard : w.heard = v.heard) {e : Turn} (hi : e.index = i)
    (hrecv : e.Calls (w.threads.task i) → ∀ len, Exec.Agree (Near B)
      ((recvBodyFragment (.crypto P o) len).run (w.threads.client i))
      ((recvBodyFragment (.crypto P o) len).run (v.threads.client i))) :
    Close B i (step (.crypto P o) w e).1.threads (step (.crypto P o) v e).1.threads ∧
      (step (.crypto P o) w e).1.heard = (step (.crypto P o) v e).1.heard ∧
        (step (.crypto P o) w e).2 = (step (.crypto P o) v e).2 := by
  subst hi
  cases e with
  | hear i =>
    have htask : w.threads.task i = v.threads.task i := h.task
    simp only [Listening.step, htask]
    split
    · rename_i hready
      have hagree := hrecv (htask.trans hready) 1
      refine ⟨h.runs hagree _ _, ?_, rfl⟩
      have hbytes := congrArg returnedBytes hagree.outcome
      simp only [Turn.index] at hbytes
      simp only [hear, hbytes, hheard]
    · exact ⟨h, hheard, rfl⟩
  | act e =>
    obtain ⟨hclose, hnotes⟩ := h.step rfl hrecv
    exact ⟨hclose, hheard, hnotes⟩

/-! ### The process -/

/-- The threads of a process. -/
structure Shared where
  own : Listening Session
  /-- The `static` locals of `Crypto::recv`. -/
  buf : RecvBuffer := {}
  /-- The thread whose call last found the buffer empty.  The program does not know it. -/
  owner : Option ℕ := none

namespace Shared

/-- Every thread finds the buffer of the process. -/
def lend (w : Shared) : Listening Endpoint where
  threads :=
    { disk := w.own.threads.disk
      threads := fun i => ⟨withBuffer (w.own.threads.client i) w.buf, w.own.threads.task i⟩ }
  heard := w.own.heard

/-- What there is of the threads without the buffer. -/
def giveBack (l : Listening Endpoint) : Listening Session where
  threads :=
    { disk := l.threads.disk
      threads := fun i => ⟨bufferless (l.threads.client i), l.threads.task i⟩ }
  heard := l.heard

/-- The next turn calls `Crypto::recv`. -/
def Calls (w : Shared) (e : Turn) : Prop := e.Calls (w.own.threads.task e.index)

instance (w : Shared) (e : Turn) : Decidable (w.Calls e) :=
  inferInstanceAs (Decidable (e.Calls (w.own.threads.task e.index)))

/-- One turn. -/
def step (P : Primitives) (o : Octets.ByteOrder) (w : Shared) (e : Turn) : Shared × List Note :=
  let r := Listening.step (.crypto P o) w.lend e
  ({ own := giveBack r.1
     buf := (r.1.threads.client e.index).link.buf
     owner := if w.Calls e ∧ w.buf.remaining = 0 then some e.index else w.owner }, r.2)

/-- A new process. -/
def new (disk : Disk) (links : ℕ → Client Session) : Shared where
  own := { threads := Threads.new disk links }

abbrev run (P : Primitives) (o : Octets.ByteOrder) (disk : Disk) (links : ℕ → Client Session)
    (es : List Turn) : Shared × List Note :=
  Machine.run (step P o) (new disk links) es

/-- A call of `recv` does not find the bytes of another thread in the buffer. -/
def OwnBuffer (w : Shared) (e : Turn) : Prop :=
  w.Calls e → w.buf.remaining = 0 ∨ w.owner = some e.index

instance (w : Shared) (e : Turn) : Decidable (w.OwnBuffer e) :=
  inferInstanceAs (Decidable (w.Calls e → w.buf.remaining = 0 ∨ w.owner = some e.index))

/-- The process is at the same point as threads that have a buffer each: that of the owner holds what
is unread, and the others are empty. -/
structure Tracks (w : Shared) (v : Listening Endpoint) : Prop where
  disk : w.own.threads.disk = v.threads.disk
  heard : w.own.heard = v.heard
  task : ∀ i, w.own.threads.task i = v.threads.task i
  client : ∀ i, w.own.threads.client i = bufferless (v.threads.client i)
  mine : ∀ i, w.owner = some i → SameUnread w.buf (v.threads.client i).link.buf
  other : ∀ i, w.owner ≠ some i → (v.threads.client i).link.buf.remaining = 0

namespace Tracks

variable {w : Shared} {v : Listening Endpoint}

theorem new (disk : Disk) (links : ℕ → Client Session) :
    Tracks (new disk links) { threads := Threads.new disk fun i => withBuffer (links i) {} } :=
  ⟨rfl, rfl, fun _ => rfl, fun _ => rfl, fun _ h => (nomatch h), fun _ _ => rfl⟩

/-- A thread in both, with buffers that are related. -/
theorem close (h : Tracks w v) {i : ℕ} (hB : B w.buf (v.threads.client i).link.buf) :
    Close B i w.lend.threads v.threads := by
  refine ⟨h.disk, h.task i, near_iff.mpr ⟨?_, hB⟩⟩
  exact h.client i

/-- Where a thread may read the buffer, both hold the same bytes. -/
theorem unread (h : Tracks w v) {i : ℕ} (hown : w.buf.remaining = 0 ∨ w.owner = some i) :
    SameUnread w.buf (v.threads.client i).link.buf := by
  by_cases hi : w.owner = some i
  · exact h.mine i hi
  · have hempty := hown.resolve_right hi
    have hempty' := h.other i hi
    exact ⟨hempty.trans hempty'.symm,
      (RecvBuffer.unread_of_empty hempty).trans (RecvBuffer.unread_of_empty hempty').symm⟩

/-- The buffers of the threads that do not make the turn, if the one that does calls `recv`. -/
theorem empty (h : Tracks w v) {i j : ℕ} (hown : w.buf.remaining = 0 ∨ w.owner = some i) (hj : j ≠ i) :
    (v.threads.client j).link.buf.remaining = 0 := by
  by_cases ho : w.owner = some j
  · have hne : w.owner ≠ some i := fun heq => hj (Option.some.inj (ho.symm.trans heq))
    exact (h.mine j ho).1.symm.trans (hown.resolve_right hne)
  · exact h.other j ho

/-- What a turn does to the threads. -/
theorem moved (h : Tracks w v) {e : Turn}
    (hclose : Close B e.index (Listening.step (.crypto P o) w.lend e).1.threads
      (Listening.step (.crypto P o) v e).1.threads)
    (hheard : (Listening.step (.crypto P o) w.lend e).1.heard
      = (Listening.step (.crypto P o) v e).1.heard)
    (hmine : ∀ i, (step P o w e).1.owner = some i → SameUnread (step P o w e).1.buf
      ((Listening.step (.crypto P o) v e).1.threads.client i).link.buf)
    (hother : ∀ i, (step P o w e).1.owner ≠ some i →
      ((Listening.step (.crypto P o) v e).1.threads.client i).link.buf.remaining = 0) :
    Tracks (step P o w e).1 (Listening.step (.crypto P o) v e).1 := by
  refine ⟨hclose.disk, hheard, fun i => ?_, fun i => ?_, hmine, hother⟩
  · by_cases hi : i = e.index
    · rw [hi]
      exact hclose.task
    · have hleft := congrArg Thread.task (Listening.step_ne (t := .crypto P o) (w := w.lend) hi).1
      have hright := congrArg Thread.task (Listening.step_ne (t := .crypto P o) (w := v) hi).1
      exact (hleft.trans (h.task i)).trans hright.symm
  · by_cases hi : i = e.index
    · rw [hi]
      exact (near_iff.mp hclose.client).1
    · have hleft := congrArg Thread.client (Listening.step_ne (t := .crypto P o) (w := w.lend) hi).1
      have hright := congrArg Thread.client (Listening.step_ne (t := .crypto P o) (w := v) hi).1
      exact ((congrArg bufferless hleft).trans (h.client i)).trans (congrArg bufferless hright).symm

/-- **A turn** that finds no bytes of another thread. -/
theorem step (h : Tracks w v) {e : Turn} (hown : w.OwnBuffer e) :
    Tracks (step P o w e).1 (Listening.step (.crypto P o) v e).1 ∧
      List.Forall₂ (· = ·) (Shared.step P o w e).2 (Listening.step (.crypto P o) v e).2 := by
  have hsame : ∀ {i}, i ≠ e.index → (Listening.step (.crypto P o) v e).1.threads.client i
      = v.threads.client i :=
    fun hi => congrArg Thread.client (Listening.step_ne (t := .crypto P o) (w := v) hi).1
  by_cases hcall : w.Calls e
  · -- the thread reads, and its bytes are in the buffer afterwards
    have hclose : Close SameUnread e.index w.lend.threads v.threads := h.close (h.unread (hown hcall))
    obtain ⟨hclose', hheard, hnotes⟩ := Listening.close_step (P := P) (o := o) hclose h.heard rfl
      fun _ len => near_recv hclose.client len
    have howner : (Shared.step P o w e).1.owner = some e.index := by
      show (if w.Calls e ∧ w.buf.remaining = 0 then some e.index else w.owner) = _
      split
      · rfl
      · rename_i hno
        exact (hown hcall).resolve_left fun hempty => hno ⟨hcall, hempty⟩
    refine ⟨h.moved hclose' hheard (fun i hi => ?_) fun i hi => ?_, ?_⟩
    · obtain rfl := Option.some.inj (howner.symm.trans hi)
      exact (near_iff.mp hclose'.client).2
    · have hne : i ≠ e.index := fun heq => hi (heq ▸ howner)
      rw [hsame hne]
      exact h.empty (hown hcall) hne
    · rw [Shared.step, hnotes]
      exact List.forall₂_same.mpr fun _ _ => rfl
  · -- nobody looks at the buffer
    have hclose : Close (fun b d => b = w.buf ∧ d = (v.threads.client e.index).link.buf) e.index
        w.lend.threads v.threads := h.close ⟨rfl, rfl⟩
    obtain ⟨hclose', hheard, hnotes⟩ := Listening.close_step (P := P) (o := o) hclose h.heard rfl
      fun hcalls => absurd hcalls hcall
    obtain ⟨hbuf, hbuf'⟩ := (near_iff.mp hclose'.client).2
    have howner : (Shared.step P o w e).1.owner = w.owner := if_neg fun hboth => hcall hboth.1
    have hkept : ∀ i, ((Listening.step (.crypto P o) v e).1.threads.client i).link.buf
        = (v.threads.client i).link.buf := by
      intro i
      by_cases hi : i = e.index
      · rw [hi, hbuf']
      · rw [hsame hi]
    have hshared : (Shared.step P o w e).1.buf = w.buf := hbuf
    refine ⟨h.moved hclose' hheard (fun i hi => ?_) fun i hi => ?_, ?_⟩
    · rw [hshared, hkept]
      exact h.mine i (howner ▸ hi)
    · rw [hkept]
      exact h.other i (howner ▸ hi)
    · rw [Shared.step, hnotes]
      exact List.forall₂_same.mpr fun _ _ => rfl

end Tracks

/-- **One buffer is as good as many**, as long as each call of `recv` finds no bytes of another
thread. -/
theorem tracks_run {disk : Disk} {links : ℕ → Client Session} {es : List Turn}
    (h : Machine.Meets (step P o) OwnBuffer (new disk links) es) :
    Tracks (run P o disk links es).1 (Machine.run (Listening.step (.crypto P o))
      { threads := Threads.new disk fun i => withBuffer (links i) {} } es).1 := by
  have hstep : ∀ (w : Shared) (v : Listening Endpoint) (e : Turn), w.Tracks v → w.OwnBuffer e →
      (step P o w e).1.Tracks (Listening.step (.crypto P o) v e).1 ∧
        List.Forall₂ (· = ·) (step P o w e).2 (Listening.step (.crypto P o) v e).2 :=
    fun w v e htracks hown => htracks.step hown
  exact (Machine.run_simulates hstep (.new disk links) h).1

/-- **Threads with files of their own do not disturb each other.**  In two processes the thread `i` has
the same client, its files have the same contents, and it makes the same turns; everything else may
differ, and so may the order in which the threads come.  If no call of `recv` finds the bytes of another
thread, then it reads, sends and receives the same in both, and its files have the same contents in the
end. -/
theorem threads_apart (P : Primitives) (o : Octets.ByteOrder) {owner : Path → ℕ} {i : ℕ}
    {disk disk' : Disk} (hdisk : disk.Single) (hdisk' : disk'.Single)
    (hfind : ∀ p, owner p = i → disk.find p = disk'.find p) {links links' : ℕ → Client Session}
    (hlinks : links i = links' i) {es es' : List Turn} (hes : ∀ e ∈ es, e.Owned owner)
    (hes' : ∀ e ∈ es', e.Owned owner)
    (hown : es.filter (fun e => e.index = i) = es'.filter (fun e => e.index = i))
    (hbuf : Machine.Meets (step P o) OwnBuffer (new disk links) es)
    (hbuf' : Machine.Meets (step P o) OwnBuffer (new disk' links') es') :
    let w := (run P o disk links es).1.own
    let w' := (run P o disk' links' es').1.own
    w.threads.client i = w'.threads.client i ∧ w.heard i = w'.heard i ∧
      ∀ p, owner p = i → w.threads.disk.find p = w'.threads.disk.find p := by
  have halike : Listening.Alike owner i
      { threads := Threads.new disk fun j => withBuffer (links j) {} }
      { threads := Threads.new disk' fun j => withBuffer (links' j) {} } := by
    refine ⟨settled_new hdisk _, settled_new hdisk' _, ⟨?_, hfind, .ready⟩, rfl⟩
    show withBuffer (links i) {} = withBuffer (links' i) {}
    rw [hlinks]
  have hend := Listening.apart_run (t := .crypto P o) halike hes hes' hown
  have htracks := tracks_run hbuf
  have htracks' := tracks_run hbuf'
  refine ⟨?_, ?_, fun p hp => ?_⟩
  · rw [htracks.client, htracks'.client, hend.alike.client]
  · rw [htracks.heard, htracks'.heard, hend.heard]
  · rw [htracks.disk, htracks'.disk]
    exact hend.alike.find p hp

/-- A second name. -/
def nameB : FileName := ⟨text "b", by decide⟩

/-- One client asks for a file, and another one uploads three bytes. -/
def visitors (i : ℕ) : Client Session where
  link :=
    if i = 0 then Session.new (.sample 1)
      { incoming := wireOf .sample .little (.sample 1) [text "RETR a\n\n"] }
    else Session.new (.sample 2)
      { incoming := wireOf .sample .little (.sample 2) [text "STOR b\nSize: 3\n\n", text "xyz"] }
  host := { store := { entries := [], nodup := List.nodup_nil } }

/-- The second thread takes the buffer when the first one has read its header. -/
def sideBySide : List Turn :=
  List.replicate 8 (.hear 0) ++ .act (.request 0 (.retr nameA)) ::
    (List.replicate 16 (.hear 1) ++ [.act (.request 1 (.stor nameB 3)), .act (.proceed 0 0),
      .act (.proceed 1 0), .act (.proceed 0 9), .act (.flush 1 2), .act (.proceed 0 0),
      .act (.proceed 1 0)])

/-- The download comes to what it would come to without the upload. -/
theorem threads_apart_two :
    (run .sample .little (diskA (text "ab")) visitors sideBySide).1.own.heard 0 = text "RETR a\n\n" ∧
      ((run .sample .little (diskA (text "ab")) visitors sideBySide).1.own.threads.client 0).packets
        = [sizeReply 2, text "a", text "b"] := by
  have hdisk : (diskA (text "ab")).Single := by
    intro p q k hp hq
    have hof : ∀ {r : Path}, (diskA (text "ab")).names r = some k → r = nameA.path := by
      intro r hr
      by_contra hne
      have hnone : (diskA (text "ab")).names r = none := if_neg hne
      rw [hnone] at hr
      cases hr
    rw [hof hp, hof hq]
  have howned : ∀ e ∈ sideBySide, e.Owned (fun p => if p = nameA.path then 0 else 1) := by
    intro e he
    simp only [sideBySide, List.mem_append, List.mem_cons, List.mem_replicate, List.not_mem_nil,
      or_false] at he
    rcases he with ⟨-, rfl⟩ | rfl | ⟨-, rfl⟩ | rfl | rfl | rfl | rfl | rfl | rfl | rfl <;> trivial
  have halone : sideBySide.filter (fun e => e.index = 0)
      = (sideBySide.filter fun e => e.index = 0).filter (fun e => e.index = 0) := by
    rw [List.filter_filter]
    simp only [Bool.and_self]
  have hlinks : visitors 0 = visitors 0 := rfl
  obtain ⟨hclient, hheard, -⟩ := threads_apart .sample .little hdisk hdisk (fun _ _ => rfl) hlinks howned
    (fun e he => howned e (List.mem_of_mem_filter he)) halone (by decide +kernel) (by decide +kernel)
  rw [hclient, hheard]
  decide +kernel

end Shared

end Threads

end ServerClient

end Cybrg
