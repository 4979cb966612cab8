import Cybrg.Common.SecureLayer
import Cybrg.Server.Client

/-!
# A round, call by call

A round moves the secure layer and the system only by calls, and every call moves one of them.

* `Moves`, `iteration_moves` — what every call keeps, a round keeps;
* `Loop.after_later` — the decisions of the system are used one after the other;
* `Transport.Drains`, `Transport.crypto_drains` — what arrives is used up;
* `session_ends` — so every session ends.
-/

namespace Cybrg

open Streams Files

namespace ServerClient

variable {τ : Type}

/-! ### The rule of calls -/

/-- The calls of the system move it along `R`, and those of the secure layer move it along `S`. -/
structure Moves (t : Transport τ) (R : Host → Host → Prop) (S : τ → τ → Prop) : Prop where
  system : Exec.Path R
  layer : Exec.Path S
  remove : ∀ path, Exec.Within R (Host.remove path)
  readDir : ∀ path, Exec.Within R (Host.readDir path)
  openIn : ∀ path, Exec.Within R (Host.openIn path)
  openOut : ∀ path, Exec.Within R (Host.openOut path)
  limit : ∀ size, Exec.Within R (Host.limit size)
  uninitialised : Exec.Within R Host.uninitialised
  append : ∀ path bs, Exec.Within R (Host.append path bs)
  recv : ∀ size, Exec.Within S (t.recv size)
  send : ∀ bs, Exec.Within S (t.send bs)

/-- The link and the host of a `Client` move along `S` and `R`. -/
def Along (R : Host → Host → Prop) (S : τ → τ → Prop) (c c' : Client τ) : Prop :=
  R c.host c'.host ∧ S c.link c'.link

section Calls

variable {t : Transport τ} {R : Host → Host → Prop} {S : τ → τ → Prop} (h : Moves t R S)

include h

theorem Moves.path : Exec.Path (Along (τ := τ) R S) :=
  ⟨fun _ => ⟨h.system.refl _, h.layer.refl _⟩, fun _ _ _ hcd hde =>
    ⟨h.system.trans _ _ _ hcd.1 hde.1, h.layer.trans _ _ _ hcd.2 hde.2⟩⟩

theorem Moves.onHost {α : Type} {m : EStateM Ex Host α} (hm : Exec.Within R m) :
    Exec.Within (Along (τ := τ) R S) (onHost m) :=
  .zoom (fun _ _ hstep => ⟨hstep, h.layer.refl _⟩) hm

theorem Moves.onLink {α : Type} {m : EStateM Ex τ α} (hm : Exec.Within S m) :
    Exec.Within (Along R S) (onLink m) :=
  .zoom (fun _ _ hstep => ⟨h.system.refl _, hstep⟩) hm

/-- What touches neither of them. -/
theorem Moves.modify {f : Client τ → Client τ}
    (hf : ∀ c, (f c).host = c.host ∧ (f c).link = c.link) :
    Exec.Within (Along (τ := τ) R S) (modify f : EStateM Ex (Client τ) PUnit) := by
  refine .modify fun c => ?_
  show R c.host (f c).host ∧ S c.link (f c).link
  rw [(hf c).1, (hf c).2]
  exact ⟨h.system.refl _, h.layer.refl _⟩

theorem Moves.extractWord (old : Bytes) : Exec.Within (Along (τ := τ) R S) (extractWord old) :=
  fun _ => h.path.refl _

theorem Moves.extractInt64 (old : ℤ) : Exec.Within (Along (τ := τ) R S) (extractInt64 old) :=
  fun _ => h.path.refl _

theorem sendCmd_moves : Exec.Within (Along R S) (sendCmd t) := by
  refine .bind h.path (.get h.path) fun c => .ite ?_ (h.modify fun _ => ⟨rfl, rfl⟩)
  refine .bind h.path (h.modify fun _ => ⟨rfl, rfl⟩) fun _ => ?_
  exact .bind h.path (h.onLink (h.send _)) fun _ => h.modify fun _ => ⟨rfl, rfl⟩

theorem answer_moves (status : Status) : Exec.Within (Along R S) (answer t status) :=
  .bind h.path (h.modify fun _ => ⟨rfl, rfl⟩) fun _ => sendCmd_moves h

theorem cmdDele_moves : Exec.Within (Along R S) (cmdDele t) := by
  refine .bind h.path (h.extractWord _) fun filename => .ite (answer_moves h _) ?_
  refine .bind h.path (h.onHost (h.remove _)) fun removed => ?_
  exact .ite (answer_moves h _) (answer_moves h _)

theorem cmdList_moves : Exec.Within (Along R S) (cmdList t) := by
  refine .bind h.path (h.onHost (h.readDir _)) fun dd => ?_
  cases dd with
  | none => exact answer_moves h _
  | some names =>
    refine .bind h.path (h.modify fun _ => ⟨rfl, rfl⟩) fun _ => .bind h.path (sendCmd_moves h) fun _ => ?_
    exact .bind h.path (h.modify fun _ => ⟨rfl, rfl⟩) fun _ => sendCmd_moves h

theorem retrLoop_moves (bs : Bytes) (count : ℕ) : Exec.Within (Along R S) (retrLoop t bs count) := by
  induction bs generalizing count with
  | nil => exact .pure h.path ()
  | cons b bs ih =>
    refine .bind h.path (h.modify fun _ => ⟨rfl, rfl⟩) fun _ => .bind h.path ?_ fun _ => ih _
    exact .ite (sendCmd_moves h) (.pure h.path _)

theorem cmdRetr_moves : Exec.Within (Along R S) (cmdRetr t) := by
  refine .bind h.path (h.extractWord _) fun filename => .ite (answer_moves h _) ?_
  refine .bind h.path (h.onHost (h.openIn _)) fun file => ?_
  cases file with
  | none => exact answer_moves h _
  | some node =>
    refine .bind h.path (.get h.path) fun c => .bind h.path (h.onHost (h.limit _)) fun readable => ?_
    refine .bind h.path (h.modify fun _ => ⟨rfl, rfl⟩) fun _ => .bind h.path (sendCmd_moves h) fun _ => ?_
    exact .bind h.path (retrLoop_moves h _ _) fun _ => sendCmd_moves h

theorem storLoop_moves (path : Path) (size : ℤ) (n : ℕ) (received : ℤ) (writable : ℕ) :
    Exec.Within (Along R S) (storLoop t path size n received writable) := by
  induction n generalizing received writable with
  | zero => exact .pure h.path ()
  | succ n ih =>
    refine .ite (.bind h.path (h.onLink (h.recv _)) fun fragment => ?_) (.pure h.path ())
    exact .bind h.path (h.onHost (h.append _ _)) fun _ => ih _ _

theorem cmdStor_moves : Exec.Within (Along R S) (cmdStor t) := by
  refine .bind h.path (h.extractWord _) fun filename => .ite (answer_moves h _) ?_
  refine .bind h.path (h.extractWord _) fun tag => ?_
  refine .bind h.path (h.onHost h.uninitialised) fun stale => ?_
  refine .bind h.path (h.extractInt64 _) fun size => ?_
  refine .ite (answer_moves h _) (.ite (answer_moves h _) ?_)
  refine .bind h.path (h.onHost (h.openOut _)) fun file => ?_
  cases file with
  | none => exact answer_moves h _
  | some path =>
    refine .bind h.path (answer_moves h _) fun _ => .bind h.path (h.onHost (h.limit _)) fun _ => ?_
    exact storLoop_moves h path size _ _ _

theorem dispatch_moves (cmd : Bytes) : Exec.Within (Along R S) (dispatch t cmd) := by
  have hnote : ∀ {n : Handler} {m : EStateM Ex (Client τ) Unit}, Exec.Within (Along R S) m →
      Exec.Within (Along R S) (handle n m >>= fun _ => pure true) := fun hm =>
    .bind h.path (.bind h.path (h.modify fun _ => ⟨rfl, rfl⟩) fun _ => hm) fun _ => .pure h.path true
  have hanswer : ∀ (status : Status) (more : Bool),
      Exec.Within (Along R S) (answer t status >>= fun _ => pure more) :=
    fun status more => .bind h.path (answer_moves h status) fun _ => .pure h.path more
  unfold dispatch
  refine .ite (hnote (cmdDele_moves h)) (.ite (hnote (cmdList_moves h)) (.ite (hanswer _ _) ?_))
  exact .ite (hnote (cmdRetr_moves h)) (.ite (hnote (cmdStor_moves h)) (hanswer _ _))

theorem recvLoop_moves (n : ℕ) (shiftRegister : Byte × Byte) :
    Exec.Within S (t.recvLoop n shiftRegister) := by
  induction n generalizing shiftRegister with
  | zero => exact .pure h.layer []
  | succ n ih =>
    refine .bind h.layer (h.recv 1) fun received => ?_
    have hrest : ∀ (b : Byte) (r : Byte × Byte),
        Exec.Within S (t.recvLoop n r >>= fun rest => pure (b :: rest)) :=
      fun b r => .bind h.layer (ih r) fun rest => .pure h.layer (b :: rest)
    split
    · exact .ite (.pure h.layer _) (hrest _ _)
    · exact hrest _ _

theorem recvCmd_moves : Exec.Within (Along R S) (recvCmd t) := by
  refine .bind h.path (h.modify fun _ => ⟨rfl, rfl⟩) fun _ => ?_
  refine .bind h.path (h.onLink ?_) fun header => h.modify fun _ => ⟨rfl, rfl⟩
  exact .bind h.layer (recvLoop_moves h _ _) fun buffer => .pure h.layer _

/-- **What every call keeps, a round keeps.** -/
theorem iteration_moves : Exec.Within (Along R S) (iteration t) := by
  refine .bind h.path (recvCmd_moves h) fun _ => .bind h.path (.get h.path) fun c => ?_
  refine .bind h.path (h.extractWord _) fun cmd => .bind h.path (h.modify fun _ => ⟨rfl, rfl⟩) fun _ => ?_
  exact .bind h.path (.get h.path) fun c => .ite (dispatch_moves h cmd) (.pure h.path true)

end Calls

/-! ### Later systems -/

theorem moves_since (t : Transport τ) : Moves t Host.Since fun _ _ => True where
  system := Host.since_path
  layer := ⟨fun _ => trivial, fun _ _ _ _ _ => trivial⟩
  remove := Host.since_remove
  readDir := Host.since_readDir
  openIn := Host.since_openIn
  openOut := Host.since_openOut
  limit := Host.since_limit
  uninitialised := Host.since_uninitialised
  append := Host.since_append
  recv _ _ := trivial
  send _ _ := trivial

/-- The system of the server after some rounds is a later one. -/
theorem Loop.after_later (t : Transport τ) (n : ℕ) (l : Loop τ) :
    l.client.host.Since (Loop.after t n l).client.host := by
  refine Machine.invariant_run (I := fun l' : Loop τ => l.client.host.Since l'.client.host)
    (C := fun _ _ => True) ?_ (Host.since_path.refl _) (Machine.meets_true _)
  intro l' e hl' _
  refine Host.since_path.trans _ _ _ hl' ?_
  have hround := (iteration_moves (moves_since t) l'.client).1
  unfold Loop.step
  split
  · cases hrun : (iteration t).run l'.client with
    | ok more c =>
      rw [hrun] at hround
      exact hround
    | error e c =>
      rw [hrun] at hround
      exact hround
  · exact Host.since_path.refl _

end ServerClient

/-! ### What arrives is used up -/

/-- Every call of `recv` that returns uses up something of what is left, and nothing is added. -/
structure Transport.Drains {τ : Type} (t : Transport τ) (left : τ → ℕ) : Prop where
  recv : ∀ size, Exec.Within (fun x x' => left x' ≤ left x) (t.recv size)
  send : ∀ bs, Exec.Within (fun x x' => left x' ≤ left x) (t.send bs)
  takes : ∀ {size x bs x'}, 0 < size → (t.recv size).run x = .ok bs x' → left x' < left x

/-- What an end has not handed out: the bytes in its receive buffer, and all that still arrives. -/
def Endpoint.left (e : Endpoint) : ℕ := e.buf.remaining + e.session.conn.incoming.length

/-- A call of `recv` for some bytes leaves fewer. -/
theorem Endpoint.left_advance {e : Endpoint} {size : ℕ} (hsize : 0 < size)
    (hbuf : e.buf.remaining ≠ 0) : Endpoint.left { e with buf := e.buf.advance size } < e.left := by
  have hcount : 0 < e.buf.count size := by
    rw [RecvBuffer.count]
    split <;> omega
  have hless : e.buf.remaining - e.buf.count size < e.buf.remaining := by omega
  exact Nat.add_lt_add_right hless _

theorem Endpoint.left_advance_le (e : Endpoint) (size : ℕ) :
    Endpoint.left { e with buf := e.buf.advance size } ≤ e.left :=
  Nat.add_le_add_right (Nat.sub_le _ _) _

/-- A packet takes more bytes on the connection than in the buffer. -/
theorem Endpoint.left_accept {P : Primitives} {o : Octets.ByteOrder} {e : Endpoint} {p : Packet}
    {rest : Bytes} (hin : e.session.conn.incoming = p.wire ++ rest) :
    (Crypto.accept P o e p rest).left < e.left := by
  have hbuf : (Crypto.accept P o e p rest).buf.remaining = p.payload.length :=
    Crypto.plaintextOf_length e.session.crypto p
  have hwire : p.payload.length < p.wire.length := by
    simp only [Packet.wire, List.length_append, Rocket.wire_length, SpaceCraft.wire_length,
      sizeofRocket]
    omega
  rw [Endpoint.left, Endpoint.left, hbuf, hin, List.length_append]
  show p.payload.length + rest.length < _
  omega

namespace Crypto

variable (P : Primitives) (o : Octets.ByteOrder)

/-- What was read and checked does not come back. -/
theorem receivePacket_drains : Exec.Within
    (fun s s' : Session => s'.conn.incoming.length ≤ s.conn.incoming.length) (receivePacket P o) := by
  have hpath : Exec.Path fun s s' : Session => s'.conn.incoming.length ≤ s.conn.incoming.length :=
    ⟨fun _ => le_refl _, fun _ _ _ h g => g.trans h⟩
  have hrecv : ∀ (n : ℤ) (x : Ex), Exec.Within
      (fun s s' : Session => s'.conn.incoming.length ≤ s.conn.incoming.length) (recvAll n x) := by
    intro n x
    refine .bind hpath (.zoom (S := fun c c' : Connection => c'.incoming.length ≤ c.incoming.length)
      (fun _ _ h => h) ?_) fun bs => .bind hpath (.require hpath _ _) fun _ => .pure hpath bs
    intro c
    rw [Connection.recv_run]
    split <;> exact (List.length_drop ▸ Nat.sub_le _ _)
  have hcheck : ∀ (bs : Bytes) (verify : Tag → UInt32 → Except Ex Unit), Exec.Within
      (fun s s' : Session => s'.conn.incoming.length ≤ s.conn.incoming.length)
      (checkHeader bs verify) := by
    intro bs verify
    refine .bind hpath (.get hpath) fun s => .bind hpath (.modify fun _ => le_refl _) fun _ => ?_
    exact .bind hpath (.ofExcept hpath _) fun _ => .modify fun _ => le_refl _
  refine .bind hpath (hrecv _ _) fun _ => .bind hpath (hcheck _ _) fun _ => ?_
  refine .bind hpath (hrecv _ _) fun _ => .bind hpath (hrecv _ _) fun _ => ?_
  exact .bind hpath (hcheck _ _) fun _ => .pure hpath _

end Crypto

theorem Transport.crypto_drains (P : Primitives) (o : Octets.ByteOrder) :
    (Transport.crypto P o).Drains Endpoint.left where
  recv size e := by
    have hends := Crypto.recv_cases P o size e
    show (Exec.endState ((Crypto.recv P o size).run e)).left ≤ e.left
    generalize (Crypto.recv P o size).run e = r at hends ⊢
    cases hends with
    | unread _ => exact e.left_advance_le size
    | rejected h hs =>
      have hless := (Crypto.receivePacket_drains P o).of_error hs
      exact Nat.add_le_add_left hless _
    | accepted h he hin hseq =>
      exact (Endpoint.left_advance_le _ size).trans (Endpoint.left_accept hin).le
    | wrapped h he hin hseq => exact (Endpoint.left_accept hin).le
  send bs := by
    refine .zoom (S := fun s s' : Session => s'.conn.incoming.length ≤ s.conn.incoming.length)
      (fun _ _ h => Nat.add_le_add_left h _) fun s => ?_
    obtain ⟨conn, hsame, hend⟩ := Crypto.send_cases P o bs s
    show (Exec.endState ((Crypto.send P o bs).run s)).conn.incoming.length ≤ _
    rw [hend]
    exact (congrArg List.length hsame).le
  takes := by
    intro size e bs e' hsize hrun
    have hends : Crypto.RecvEnds P o size e (.ok bs e') := hrun ▸ Crypto.recv_cases P o size e
    cases hends with
    | unread h => exact Endpoint.left_advance hsize h
    | accepted h he hin hseq =>
      exact (Endpoint.left_advance_le _ size).trans_lt (Endpoint.left_accept hin)

namespace ServerClient

variable {τ : Type} {t : Transport τ} {left : τ → ℕ}

/-! ### Sessions end -/

theorem moves_left (ht : t.Drains left) : Moves t (fun _ _ => True) fun x x' => left x' ≤ left x where
  system := ⟨fun _ => trivial, fun _ _ _ _ _ => trivial⟩
  layer := ⟨fun _ => le_refl _, fun _ _ _ h g => g.trans h⟩
  remove _ _ := trivial
  readDir _ _ := trivial
  openIn _ _ := trivial
  openOut _ _ := trivial
  limit _ _ := trivial
  uninitialised _ := trivial
  append _ _ _ := trivial
  recv := ht.recv
  send := ht.send

/-- A header has at least one byte. -/
theorem recvCmd_takes (ht : t.Drains left) {c c' : Client τ} (h : (recvCmd t).run c = .ok () c') :
    left c'.link < left c.link := by
  obtain ⟨_, c₁, hclear, h⟩ := Exec.bind_ok h
  cases hclear
  obtain ⟨header, c₂, hlink, h⟩ := Exec.bind_ok h
  obtain ⟨x, hheader, rfl⟩ := Exec.zoom_ok hlink
  cases h
  show left x < left c.link
  obtain ⟨buffer, y, hloop, hpure⟩ := Exec.bind_ok hheader
  cases hpure
  -- the first call of `recv`, and what follows
  obtain ⟨received, z, hrecv, hrest⟩ := Exec.bind_ok hloop
  have hfirst : left z < left c.link := ht.takes (by decide) hrecv
  have hafter : left x ≤ left z := by
    have hmoves := moves_left ht
    refine Exec.Within.of_ok (R := fun x x' => left x' ≤ left x) ?_ hrest
    have hmore : ∀ (b : Byte) (r : Byte × Byte), Exec.Within (fun x x' => left x' ≤ left x)
        (t.recvLoop (bufferSize - 2) r >>= fun rest => pure (b :: rest)) :=
      fun b r => .bind hmoves.layer (recvLoop_moves hmoves _ r) fun _ => .pure hmoves.layer _
    split
    · exact .ite (.pure hmoves.layer _) (hmore _ _)
    · exact hmore _ _
  omega

/-- **Every round that ends normally takes something.** -/
theorem iteration_takes (ht : t.Drains left) {c c' : Client τ} {more : Bool}
    (h : (iteration t).run c = .ok more c') : left c'.link < left c.link := by
  obtain ⟨_, c₁, hrecv, hrest⟩ := Exec.bind_ok h
  have hfirst := recvCmd_takes ht hrecv
  have hmoves := moves_left ht
  have hpath := hmoves.path
  have hafter : left c'.link ≤ left c₁.link := by
    refine (Exec.Within.of_ok (R := Along (fun _ _ => True) fun x x' => left x' ≤ left x) ?_ hrest).2
    refine .bind hpath (.get hpath) fun c => .bind hpath (hmoves.extractWord _) fun cmd => ?_
    refine .bind hpath (hmoves.modify fun _ => ⟨rfl, rfl⟩) fun _ => .bind hpath (.get hpath) fun c => ?_
    exact .ite (dispatch_moves hmoves cmd) (.pure hpath true)
  omega

/-- A loop that still runs has taken something. -/
theorem Loop.step_takes (ht : t.Drains left) (l : Loop τ) (e : Unit)
    (h : (Loop.step t l e).1.running = true) :
    l.running = true ∧ left (Loop.step t l e).1.client.link < left l.client.link := by
  by_cases hrunning : l.running = true
  · refine ⟨hrunning, ?_⟩
    rw [Loop.step, if_pos hrunning] at h ⊢
    cases hrun : (iteration t).run l.client with
    | ok more c => exact iteration_takes ht hrun
    | error x c =>
      rw [hrun] at h
      cases h
  · rw [Loop.step, if_neg hrunning] at h
    exact absurd h hrunning

/-- **Every session ends.**  Whatever arrives and whatever the system does, the loop has stopped, with
`QUIT` or with an exception (if no listing before that has overrun the array of `Crypto::send`), before
there were more rounds than bytes; no round after that does anything.  Every round that ends normally
takes at least one byte. -/
theorem session_ends (P : Primitives) (o : Octets.ByteOrder) (c : Client Endpoint) (n : ℕ) :
    (Loop.after (.crypto P o) (c.link.left + 1 + n) ⟨true, c⟩).running = false ∧
      Loop.after (.crypto P o) (c.link.left + 1 + n) ⟨true, c⟩
        = Loop.after (.crypto P o) (c.link.left + 1) ⟨true, c⟩ ∧
      ∀ (d d' : Client Endpoint) (more : Bool),
        (iteration (.crypto P o)).run d = .ok more d' → d'.link.left < d.link.left := by
  have hstops : ∀ m, (Loop.after (.crypto P o) (c.link.left + 1 + m) ⟨true, c⟩).running = false := by
    intro m
    rw [← Bool.not_eq_true]
    refine Machine.stops (μ := fun l : Loop Endpoint => l.client.link.left)
      (G := fun l => l.running = true) (Loop.step_takes (Transport.crypto_drains P o)) ?_
    rw [List.length_replicate]
    show c.link.left < c.link.left + 1 + m
    omega
  refine ⟨hstops n, ?_, fun _ _ _ hround => iteration_takes (Transport.crypto_drains P o) hround⟩
  have hfirst := hstops 0
  rw [Nat.add_zero] at hfirst
  have hsplit : Loop.after (.crypto P o) (c.link.left + 1 + n) ⟨true, c⟩
      = Loop.after (.crypto P o) n (Loop.after (.crypto P o) (c.link.left + 1) ⟨true, c⟩) := by
    rw [Loop.after, List.replicate_add, Machine.run_append]
    rfl
  rw [hsplit]
  generalize Loop.after (.crypto P o) (c.link.left + 1) ⟨true, c⟩ = l at hfirst
  obtain ⟨running, c'⟩ := l
  cases hfirst
  exact Loop.after_stopped _ n c'

end ServerClient

end Cybrg
