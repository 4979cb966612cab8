import Cybrg.Common.SecureLayer
import Cybrg.Library.Machine
import Cybrg.Library.TwoRuns

/-!
# The arrays of `Crypto::recv`

`Crypto::recv` counts in `int`s, and the size of a packet goes through a `uint32_t` into an `int`
and from there into the calls that fill two arrays of `BUFFER_SIZE` bytes.  Here the function runs
with its own counters and with a record of every access to an array.

* `Receiver.recv` — the function with its counters and the record;
* `Receiver.recv_follows` — it does what `Crypto.recv` does, which counts in natural numbers;
* `Receiver.receive_buffer_safe` — no access leaves its array, `memcpy` reads only bytes of the
  payload that was authenticated last, and a call that returns has at least one byte, whatever the
  peer sends and however the bytes are asked for.
-/

namespace Cybrg

open Octets

/-! ### Data -/

/-- The `static` locals of `Crypto::recv` as they are declared. -/
structure Statics where
  remaining : ℤ := 0
  index : ℤ := 0
  payload : Bytes := List.replicate bufferSize 0

/-- `(remaining < size) ? remaining : size`. -/
def Statics.count (s : Statics) (size : ℤ) : ℤ := if s.remaining < size then s.remaining else size

/-- An access to one of the arrays. -/
inductive Access where
  /-- `::recv` writes `n` bytes to the beginning of `encrypted_payload`. -/
  | encryptedPayload (n : ℤ)
  /-- `EVP_DecryptUpdate` writes `n` bytes to the beginning of `payload`. -/
  | payload (n : ℤ)
  /-- `memcpy` reads the `r` bytes `bs` of `payload` from `index` on; `last` is the plaintext of the
  packet that was authenticated last. -/
  | copy (index r : ℤ) (bs last : Bytes)

/-- The access stays in its array; `memcpy` moreover in what the last packet has filled. -/
def Access.Safe : Access → Prop
  | encryptedPayload n => 0 ≤ n ∧ n ≤ bufferSize
  | payload n => 0 ≤ n ∧ n ≤ bufferSize
  | copy index r bs last =>
      0 ≤ index ∧ 0 ≤ r ∧ index + r ≤ last.length ∧ last.length ≤ bufferSize ∧
        bs = (last.drop index.toNat).take r.toNat

/-- The plaintext of the packet that was authenticated last. -/
def Session.lastPlaintext (s : Session) : Bytes :=
  (s.hist.accepted.getLast?.map Accepted.plaintext).getD []

/-- A session, the locals of its process, and all accesses so far. -/
structure Receiver where
  session : Session
  statics : Statics := {}
  accesses : List Access := []

namespace Receiver

/-! ### The program -/

/-- Make an access. -/
def note (a : Access) : EStateM Ex Receiver Unit :=
  modify fun x => { x with accesses := x.accesses ++ [a] }

/-- Run a program of the session. -/
def onSession {α : Type} (m : EStateM Ex Session α) : EStateM Ex Receiver α :=
  Exec.zoom (·.session) (fun s x => { x with session := s }) m

variable (P : Primitives) (o : ByteOrder)

/-- The refill branch up to the verification of the `SpaceCraft`. -/
def receivePacket : EStateM Ex Receiver Packet := do
  let rocketImage ← onSession
    (Crypto.recvAll sizeofRocket (.exRecv "can not Crypto::recv() rocket"))
  let rocket := (Rocket.ofImage o rocketImage).ntohl o
  onSession (Crypto.checkHeader (rocket.macInput o) (rocket.verify P o))
  let spacecraftImage ← onSession
    (Crypto.recvAll sizeofSpaceCraft (.exRecv "can not Crypto::recv() spacecraft"))
  note (.encryptedPayload rocket.getPayloadSize)
  let encryptedPayload ← onSession
    (Crypto.recvAll rocket.getPayloadSize (.exRecv "can not Crypto::recv() encrypted_payload"))
  let spacecraft := (SpaceCraft.ofImage o spacecraftImage).ntohl o
  onSession (Crypto.checkHeader (spacecraft.macInput o encryptedPayload)
    fun authKey n => spacecraft.verify P o authKey n encryptedPayload)
  return ⟨rocket, spacecraft, encryptedPayload⟩

/-- The rest of the refill branch. -/
def feed : EStateM Ex Receiver Unit := do
  let p ← receivePacket P o
  note (.payload p.rocket.getPayloadSize)
  let plaintext ← onSession (Crypto.decryptPacket P p)
  modify fun x => { x with statics := {
    remaining := p.rocket.getPayloadSize
    index := 0
    payload := plaintext ++ x.statics.payload.drop plaintext.length } }
  let x ← get
  Exec.require (x.session.crypto.sequenceNumberI ≠ 0)
    (.exSeqNumOverflow "Crypto::recv(): sequence number overflow")

/-- The end of the function: the count that is returned, and what `memcpy` has written. -/
def takeOut (size : ℤ) : EStateM Ex Receiver (ℤ × Bytes) := do
  let x ← get
  let r := x.statics.count size
  let bs := (x.statics.payload.drop x.statics.index.toNat).take r.toNat
  note (.copy x.statics.index r bs x.session.lastPlaintext)
  modify fun x => { x with statics := { x.statics with
    index := x.statics.index + r, remaining := x.statics.remaining - r } }
  return (r, bs)

/-- `Crypto::recv`. -/
def recv (size : ℤ) : EStateM Ex Receiver (ℤ × Bytes) := do
  let x ← get
  if x.statics.remaining = 0 then feed P o else pure ()
  takeOut size

/-! ### Runs -/

inductive Event where
  | recv (size : ℤ)
  /-- Some bytes arrive, whoever sent them. -/
  | arrive (bs : Bytes)

/-- A call that came back. -/
structure Call where
  size : ℤ
  result : Except Ex (ℤ × Bytes)

/-- One event; calls go on after an exception. -/
def step (x : Receiver) : Event → Receiver × List Call
  | .recv size =>
      let r := (recv P o size).run x
      (Exec.endState r, [⟨size, Exec.outcome r⟩])
  | .arrive bs =>
      ({ x with session := { x.session with
        conn := { x.session.conn with incoming := x.session.conn.incoming ++ bs } } }, [])

/-- A fresh session in a fresh process. -/
def new (k : SessionKeys) (conn : Connection) : Receiver where
  session := Session.new k conn

/-- The sizes that are asked for are not zero and not negative. -/
def Event.Valid : Event → Prop
  | .recv size => 1 ≤ size
  | .arrive _ => True

/-- A call that returned has between one byte and as many as it was asked for. -/
def Call.Good (c : Call) : Prop :=
  ∀ r bs, c.result = .ok (r, bs) → 1 ≤ r ∧ r ≤ c.size ∧ bs.length = r

/-- `index >= 0`, `remaining >= 0`, `index + remaining <= BUFFER_SIZE`. -/
structure InBounds (s : Statics) : Prop where
  index : 0 ≤ s.index
  remaining : 0 ≤ s.remaining
  sum : s.index + s.remaining ≤ bufferSize
  payload : s.payload.length = bufferSize

/-! ### The same with natural numbers -/

variable {P o}

/-- The locals of a receive buffer. -/
def staticsOf (b : RecvBuffer) : Statics where
  remaining := b.remaining
  index := b.index
  payload := b.payload

/-- The receiver is where the session and the buffer are, and has made safe accesses only. -/
structure Follows (b : RecvBuffer) (x : Receiver) (s : Session) : Prop where
  session : x.session = s
  statics : x.statics = staticsOf b
  safe : ∀ a ∈ x.accesses, a.Safe

theorem Follows.note {b : RecvBuffer} {x : Receiver} {s : Session} (h : Follows b x s) {a : Access}
    (ha : a.Safe) : Follows b { x with accesses := x.accesses ++ [a] } s := by
  refine ⟨h.session, h.statics, fun c hc => ?_⟩
  rcases List.mem_append.mp hc with hc | hc
  · exact h.safe c hc
  · rw [List.mem_singleton.mp hc]
    exact ha

theorem onSession_agree {α : Type} {b : RecvBuffer} {x : Receiver} {s : Session}
    (h : Follows b x s) (m : EStateM Ex Session α) :
    Exec.Agree (Follows b) ((onSession m).run x) (m.run s) := by
  rw [onSession, Exec.run_zoom, h.session]
  cases m.run s with
  | ok a t => exact .ok ⟨rfl, h.statics, h.safe⟩
  | error e t => exact .error ⟨rfl, h.statics, h.safe⟩

/-- Bounds of the size in a header that passed. -/
theorem payloadSize_bounds {authKey : Tag} {r : Rocket} {n : UInt32}
    (h : r.verify P o authKey n = .ok ()) :
    0 ≤ r.getPayloadSize ∧ r.getPayloadSize ≤ bufferSize := by
  have hle := (Rocket.verify_ok_iff.mp h).2.1
  rw [Rocket.getPayloadSize_of_le hle]
  omega

/-- Reading a packet makes one access to an array, when the size has been checked. -/
theorem receivePacket_agree {b : RecvBuffer} {x : Receiver} {s : Session} (h : Follows b x s) :
    Exec.Agree (Follows b) ((receivePacket P o).run x) ((Crypto.receivePacket P o).run s) := by
  unfold receivePacket Crypto.receivePacket
  refine (onSession_agree h _).bind fun ri x₁ s₁ _ h₁ => ?_
  refine (onSession_agree h₁ _).bind fun _ x₂ s₂ hv h₂ => ?_
  obtain ⟨hver, -⟩ := Crypto.checkHeader_ok hv
  refine (onSession_agree h₂ _).bind fun si x₃ s₃ _ h₃ => ?_
  have hnote := h₃.note (a := .encryptedPayload ((Rocket.ofImage o ri).ntohl o).getPayloadSize)
    (payloadSize_bounds hver)
  rw [Exec.bind_of_ok (show (note _).run x₃ = .ok ⟨⟩ _ from rfl)]
  refine (onSession_agree hnote _).bind fun enc x₄ s₄ _ h₄ => ?_
  refine (onSession_agree h₄ _).bind fun _ x₅ s₅ _ h₅ => ?_
  exact .ok h₅

/-! ### The buffer between calls -/

/-- What is unread lies at the end of the plaintext of the last packet, and that plaintext at the
beginning of the array. -/
structure Holds (e : Endpoint) : Prop where
  wf : e.buf.WF
  ends : e.buf.remaining ≠ 0 → e.buf.index + e.buf.remaining = e.session.lastPlaintext.length
  begins : e.buf.remaining ≠ 0 → ∃ rest, e.buf.payload = e.session.lastPlaintext ++ rest

theorem Holds.new (k : SessionKeys) (conn : Connection) : Holds (Endpoint.new k conn) :=
  ⟨.initial, fun h => absurd rfl h, fun h => absurd rfl h⟩

/-- Handing bytes out keeps it. -/
theorem Holds.advance {e : Endpoint} (h : Holds e) (hb : e.buf.remaining ≠ 0) (n : ℕ) :
    Holds { e with buf := e.buf.advance n } := by
  have hcount : e.buf.count n ≤ e.buf.remaining := by
    rw [RecvBuffer.count]
    split <;> omega
  refine ⟨h.wf.advance n, fun _ => ?_, fun _ => h.begins hb⟩
  have hends := h.ends hb
  show e.buf.index + e.buf.count n + (e.buf.remaining - e.buf.count n)
    = e.session.lastPlaintext.length
  omega

/-- A packet that is accepted fills it. -/
theorem Holds.accept {e : Endpoint} (h : Holds e) {p : Packet} (rest : Bytes)
    (hne : p.payload ≠ []) (hle : p.payload.length ≤ bufferSize) :
    Holds (Crypto.accept P o e p rest) ∧ (Crypto.accept P o e p rest).buf.remaining ≠ 0 := by
  have hlast : (Crypto.accept P o e p rest).session.lastPlaintext
      = Crypto.plaintextOf P e.session.crypto p := by
    simp [Session.lastPlaintext, Crypto.accept]
  refine ⟨⟨h.wf.fill (by rw [Crypto.plaintextOf_length]; exact hle), fun _ => ?_, fun _ => ?_⟩,
    Crypto.accept_remaining rest hne⟩
  · rw [hlast]
    exact Nat.zero_add _
  · rw [hlast]
    exact ⟨_, rfl⟩

/-- The refill branch keeps it, and if it returns there is something to hand out. -/
theorem Holds.feed {e : Endpoint} (h : Holds e) :
    Exec.Triple (fun e' => e' = e) (Crypto.feed P o) (fun _ e' => Holds e' ∧ e'.buf.remaining ≠ 0)
      Holds := by
  rintro _ rfl
  rename_i e
  cases hs : (Crypto.receivePacket P o).run e.session with
  | error x s =>
    have hheld := Crypto.receivePacket_held.of_error hs
    simp only [Crypto.held, Prod.mk.injEq] at hheld
    obtain ⟨-, -, -, -, -, hacc, -, -⟩ := hheld
    have hlast : s.lastPlaintext = e.session.lastPlaintext := by
      rw [Session.lastPlaintext, hacc, Session.lastPlaintext]
    rw [Crypto.feed_of_error hs]
    exact ⟨h.wf, fun hb => (h.ends hb).trans (by rw [hlast]), fun hb => hlast ▸ h.begins hb⟩
  | ok p s =>
    obtain ⟨he, rest, -, rfl⟩ := Crypto.receivePacket_ok hs
    have hacc := h.accept (P := P) (o := o) rest he.nonempty he.bounded
    rw [Crypto.feed_of_ok hs]
    by_cases hseq : e.session.crypto.sequenceNumberI + 1 + 1 = 0
    · rw [if_neg (by simpa using hseq)]
      exact hacc.1
    · rw [if_pos hseq]
      exact hacc

/-! ### The same with natural numbers -/

/-- The receiver is where the endpoint is. -/
def At (x : Receiver) (e : Endpoint) : Prop := Follows e.buf x e.session

theorem at_onSession {α : Type} {m : EStateM Ex Receiver α} {m' : EStateM Ex Session α}
    {x : Receiver} {e : Endpoint}
    (h : Exec.Agree (Follows e.buf) (m.run x) (m'.run e.session)) :
    Exec.Agree At (m.run x) ((Crypto.onSession m').run e) := by
  rw [Crypto.onSession, Exec.run_zoom]
  cases hm : m.run x <;> cases hm' : m'.run e.session <;> rw [hm, hm'] at h <;> cases h
  · exact .ok (by assumption)
  · exact .error (by assumption)

/-- The refill branch. -/
theorem feed_agree {x : Receiver} {e : Endpoint} (h : At x e) :
    Exec.Agree At ((feed P o).run x) ((Crypto.feed P o).run e) := by
  unfold feed Crypto.feed
  refine (at_onSession (receivePacket_agree h)).bind fun p x₁ e₁ hp h₁ => ?_
  obtain ⟨s, hs, rfl⟩ := Exec.zoom_ok hp
  obtain ⟨he, rest, -, rfl⟩ := Crypto.receivePacket_ok hs
  have hle : p.rocket.payloadSize.toNat ≤ bufferSize := by
    rw [he.size]
    exact he.bounded
  have hsize : p.rocket.getPayloadSize = p.payload.length := by
    rw [Rocket.getPayloadSize_of_le hle, he.size]
  have hbound := he.bounded
  have hsafe : Access.Safe (.payload p.rocket.getPayloadSize) := by
    constructor <;> rw [hsize] <;> omega
  rw [Exec.bind_of_ok (show (note _).run x₁ = .ok ⟨⟩ _ from rfl)]
  refine (at_onSession (onSession_agree (h₁.note hsafe) _)).bind fun plaintext x₂ e₂ hd h₂ => ?_
  have hlen : plaintext.length = p.payload.length := by
    obtain ⟨_, hs, -⟩ := Exec.zoom_ok hd
    cases hs
    exact Crypto.plaintextOf_length _ p
  have h₃ : At { x₂ with statics := {
      remaining := p.rocket.getPayloadSize
      index := 0
      payload := plaintext ++ x₂.statics.payload.drop plaintext.length } }
      { e₂ with buf := e₂.buf.fill plaintext } := by
    refine ⟨h₂.session, ?_, h₂.safe⟩
    rw [hsize, ← hlen, h₂.statics]
    rfl
  refine Exec.Agree.bind (.ok h₃) fun _ x₄ e₄ _ h₄ => ?_
  have hseq : x₄.session = e₄.session := h₄.session
  simp only [EStateM.run_bind, EStateM.run_get, Exec.run_require, hseq]
  split
  · exact .ok h₄
  · exact .error h₄

/-- The end of the function hands out unread bytes of the last packet, at least one. -/
theorem takeOut_follows {x : Receiver} {e : Endpoint} (h : At x e) (he : Holds e)
    (hb : e.buf.remaining ≠ 0) {size : ℤ} (hsize : 1 ≤ size) :
    ∃ x' bs, (takeOut size).run x = .ok ((bs.length : ℤ), bs) x' ∧
      (Crypto.takeOut size.toNat).run e = .ok bs { e with buf := e.buf.advance size.toNat } ∧
      1 ≤ bs.length ∧ (bs.length : ℤ) ≤ size ∧
      At x' { e with buf := e.buf.advance size.toNat } := by
  have hends := he.ends hb
  obtain ⟨rest, hbegins⟩ := he.begins hb
  have hw := he.wf.1
  have hpay := he.wf.2
  have hcount : (staticsOf e.buf).count size = e.buf.count size.toNat := by
    have hremaining : (staticsOf e.buf).remaining = e.buf.remaining := rfl
    rw [Statics.count, hremaining, RecvBuffer.count]
    split <;> split <;> omega
  have hle : e.buf.count size.toNat ≤ e.buf.remaining ∧ 1 ≤ e.buf.count size.toNat ∧
      (e.buf.count size.toNat : ℤ) ≤ size := by
    rw [RecvBuffer.count]
    split <;> omega
  have hlen : (e.buf.copyOut size.toNat).length = e.buf.count size.toNat := by
    rw [RecvBuffer.copyOut, List.length_take, List.length_drop]
    omega
  have hcopy : e.buf.copyOut size.toNat
      = (e.session.lastPlaintext.drop e.buf.index).take (e.buf.count size.toNat) := by
    rw [RecvBuffer.copyOut, hbegins, List.drop_append_of_le_length (by omega),
      List.take_append_of_le_length (by rw [List.length_drop]; omega)]
  have hsafe : Access.Safe (.copy e.buf.index (e.buf.count size.toNat) (e.buf.copyOut size.toNat)
      e.session.lastPlaintext) := by
    refine ⟨by omega, by omega, by omega, by omega, ?_⟩
    rw [Int.toNat_natCast, Int.toNat_natCast, hcopy]
  have hstatics : Statics.mk (e.buf.remaining - e.buf.count size.toNat)
      (e.buf.index + e.buf.count size.toNat) e.buf.payload
      = staticsOf (e.buf.advance size.toNat) := by
    simp only [staticsOf, RecvBuffer.advance, Nat.cast_add, Nat.cast_sub hle.1]
  obtain ⟨session, statics, accesses⟩ := x
  obtain ⟨rfl, rfl, hold⟩ := h
  have hat : At ⟨e.session, staticsOf e.buf, accesses⟩ e := ⟨rfl, rfl, hold⟩
  refine ⟨⟨e.session, staticsOf (e.buf.advance size.toNat), accesses ++ [.copy e.buf.index
    (e.buf.count size.toNat) (e.buf.copyOut size.toNat) e.session.lastPlaintext]⟩,
    e.buf.copyOut size.toNat, ?_, rfl, by omega, by omega, rfl, rfl, (hat.note hsafe).safe⟩
  have hrun : (takeOut size).run ⟨e.session, staticsOf e.buf, accesses⟩
      = .ok ((staticsOf e.buf).count size,
          (e.buf.payload.drop (e.buf.index : ℤ).toNat).take ((staticsOf e.buf).count size).toNat)
        ⟨e.session, ⟨e.buf.remaining - (staticsOf e.buf).count size,
          e.buf.index + (staticsOf e.buf).count size, e.buf.payload⟩,
          accesses ++ [.copy e.buf.index ((staticsOf e.buf).count size)
            ((e.buf.payload.drop (e.buf.index : ℤ).toNat).take
              ((staticsOf e.buf).count size).toNat) e.session.lastPlaintext]⟩ := rfl
  rw [hrun, hcount, Int.toNat_natCast, Int.toNat_natCast, hstatics, hlen]
  rfl

/-- **The function does what it does with natural numbers**, and with safe accesses only. -/
theorem recv_follows {x : Receiver} {e : Endpoint} (h : At x e) (he : Holds e) {size : ℤ}
    (hsize : 1 ≤ size) :
    (∃ x' bs e', (recv P o size).run x = .ok ((bs.length : ℤ), bs) x' ∧
        (Crypto.recv P o size.toNat).run e = .ok bs e' ∧
        1 ≤ bs.length ∧ (bs.length : ℤ) ≤ size ∧ At x' e' ∧ Holds e') ∨
      ∃ x' ex e', (recv P o size).run x = .error ex x' ∧
        (Crypto.recv P o size.toNat).run e = .error ex e' ∧ At x' e' ∧ Holds e' := by
  have hremaining : x.statics.remaining = e.buf.remaining := congrArg Statics.remaining h.statics
  by_cases hb : e.buf.remaining = 0
  · have hx : (recv P o size).run x = (feed P o >>= fun _ => takeOut size).run x := by
      simp only [recv, EStateM.run_bind, EStateM.run_get, if_pos (show x.statics.remaining = 0 by
        rw [hremaining, hb]; rfl)]
    have hagree := feed_agree (P := P) (o := o) h
    have hholds := he.feed (P := P) (o := o)
    rw [hx, Crypto.recv_empty _ hb]
    cases hf : (Crypto.feed P o).run e with
    | error ex e₁ =>
      right
      have h₁ := hholds.of_error rfl hf
      rw [hf] at hagree
      cases hfx : (feed P o).run x with
      | ok u x₁ =>
        rw [hfx] at hagree
        cases hagree
      | error ex' x₁ =>
        rw [hfx] at hagree
        cases hagree with
        | error hat =>
          exact ⟨x₁, ex, e₁, Exec.bind_of_error hfx, Exec.bind_of_error hf, hat, h₁⟩
    | ok u e₁ =>
      left
      obtain ⟨h₁, hb₁⟩ := hholds.of_ok rfl hf
      rw [hf] at hagree
      cases hfx : (feed P o).run x with
      | error ex' x₁ =>
        rw [hfx] at hagree
        cases hagree
      | ok u' x₁ =>
        rw [hfx] at hagree
        cases hagree with
        | ok hat =>
          obtain ⟨x', bs, hrun, hrun', hpos, hle, hat'⟩ := takeOut_follows hat h₁ hb₁ hsize
          exact ⟨x', bs, _, (Exec.bind_of_ok hfx).trans hrun, (Exec.bind_of_ok hf).trans hrun',
            hpos, hle, hat', h₁.advance hb₁ _⟩
  · left
    have hx : (recv P o size).run x = (takeOut size).run x := by
      simp only [recv, EStateM.run_bind, EStateM.run_get, if_neg (show x.statics.remaining ≠ 0 by
        rw [hremaining]; exact_mod_cast hb)]
    have he' : (Crypto.recv P o size.toNat).run e = (Crypto.takeOut size.toNat).run e := by
      simp only [Crypto.recv, EStateM.run_bind, EStateM.run_get, if_neg hb]
    obtain ⟨x', bs, hrun, hrun', hpos, hle, hat'⟩ := takeOut_follows h he hb hsize
    exact ⟨x', bs, _, hx.trans hrun, he'.trans hrun', hpos, hle, hat', he.advance hb _⟩

/-! ### Runs -/

/-- What holds after every run: some endpoint is followed whose buffer is in order. -/
def Sound (x : Receiver) (calls : List Call) : Prop :=
  (∃ e, At x e ∧ Holds e) ∧ ∀ c ∈ calls, c.Good

theorem Sound.new (k : SessionKeys) (conn : Connection) : Sound (new k conn) [] := by
  refine ⟨⟨Endpoint.new k conn, ⟨rfl, rfl, ?_⟩, .new k conn⟩, ?_⟩
  · intro a ha
    cases ha
  · intro c hc
    cases hc

/-- **Every event keeps it.** -/
theorem Sound.step {x : Receiver} {calls : List Call} (h : Sound x calls) {ev : Event}
    (hev : ev.Valid) :
    Sound (Receiver.step P o x ev).1 (calls ++ (Receiver.step P o x ev).2) := by
  obtain ⟨⟨e, hat, he⟩, hgood⟩ := h
  cases ev with
  | arrive bs =>
    refine ⟨⟨e.deliver bs, ⟨?_, hat.statics, hat.safe⟩, he.wf, he.ends, he.begins⟩, ?_⟩
    · simp only [Receiver.step, Endpoint.deliver, show x.session = e.session from hat.session]
    · simpa [Receiver.step] using hgood
  | recv size =>
    have hnew : ∀ c, c.Good → ∀ d ∈ calls ++ [c], d.Good := by
      intro c hc d hd
      rcases List.mem_append.mp hd with hd | hd
      · exact hgood d hd
      · rw [List.mem_singleton.mp hd]
        exact hc
    rcases recv_follows (P := P) (o := o) hat he hev with
      ⟨x', bs, e', hrun, -, hpos, hle, hat', he'⟩ | ⟨x', ex, e', hrun, -, hat', he'⟩
    · simp only [Receiver.step, hrun, Exec.endState_ok, Exec.outcome_ok]
      refine ⟨⟨e', hat', he'⟩, hnew _ ?_⟩
      intro r bs' hr
      cases hr
      exact ⟨by exact_mod_cast hpos, hle, rfl⟩
    · simp only [Receiver.step, hrun, Exec.endState_error, Exec.outcome_error]
      refine ⟨⟨e', hat', he'⟩, hnew _ ?_⟩
      intro r bs hr
      cases hr

theorem inBounds_of_at {x : Receiver} {e : Endpoint} (h : At x e) (he : Holds e) :
    InBounds x.statics := by
  have hw := he.wf.1
  rw [h.statics]
  refine ⟨Int.natCast_nonneg _, Int.natCast_nonneg _, ?_, he.wf.2⟩
  show (e.buf.index : ℤ) + e.buf.remaining ≤ bufferSize
  exact_mod_cast hw

end Receiver

/-- **The receive buffer is safe against any peer.**  After every run of a session, whatever has
arrived and whoever has sent it: no access has left its array, `memcpy` has read only bytes of the
plaintext authenticated last, the counters are in their bounds, and every call that returned had
between one byte and as many as it was asked for. -/
theorem receive_buffer_safe (P : Primitives) (o : ByteOrder) (k : SessionKeys) (conn : Connection)
    (es : List Receiver.Event) (hes : ∀ ev ∈ es, ev.Valid) :
    let r := Machine.run (Receiver.step P o) (Receiver.new k conn) es
    Receiver.InBounds r.1.statics ∧ (∀ a ∈ r.1.accesses, a.Safe) ∧ ∀ c ∈ r.2, c.Good := by
  have hsound : Receiver.Sound _ _ := Machine.invariant_trace (J := Receiver.Sound)
    (C := fun _ ev => Receiver.Event.Valid ev) (fun x calls ev h hev => h.step (P := P) (o := o) hev)
    (Receiver.Sound.new k conn) (Machine.meets_of_forall hes)
  obtain ⟨⟨e, hat, he⟩, hgood⟩ := hsound
  exact ⟨Receiver.inBounds_of_at hat he, hat.safe, hgood⟩

/-- A packet of two bytes arrives and is asked for in two calls. -/
def twoCalls : List Receiver.Event :=
  [.arrive (Exec.endState ((Crypto.send .sample .little [7, 8]).run
    (Session.new (.sample 1)))).conn.outgoing, .recv 1, .recv 5]

theorem receive_buffer_safe_two :
    let r := Machine.run (Receiver.step .sample .little) (Receiver.new (.sample 1) {}) twoCalls
    Receiver.InBounds r.1.statics ∧ (∀ a ∈ r.1.accesses, a.Safe) ∧ ∀ c ∈ r.2, c.Good := by
  have hvalid : ∀ ev ∈ twoCalls, ev.Valid := by
    intro ev hev
    simp only [twoCalls, List.mem_cons, List.not_mem_nil, or_false] at hev
    rcases hev with rfl | rfl | rfl
    · trivial
    · exact le_rfl
    · exact show (1 : ℤ) ≤ 5 by decide
  exact receive_buffer_safe .sample .little (.sample 1) {} twoCalls hvalid

end Cybrg
