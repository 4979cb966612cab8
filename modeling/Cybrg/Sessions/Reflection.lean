import Cybrg.Library.Machine
import Cybrg.Sessions.Numbering
import Mathlib.Logic.Function.Basic

/-!
# Packets sent back to their sender

Both `Crypto` objects of a session have the same keys, and both count from zero in both
directions; nothing in a header says who sent it.  This file lets an attacker store the packets
of both ends and deliver any of them to any end at any time:

* `Exchange.step` — an end sends, an end receives, or a stored packet is delivered again;
* `NotAhead` — at a `recv` that reads a packet, the end has sent no more packets than it has
  received;
* `no_reflection` — under `NotAhead` an end accepts only packets of the other end, and none that it
  has sent itself;
* `reflected` — where the condition fails, the attacker can hand an end its own packet;
* `own_packet_accepted` — a run in which this happens.

The invariant `Exchange.Inv` numbers the packets of both ends; a packet that an end accepts
carries the number of its receiving counter, which its own packets have not reached.
-/

namespace Cybrg

open Octets

/-! ### The exchange -/

/-- One end of a session; its program gives up at the first exception. -/
structure Station where
  endpoint : Endpoint
  closed : Bool := false

/-- A plaintext whose size is an `int`. -/
abbrev Plaintext := { bs : Bytes // bs.length < 2 ^ 31 }

/-- Both ends of a session, and between them whoever delivers the packets. -/
structure Exchange where
  ends : Side → Station

namespace Exchange

inductive Event where
  | send (side : Side) (plaintext : Plaintext)
  /-- The packet with index `i` of `author` is delivered to `side`, perhaps not for the first
  time. -/
  | deliver (side author : Side) (i : ℕ)
  | recv (side : Side) (size : ℕ)

def sess (x : Exchange) (side : Side) : Session := (x.ends side).endpoint.session

/-- The packets that an end has built. -/
def sent (x : Exchange) (side : Side) : List Packet := (x.sess side).hist.sent

/-- The packets that an end has accepted. -/
def accepted (x : Exchange) (side : Side) : List Accepted := (x.sess side).hist.accepted

def set (x : Exchange) (side : Side) (t : Station) : Exchange :=
  { x with ends := Function.update x.ends side t }

@[simp] theorem set_ends_self (x : Exchange) (side : Side) (t : Station) :
    (x.set side t).ends side = t := by
  simp [set]

theorem set_ends_ne (x : Exchange) {side i : Side} (t : Station) (h : i ≠ side) :
    (x.set side t).ends i = x.ends i := by
  simp [set, h]

/-- One event.  A closed end does nothing any more. -/
def step (P : Primitives) (o : Side → ByteOrder) (x : Exchange) :
    Event → Exchange × List (Side × Except Ex Bytes)
  | .send side plaintext =>
      let t := x.ends side
      if t.closed then (x, []) else
        let r := (Crypto.send P (o side) plaintext.1).run t.endpoint.session
        (x.set side ⟨{ t.endpoint with session := Exec.endState r }, Exec.threw r⟩, [])
  | .deliver side author i =>
      let t := x.ends side
      match (x.sent author)[i]? with
      | some p => (x.set side { t with endpoint := t.endpoint.deliver p.wire }, [])
      | none => (x, [])
  | .recv side size =>
      let t := x.ends side
      if t.closed then (x, []) else
        let r := (Crypto.recv P (o side) size).run t.endpoint
        (x.set side ⟨Exec.endState r, Exec.threw r⟩, [(side, Exec.outcome r)])

/-- A fresh session: both objects are built from the same keys.  `sendRets` is what the socket
calls of each end will return. -/
def new (k : SessionKeys) (sendRets : Side → List ℤ) : Exchange where
  ends side := { endpoint := Endpoint.new k { sendRets := sendRets side } }

abbrev run (P : Primitives) (o : Side → ByteOrder) (x : Exchange) (es : List Event) : Exchange :=
  (Machine.run (step P o) x es).1

/-- A `recv` that reads a packet only where the end has sent no more packets than it has
received. -/
def NotAhead (x : Exchange) : Event → Prop
  | .recv side _ =>
      (x.ends side).endpoint.buf.remaining = 0 →
        (x.sess side).crypto.sequenceNumberO.toNat ≤ (x.sess side).crypto.sequenceNumberI.toNat
  | _ => True

instance (x : Exchange) (e : Event) : Decidable (x.NotAhead e) := by
  unfold NotAhead
  split <;> infer_instance

/-- What the event makes an end accept was built by the other end, and not by the same one. -/
def Genuine (P : Primitives) (o : Side → ByteOrder) (x : Exchange) (e : Event) : Prop :=
  ∀ side, ∀ a ∈ ((step P o x e).1.accepted side).drop (x.accepted side).length,
    a.packet ∈ x.sent side.other ∧ a.packet ∉ x.sent side

/-! ### The invariant -/

variable {P : Primitives} {o : Side → ByteOrder} {authKey : Tag}

/-- A stream of stored packets. -/
def Stored (x : Exchange) (bs : Bytes) : Prop :=
  ∃ ps : List Packet, bs = ps.flatMap Packet.wire ∧ ∀ p ∈ ps, ∃ author, p ∈ x.sent author

/-- What holds of an end in every state: its packets are numbered, and while it is open no
counter has wrapped and what is still to be read is a stream of stored packets. -/
structure Sound (P : Primitives) (o : Side → ByteOrder) (authKey : Tag) (x : Exchange)
    (side : Side) : Prop where
  numbered : Crypto.Numbered P (o side) authKey (x.sess side)
  short : ∀ p ∈ x.sent side, p.payload.length < 2 ^ 31
  count : (x.sent side).length ≤ 2 ^ 31
  countOpen : (x.ends side).closed = false → (x.sent side).length < 2 ^ 31
  acceptedOpen : (x.ends side).closed = false → (x.accepted side).length < 2 ^ 31
  next : (x.ends side).closed = false →
    (x.sess side).crypto.sequenceNumberI = counter (x.accepted side).length
  stored : (x.ends side).closed = false → x.Stored (x.sess side).conn.incoming

def Inv (P : Primitives) (o : Side → ByteOrder) (authKey : Tag) (x : Exchange) : Prop :=
  ∀ side, Sound P o authKey x side

theorem Inv.new (k : SessionKeys) (sendRets : Side → List ℤ) :
    Inv P o k.authKey (new k sendRets) := by
  intro side
  have hpos : 0 < 2 ^ 31 := by omega
  exact ⟨.new k _, fun p hp => absurd hp List.not_mem_nil, Nat.zero_le _, fun _ => hpos,
    fun _ => hpos, fun _ => rfl, fun _ => ⟨[], rfl, fun p hp => absurd hp List.not_mem_nil⟩⟩

/-- A stored packet announces its own size. -/
theorem Inv.size {x : Exchange} (h : Inv P o authKey x) {author : Side} {p : Packet}
    (hp : p ∈ x.sent author) : p.rocket.payloadSize.toNat = p.payload.length := by
  obtain ⟨i, -, -, heq⟩ := (h author).numbered.index hp
  have hlen := (h author).short p hp
  rw [heq]
  show (UInt32.ofNat p.payload.length).toNat = p.payload.length
  rw [UInt32.toNat_ofNat', Nat.mod_eq_of_lt (by omega)]

/-- **What an end reads from a stream of stored packets is a stored packet.** -/
theorem Inv.cut {x : Exchange} (h : Inv P o authKey x) {bs rest : Bytes} {p : Packet}
    (hbs : x.Stored bs) (hin : bs = p.wire ++ rest)
    (hsize : p.rocket.payloadSize.toNat = p.payload.length) :
    (∃ author, p ∈ x.sent author) ∧ x.Stored rest := by
  obtain ⟨ps, rfl, hps⟩ := hbs
  cases ps with
  | nil =>
    have hlen := congrArg List.length hin
    simp [Packet.wire, sizeofRocket] at hlen
    omega
  | cons q qs =>
    obtain ⟨author, hq⟩ := hps q List.mem_cons_self
    obtain ⟨rfl, rfl⟩ := Packet.wire_append_inj (h.size hq) hsize hin
    exact ⟨⟨author, hq⟩, qs, rfl, fun r hr => hps r (List.mem_cons_of_mem _ hr)⟩

/-- **An end that is not ahead of what it has received accepts only packets of the other end.**
The packet carries the number of the receiving counter; the numbers of the end's own packets are
all smaller. -/
theorem Inv.genuine {x : Exchange} (h : Inv P o authKey x) {side : Side}
    (hopen : (x.ends side).closed = false)
    (hahead : (x.sess side).crypto.sequenceNumberO.toNat
      ≤ (x.sess side).crypto.sequenceNumberI.toNat) {p : Packet}
    (hseq : p.rocket.sequenceNumber = (x.sess side).crypto.sequenceNumberI)
    (hp : ∃ author, p ∈ x.sent author) : p ∈ x.sent side.other ∧ p ∉ x.sent side := by
  have hs := h side
  have hlen : (x.sent side).length ≤ (x.accepted side).length := by
    have ho := hs.numbered.next
    change _ = counter (x.sent side).length at ho
    rw [ho, hs.next hopen, toNat_counter (hs.countOpen hopen),
      toNat_counter (hs.acceptedOpen hopen)] at hahead
    omega
  -- the index of the packet at its author
  have hindex : ∀ author, p ∈ x.sent author →
      (x.accepted side).length < (x.sent author).length := by
    intro author hmem
    obtain ⟨i, hi, -, heq⟩ := (h author).numbered.index hmem
    change i < (x.sent author).length at hi
    have hcount := (h author).count
    have hnum : p.rocket.sequenceNumber = counter i := by rw [heq]; rfl
    rw [hseq, hs.next hopen] at hnum
    rwa [counter_inj (hs.acceptedOpen hopen) (by omega) hnum]
  have hnot : p ∉ x.sent side := fun hmem => by
    have := hindex side hmem
    omega
  obtain ⟨author, hmem⟩ := hp
  refine ⟨?_, hnot⟩
  have hne : author ≠ side := fun heq => hnot (heq ▸ hmem)
  exact (Side.eq_or_other author side).resolve_left hne ▸ hmem

/-! ### Steps -/

/-- The packets of both ends are still stored after an end has changed. -/
theorem Stored.mono {x y : Exchange} {bs : Bytes} (h : x.Stored bs)
    (hsub : ∀ author, ∀ p ∈ x.sent author, p ∈ y.sent author) : y.Stored bs := by
  obtain ⟨ps, hbs, hps⟩ := h
  exact ⟨ps, hbs, fun p hp => (hps p hp).imp fun author hmem => hsub author p hmem⟩

/-- An end that an event does not touch. -/
theorem Sound.of_ends {x y : Exchange} {side : Side} (h : Sound P o authKey x side)
    (he : y.ends side = x.ends side)
    (hsub : ∀ author, ∀ p ∈ x.sent author, p ∈ y.sent author) : Sound P o authKey y side := by
  have hsess : y.sess side = x.sess side := by rw [sess, sess, he]
  have hsent : y.sent side = x.sent side := by rw [sent, sent, hsess]
  have hacc : y.accepted side = x.accepted side := by rw [accepted, accepted, hsess]
  refine ⟨?_, ?_, ?_, ?_, ?_, ?_, ?_⟩
  · rw [hsess]; exact h.numbered
  · rw [hsent]; exact h.short
  · rw [hsent]; exact h.count
  · rw [he, hsent]; exact h.countOpen
  · rw [he, hacc]; exact h.acceptedOpen
  · rw [he, hsess, hacc]; exact h.next
  · rw [he, hsess]; exact fun hopen => (h.stored hopen).mono hsub

theorem sent_set_ne (x : Exchange) {side i : Side} (t : Station) (h : i ≠ side) :
    (x.set side t).sent i = x.sent i := by
  rw [sent, sent, sess, sess, set_ends_ne x t h]

theorem sent_set_self (x : Exchange) (side : Side) (t : Station) :
    (x.set side t).sent side = t.endpoint.session.hist.sent := by
  rw [sent, sess, set_ends_self]

/-- Changing one end without forgetting its packets keeps all packets stored. -/
theorem sent_subset_set {x : Exchange} {side : Side} {t : Station}
    (h : ∀ p ∈ x.sent side, p ∈ t.endpoint.session.hist.sent) :
    ∀ author, ∀ p ∈ x.sent author, p ∈ (x.set side t).sent author := by
  intro author p hp
  by_cases ha : author = side
  · subst ha
    rw [sent_set_self]
    exact h p hp
  · rwa [sent_set_ne x t ha]

/-- Changing one end keeps the invariant, if that end is sound afterwards. -/
theorem Inv.set {x : Exchange} (h : Inv P o authKey x) {side : Side} {t : Station}
    (hsub : ∀ p ∈ x.sent side, p ∈ t.endpoint.session.hist.sent)
    (ht : Sound P o authKey (x.set side t) side) : Inv P o authKey (x.set side t) := by
  intro i
  by_cases hi : i = side
  · exact hi ▸ ht
  · exact (h i).of_ends (set_ends_ne x t hi) (sent_subset_set hsub)

/-- A `send` that returns leaves a number for another packet. -/
theorem Sound.sent_ne {x : Exchange} {side : Side} (h : Sound P o authKey x side)
    {plaintext : Bytes} {n : ℤ} {s : Session}
    (hr : (Crypto.send P (o side) plaintext).run (x.sess side) = .ok n s) :
    (x.sent side).length + 1 ≠ 2 ^ 31 := by
  intro hmax
  apply Crypto.send_ok hr
  rw [h.numbered.next, counter_succ]
  show counter ((x.sent side).length + 1) = 0
  rw [hmax]
  rfl

/-- A `send`. -/
theorem Inv.send {x : Exchange} (h : Inv P o authKey x) (side : Side) (plaintext : Plaintext) :
    Inv P o authKey (step P o x (.send side plaintext)).1 := by
  simp only [step]
  split
  · exact h
  rename_i hclosed
  have hopen : (x.ends side).closed = false := by simpa using hclosed
  have hs := h side
  obtain ⟨c, hin, hend⟩ := Crypto.send_cases P (o side) plaintext.1 (x.sess side)
  have hok : ∀ n s, (Crypto.send P (o side) plaintext.1).run (x.sess side) = .ok n s →
      (x.sent side).length + 1 ≠ 2 ^ 31 := fun _ _ hr => hs.sent_ne hr
  have hnum := hs.numbered.send plaintext.1
  change Crypto.Numbered P (o side) authKey
    (Exec.endState ((Crypto.send P (o side) plaintext.1).run (x.sess side))) at hnum
  change Inv P o authKey (x.set side ⟨{ (x.ends side).endpoint with
    session := Exec.endState ((Crypto.send P (o side) plaintext.1).run (x.sess side)) },
    Exec.threw ((Crypto.send P (o side) plaintext.1).run (x.sess side))⟩)
  generalize (Crypto.send P (o side) plaintext.1).run (x.sess side) = r at hend hok hnum ⊢
  have hsent : (Exec.endState r).hist.sent
      = x.sent side ++ [Crypto.packetOf P (o side) (x.sess side).crypto plaintext.1] := by
    rw [hend]
    rfl
  have hlen : (Exec.endState r).hist.sent.length = (x.sent side).length + 1 := by
    rw [hsent, List.length_append, List.length_singleton]
  have hsub : ∀ p ∈ x.sent side, p ∈ (Exec.endState r).hist.sent := fun p hp => by
    rw [hsent]
    exact List.mem_append_left _ hp
  have hcount := hs.countOpen hopen
  refine h.set hsub ⟨?_, ?_, ?_, ?_, ?_, ?_, ?_⟩
  · rw [sess, set_ends_self]
    exact hnum
  · rw [sent_set_self]
    intro p hp
    rw [hsent] at hp
    rcases List.mem_append.mp hp with hp | hp
    · exact hs.short p hp
    · rw [List.mem_singleton.mp hp, Crypto.packetOf_payload, CipherCtx.encryptUpdate_length]
      exact plaintext.2
  · rw [sent_set_self, hlen]
    omega
  · rw [set_ends_self, sent_set_self, hlen]
    intro hthrew
    cases r with
    | ok n s => have := hok n s rfl; omega
    | error e s => cases hthrew
  · intro _
    rw [accepted, sess, set_ends_self, hend]
    exact hs.acceptedOpen hopen
  · intro _
    rw [accepted, sess, set_ends_self, hend]
    exact hs.next hopen
  · intro _
    rw [sess, set_ends_self]
    have hinc : (Exec.endState r).conn.incoming = (x.sess side).conn.incoming := by
      rw [hend]
      exact hin
    show Stored _ (Exec.endState r).conn.incoming
    rw [hinc]
    exact (hs.stored hopen).mono (sent_subset_set hsub)

/-- A stored packet arrives once more. -/
theorem Inv.deliver {x : Exchange} (h : Inv P o authKey x) (side author : Side) (i : ℕ) :
    Inv P o authKey (step P o x (.deliver side author i)).1 := by
  simp only [step]
  cases hp : (x.sent author)[i]? with
  | none => exact h
  | some p =>
    have hs := h side
    have hsub : ∀ q ∈ x.sent side, q ∈ ((x.ends side).endpoint.deliver p.wire).session.hist.sent :=
      fun q hq => hq
    have hall : ∀ a, ∀ q ∈ x.sent a, q ∈ (x.set side
        { x.ends side with endpoint := (x.ends side).endpoint.deliver p.wire }).sent a :=
      sent_subset_set hsub
    refine h.set hsub ⟨?_, ?_, ?_, ?_, ?_, ?_, ?_⟩
    · rw [sess, set_ends_self]
      exact hs.numbered.of_eq rfl rfl rfl
    · rw [sent_set_self]
      exact hs.short
    · rw [sent_set_self]
      exact hs.count
    · rw [set_ends_self, sent_set_self]
      exact hs.countOpen
    · rw [accepted, sess, set_ends_self]
      exact hs.acceptedOpen
    · rw [accepted, sess, set_ends_self]
      exact hs.next
    · rw [sess, set_ends_self]
      intro hopen
      obtain ⟨ps, hbs, hps⟩ := (hs.stored hopen).mono hall
      refine ⟨ps ++ [p], ?_, fun q hq => ?_⟩
      · rw [List.flatMap_append, ← hbs]
        simp [Endpoint.deliver, sess]
      · rcases List.mem_append.mp hq with hq | hq
        · exact hps q hq
        · rw [List.mem_singleton.mp hq]
          exact ⟨author, hall author p (List.mem_of_getElem? hp)⟩

/-- An end whose object has neither sent nor accepted anything since. -/
theorem Sound.of_recv {x : Exchange} {side : Side} (h : Sound P o authKey x side) {t : Station}
    (hnum : Crypto.Numbered P (o side) authKey t.endpoint.session)
    (hsent : t.endpoint.session.hist.sent = x.sent side)
    (hclosed : t.closed = false → (x.ends side).closed = false)
    (hacc : t.closed = false → t.endpoint.session.hist.accepted.length < 2 ^ 31)
    (hnext : t.closed = false → t.endpoint.session.crypto.sequenceNumberI
      = counter t.endpoint.session.hist.accepted.length)
    (hstored : t.closed = false → x.Stored t.endpoint.session.conn.incoming) :
    Sound P o authKey (x.set side t) side := by
  refine ⟨?_, ?_, ?_, ?_, ?_, ?_, ?_⟩
  · rw [sess, set_ends_self]; exact hnum
  · rw [sent_set_self, hsent]; exact h.short
  · rw [sent_set_self, hsent]; exact h.count
  · rw [set_ends_self, sent_set_self, hsent]
    exact fun hopen => h.countOpen (hclosed hopen)
  · rw [accepted, sess, set_ends_self]; exact hacc
  · rw [accepted, sess, set_ends_self]; exact hnext
  · rw [sess, set_ends_self]
    exact fun hopen => (hstored hopen).mono (sent_subset_set fun p hp => hsent ▸ hp)

theorem genuine_of_accepted {x : Exchange} {e : Event}
    (h : ∀ side, (step P o x e).1.accepted side = x.accepted side) : Genuine P o x e := by
  intro side a ha
  rw [h side, List.drop_length] at ha
  cases ha

theorem accepted_set_self (x : Exchange) (side : Side) (t : Station) :
    (x.set side t).accepted side = t.endpoint.session.hist.accepted := by
  rw [accepted, sess, set_ends_self]

theorem accepted_set_ne (x : Exchange) {side i : Side} (t : Station) (h : i ≠ side) :
    (x.set side t).accepted i = x.accepted i := by
  rw [accepted, accepted, sess, sess, set_ends_ne x t h]

/-- Events that accept nothing. -/
theorem accepted_set_of_eq (x : Exchange) {side : Side} {t : Station}
    (h : t.endpoint.session.hist.accepted = x.accepted side) (i : Side) :
    (x.set side t).accepted i = x.accepted i := by
  by_cases hi : i = side
  · subst hi
    rw [accepted_set_self, h]
  · exact accepted_set_ne x t hi

theorem accepted_send (x : Exchange) (side : Side) (plaintext : Plaintext) (i : Side) :
    (step P o x (.send side plaintext)).1.accepted i = x.accepted i := by
  obtain ⟨c, -, hend⟩ := Crypto.send_cases P (o side) plaintext.1 (x.ends side).endpoint.session
  simp only [step]
  split
  · rfl
  · refine accepted_set_of_eq x ?_ i
    simp only [hend, Crypto.sealed]
    rfl

theorem accepted_deliver (x : Exchange) (side author : Side) (n : ℕ) (i : Side) :
    (step P o x (.deliver side author n)).1.accepted i = x.accepted i := by
  simp only [step]
  split
  · refine accepted_set_of_eq x ?_ i
    rfl
  · rfl

/-- What an event adds to what one end has accepted is all there is to look at. -/
theorem genuine_of_set {x : Exchange} {e : Event} {side : Side} {t : Station}
    {new : List Accepted} (hstep : (step P o x e).1 = x.set side t)
    (hacc : t.endpoint.session.hist.accepted = x.accepted side ++ new)
    (hnew : ∀ a ∈ new, a.packet ∈ x.sent side.other ∧ a.packet ∉ x.sent side) :
    Genuine P o x e := by
  intro i a ha
  rw [hstep] at ha
  by_cases hi : i = side
  · subst hi
    rw [accepted_set_self, hacc, List.drop_left] at ha
    exact hnew a ha
  · rw [accepted_set_ne x t hi, List.drop_length] at ha
    cases ha

/-- An end that a `recv` has closed. -/
theorem Sound.of_closed {x : Exchange} {side : Side} (h : Sound P o authKey x side) {e : Endpoint}
    (hnum : Crypto.Numbered P (o side) authKey e.session)
    (hsent : e.session.hist.sent = x.sent side) :
    Sound P o authKey (x.set side ⟨e, true⟩) side :=
  h.of_recv hnum hsent (fun hc => by cases hc) (fun hc => by cases hc) (fun hc => by cases hc)
    fun hc => by cases hc

/-- An expected packet that an end reads while it is not ahead is one of the other end, and stored
packets follow it. -/
theorem Inv.acceptable {x : Exchange} (h : Inv P o authKey x) {side : Side}
    (hopen : (x.ends side).closed = false)
    (hahead : (x.sess side).crypto.sequenceNumberO.toNat
      ≤ (x.sess side).crypto.sequenceNumberI.toNat) {p : Packet} {rest : Bytes}
    (he : Crypto.Expected P (o side) (x.sess side).crypto.authKey
      (x.sess side).crypto.sequenceNumberI p)
    (hin : (x.sess side).conn.incoming = p.wire ++ rest) :
    (p ∈ x.sent side.other ∧ p ∉ x.sent side) ∧ x.Stored rest := by
  obtain ⟨hmem, hrest⟩ := h.cut ((h side).stored hopen) hin he.size
  exact ⟨h.genuine hopen hahead he.rocketSeq hmem, hrest⟩

/-- The receiving counter after a packet has been accepted. -/
theorem Sound.next_accept {x : Exchange} {side : Side} (h : Sound P o authKey x side)
    (hopen : (x.ends side).closed = false) (p : Packet) (rest : Bytes) :
    (Crypto.accept P (o side) (x.ends side).endpoint p rest).session.crypto.sequenceNumberI
      = counter ((x.accepted side).length + 1) := by
  show (x.sess side).crypto.sequenceNumberI + 1 + 1 = _
  rw [h.next hopen, counter_succ]

theorem length_accept (x : Exchange) (side : Side) (p : Packet) (rest : Bytes) :
    (Crypto.accept P (o side) (x.ends side).endpoint p rest).session.hist.accepted.length
      = (x.accepted side).length + 1 :=
  List.length_append

/-- **A `recv` that is not ahead** keeps the invariant, and what it accepts is genuine. -/
theorem Inv.recv {x : Exchange} (h : Inv P o authKey x) (side : Side) (size : ℕ)
    (hahead : x.NotAhead (.recv side size)) :
    Inv P o authKey (step P o x (.recv side size)).1 ∧ Genuine P o x (.recv side size) := by
  have hs := h side
  cases hopen : (x.ends side).closed with
  | true =>
    have hstep : (step P o x (.recv side size)).1 = x := by simp only [step, hopen, if_true]
    refine ⟨?_, genuine_of_accepted fun i => by rw [hstep]⟩
    rw [hstep]
    exact h
  | false =>
    have hends := Crypto.recv_cases P (o side) size (x.ends side).endpoint
    have hstep : (step P o x (.recv side size)).1
        = x.set side ⟨Exec.endState ((Crypto.recv P (o side) size).run (x.ends side).endpoint),
            Exec.threw ((Crypto.recv P (o side) size).run (x.ends side).endpoint)⟩ := by
      simp only [step, hopen, Bool.false_eq_true, if_false]
    generalize (Crypto.recv P (o side) size).run (x.ends side).endpoint = r at hends hstep
    have hset : ∀ t : Station, t.endpoint.session.hist.sent = x.sent side →
        Sound P o authKey (x.set side t) side → Inv P o authKey (x.set side t) := by
      intro t hsent ht
      exact h.set (fun p hp => hsent ▸ hp) ht
    have hgenuine := @genuine_of_set P o x (.recv side size) side _ [] hstep
    rw [hstep]
    cases hends with
    | unread hb =>
      refine ⟨hset _ rfl (hs.of_recv hs.numbered rfl (fun _ => hopen) ?_ ?_ ?_),
        hgenuine (List.append_nil _).symm (by simp)⟩
      · exact fun _ => hs.acceptedOpen hopen
      · exact fun _ => hs.next hopen
      · exact fun _ => hs.stored hopen
    | @rejected hb e s hx =>
      have hheld := Crypto.receivePacket_held.of_error hx
      simp only [Crypto.held, Prod.mk.injEq] at hheld
      obtain ⟨-, -, hkey, hseq, hsent, hacc, -, -⟩ := hheld
      have hsound := hs.of_closed (e := { (x.ends side).endpoint with session := s })
        (hs.numbered.of_eq hkey hseq hsent) hsent
      exact ⟨hset _ hsent hsound, hgenuine (hacc.trans (List.append_nil _).symm) (by simp)⟩
    | @accepted hb p rest he hin hseq =>
      obtain ⟨hp, hrest⟩ := h.acceptable hopen (hahead hb) he hin
      have hnext := hs.next_accept hopen p rest
      have hne : (x.accepted side).length + 1 ≠ 2 ^ 31 := by
        intro hmax
        apply hseq
        show (x.sess side).crypto.sequenceNumberI + 1 + 1 = 0
        rw [hs.next hopen, counter_succ, hmax]
        rfl
      have hlt := hs.acceptedOpen hopen
      refine ⟨hset _ rfl (hs.of_recv (hs.numbered.of_eq rfl rfl rfl) rfl (fun _ => hopen) ?_ ?_
        fun _ => hrest), genuine_of_set hstep rfl ?_⟩
      · intro _
        show (Crypto.accept P (o side) (x.ends side).endpoint p rest).session.hist.accepted.length
          < 2 ^ 31
        rw [length_accept]
        omega
      · intro _
        exact hnext.trans (congrArg counter (length_accept x side p rest).symm)
      · intro a ha
        rw [List.mem_singleton.mp ha]
        exact hp
    | @wrapped hb p rest he hin hseq =>
      obtain ⟨hp, -⟩ := h.acceptable hopen (hahead hb) he hin
      refine ⟨hset _ rfl (hs.of_closed (hs.numbered.of_eq rfl rfl rfl) rfl),
        genuine_of_set hstep rfl ?_⟩
      intro a ha
      rw [List.mem_singleton.mp ha]
      exact hp

/-- **No reflection.**  In every run in which an end reads a packet only while it has sent no
more packets than it has received, whatever is stored and delivered again, every packet that an
end accepts was built by the other end and not by itself. -/
theorem no_reflection (P : Primitives) (o : Side → ByteOrder) (k : SessionKeys)
    (sendRets : Side → List ℤ) (es : List Event)
    (h : Machine.Meets (step P o) NotAhead (new k sendRets) es) :
    Machine.Meets (step P o) (Genuine P o) (new k sendRets) es := by
  refine Machine.meets_of_invariant (I := Inv P o k.authKey) ?_ (Inv.new k sendRets) h
  intro x e hI hC
  cases e with
  | send side plaintext =>
    exact ⟨hI.send side plaintext, genuine_of_accepted (accepted_send x side plaintext)⟩
  | deliver side author i =>
    exact ⟨hI.deliver side author i, genuine_of_accepted (accepted_deliver x side author i)⟩
  | recv side size => exact hI.recv side size hC

/-- **The condition is sharp**: an end that has sent more than it has received, and has nothing
else to read, accepts its own packet when the attacker delivers it. -/
theorem reflected {x : Exchange} (h : Inv P o authKey x) {side : Side} (size : ℕ)
    (hopen : (x.ends side).closed = false) (hb : (x.ends side).endpoint.buf.remaining = 0)
    (hin : (x.sess side).conn.incoming = []) {p : Packet}
    (hp : (x.sent side)[(x.accepted side).length]? = some p) (hne : p.payload ≠ [])
    (hle : p.payload.length ≤ bufferSize) (hlast : (x.accepted side).length + 1 < 2 ^ 31) :
    (run P o x [.deliver side side (x.accepted side).length, .recv side size]).accepted side
      = x.accepted side ++ [⟨p, Crypto.plaintextOf P (x.sess side).crypto p⟩] := by
  have hs := h side
  have hexp : Crypto.Expected P (o side) (x.sess side).crypto.authKey
      (x.sess side).crypto.sequenceNumberI p := by
    rw [hs.numbered.key, hs.next hopen, hs.numbered.packet _ p hp]
    exact Crypto.expected_packetAt hne hle
  have hseq : (x.sess side).crypto.sequenceNumberI + 1 + 1 ≠ 0 := by
    rw [hs.next hopen, counter_succ]
    exact counter_ne_zero (Nat.succ_pos _) hlast
  have hstream : ((x.ends side).endpoint.deliver p.wire).session.conn.incoming = p.wire ++ [] := by
    show (x.sess side).conn.incoming ++ p.wire = _
    rw [hin, List.append_nil, List.nil_append]
  have hrecv := Crypto.recv_of_expected (e := (x.ends side).endpoint.deliver p.wire) size hb hexp
    hstream hseq
  simp only [run, Machine.run_cons, Machine.run_nil, step, hp, set_ends_self, hopen,
    Bool.false_eq_true, if_false, hrecv, accepted_set_self, Exec.endState_ok]
  rfl

/-- The client sends a packet, and the attacker sends it back. -/
def echoRun : List Event :=
  [.send .client ⟨[1, 2], by decide⟩, .deliver .client .client 0, .recv .client 2]

/-- The client accepts its own packet, although the server has built none. -/
theorem own_packet_accepted :
    ((run .sample (fun _ => .little) (new (.sample 1) fun _ => []) echoRun).accepted
        .client).map (·.packet)
      = (run .sample (fun _ => .little) (new (.sample 1) fun _ => []) echoRun).sent .client ∧
    (run .sample (fun _ => .little) (new (.sample 1) fun _ => []) echoRun).sent .client ≠ [] ∧
    (run .sample (fun _ => .little) (new (.sample 1) fun _ => []) echoRun).sent .server = [] := by
  decide +kernel

/-- A question and an answer, and then the answer is delivered back to the server, which has sent and
received one packet each. -/
def answeredRun : List Event :=
  [.send .client ⟨[1, 2], by decide⟩, .deliver .server .client 0, .recv .server 2,
    .send .server ⟨[3], by decide⟩, .deliver .server .server 0, .recv .server 1]

/-- The server refuses its own packet. -/
theorem no_reflection_answered :
    Machine.Meets (step .sample fun _ => .little) (Genuine .sample fun _ => .little)
        (new (.sample 1) fun _ => []) answeredRun ∧
      ((run .sample (fun _ => .little) (new (.sample 1) fun _ => []) answeredRun).sent
        .server).length = 1 ∧
      (Machine.run (step .sample fun _ => .little) (new (.sample 1) fun _ => []) answeredRun).2.map
        (fun r => (r.1, r.2.toOption)) = [(.server, some [1, 2]), (.server, none)] :=
  ⟨no_reflection .sample (fun _ => .little) (.sample 1) (fun _ => []) answeredRun
    (by decide +kernel), by decide +kernel, by decide +kernel⟩

end Exchange

end Cybrg
