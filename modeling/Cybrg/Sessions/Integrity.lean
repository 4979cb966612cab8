import Cybrg.Library.Machine
import Cybrg.Sessions.Numbering
import Mathlib.Data.List.Infix

/-!
# One direction of a session under attack

One endpoint sends, the other receives, and everything between them belongs to the attacker:
`Link` is the pair of endpoints, and an event is a `send`, some bytes of the attacker's choice
arriving at the receiver, or a `recv`.  Both programs give a session up at its first exception,
so a receiver that has thrown is closed.

The authentication code is taken as ideal (`Ideal`): a received tag is found right only for a
byte string that the sender has tagged.  The two headers of a packet are tagged under one key
and carry no label, and the four bytes of payload that follow the number of a `SpaceCraft` can be
the number of a `Rocket`:

* `craft_origin`, `rocket_origin` — whose tag a received header can carry;
* `Unconfused` — no packet of four bytes stands at an index `k` for which some packet has a
  payload of `2 * k + 1` bytes;
* `integrity_iff` — `Unconfused` is exactly the condition under which the payloads that are
  accepted are always a prefix of those that were sent;
* `forged_payload_accepted` — two payloads for which they are not.
-/

namespace Cybrg

open Octets

/-! ### The link -/

/-- Two endpoints and the direction from the first to the second. -/
structure Link where
  sender : Session
  receiver : Endpoint
  /-- The receiver has thrown. -/
  closed : Bool := false

namespace Link

inductive Event where
  | send (plaintext : Bytes)
  /-- The attacker lets some bytes arrive. -/
  | inject (bs : Bytes)
  | recv (size : ℕ)

/-- One event; a `recv` is observed with its result.  No `recv` follows one that threw, as both programs
give the session up then.  `o` and `o'` are the byte orders of the two hosts. -/
def step (P : Primitives) (o o' : ByteOrder) (l : Link) : Event → Link × List (Except Ex Bytes)
  | .send plaintext =>
      ({ l with sender := Exec.endState ((Crypto.send P o plaintext).run l.sender) }, [])
  | .inject bs => ({ l with receiver := l.receiver.deliver bs }, [])
  | .recv size =>
      if l.closed then (l, []) else
        let r := (Crypto.recv P o' size).run l.receiver
        ({ l with receiver := Exec.endState r, closed := Exec.threw r }, [Exec.outcome r])

/-- Both endpoints of a fresh session; `sendRets` is what the sender's socket calls will
return. -/
def new (k : SessionKeys) (sendRets : List ℤ) : Link where
  sender := Session.new k { sendRets }
  receiver := Endpoint.new k

abbrev run (P : Primitives) (o o' : ByteOrder) (l : Link) (es : List Event) : Link :=
  (Machine.run (step P o o') l es).1

/-- The encrypted payloads that `send` has produced. -/
def sent (l : Link) : List Bytes := l.sender.hist.sent.map (·.payload)

/-- The encrypted payloads that `recv` has accepted. -/
def accepted (l : Link) : List Bytes := l.receiver.session.hist.accepted.map (·.packet.payload)

/-- The plaintexts that a list of events sends. -/
def plaintexts (es : List Event) : List Bytes :=
  es.filterMap fun
    | .send plaintext => some plaintext
    | _ => none

/-- **The ideal authentication code**: every byte string whose tag the receiver found right was
tagged by the sender. -/
def Ideal (o : ByteOrder) (l : Link) : Prop :=
  ∀ bs ∈ l.receiver.session.hist.verified, bs ∈ l.sender.hist.sent.flatMap (Packet.macInputs o)

instance (o : ByteOrder) (l : Link) : Decidable (Ideal o l) :=
  inferInstanceAs (Decidable (∀ bs ∈ l.receiver.session.hist.verified,
    bs ∈ l.sender.hist.sent.flatMap (Packet.macInputs o)))

/-- A run in which the authentication code is ideal after every event. -/
def IdealRun (P : Primitives) (o o' : ByteOrder) (l : Link) (es : List Event) : Prop :=
  Machine.Meets (step P o o') (fun l e => Ideal o (step P o o' l e).1) l es

instance (P : Primitives) (o o' : ByteOrder) (l : Link) (es : List Event) :
    Decidable (IdealRun P o o' l es) :=
  inferInstanceAs (Decidable (Machine.Meets (step P o o')
    (fun l e => Ideal o (step P o o' l e).1) l es))

/-- No packet with a payload of four bytes stands at an index `k` for which some packet has a
payload of `2 * k + 1` bytes. -/
def Unconfused (sizes : List ℕ) : Prop :=
  ∀ k m : ℕ, sizes[k]? = some 4 → sizes[m]? ≠ some (2 * k + 1)

end Link

/-! ### Whose tag a header can carry -/

namespace Crypto.Numbered

variable {P : Primitives} {o o' : ByteOrder} {authKey : Tag} {s : Session}

/-- The strings that a numbered session has tagged. -/
theorem mem_macInputs (h : Numbered P o authKey s) {bs : Bytes}
    (hbs : bs ∈ s.hist.sent.flatMap (Packet.macInputs o)) :
    ∃ (i : ℕ) (q : Packet), i < s.hist.sent.length ∧ s.hist.sent[i]? = some q ∧
      (bs = o.store (UInt32.ofNat q.payload.length) ++ o.store (counter i) ∨
        bs = o.store (counter i + 1) ++ q.payload) := by
  obtain ⟨q, hq, hbs⟩ := List.mem_flatMap.mp hbs
  obtain ⟨i, hi, hget, heq⟩ := h.index hq
  refine ⟨i, q, hi, hget, ?_⟩
  rw [heq] at hbs
  simpa [Packet.macInputs, packetAt_rocket_macInput, packetAt_spacecraft_macInput] using hbs

variable (hn : s.hist.sent.length < 2 ^ 31)
  (hsize : ∀ q ∈ s.hist.sent, q.payload.length ≤ bufferSize)

include hn hsize

/-- The tag of a `SpaceCraft` with number `2 * j + 1` was made for the packet with index `j`, or
for the `Rocket` of a packet of `2 * j + 1` bytes. -/
theorem craft_origin (h : Numbered P o authKey s) {j : ℕ} (hj : j < 2 ^ 31) {enc : Bytes}
    (hmem : o.store (counter j + 1) ++ enc ∈ s.hist.sent.flatMap (Packet.macInputs o)) :
    (∃ q : Packet, s.hist.sent[j]? = some q ∧ q.payload = enc) ∨
      enc.length = 4 ∧ ∃ (m : ℕ) (q : Packet), s.hist.sent[m]? = some q ∧
        q.payload.length = 2 * j + 1 := by
  obtain ⟨i, q, hi, hget, heq | heq⟩ := h.mem_macInputs hmem
  · right
    obtain ⟨hnum, henc⟩ := List.append_inj heq (by simp)
    have hb : bufferSize = 4096 := rfl
    have hq := hsize q (List.mem_of_getElem? hget)
    have hval := congrArg UInt32.toNat (o.store_injective hnum)
    rw [toNat_counter_add_one hj, UInt32.toNat_ofNat', Nat.mod_eq_of_lt (by omega)] at hval
    exact ⟨by simp [henc], i, q, hget, hval.symm⟩
  · left
    obtain ⟨hnum, henc⟩ := List.append_inj heq (by simp)
    have hij := counter_add_one_inj hj (by omega) (o.store_injective hnum)
    exact ⟨q, hij ▸ hget, henc.symm⟩

/-- The tag of a `Rocket` with number `2 * j` and an even size was made for the packet with
index `j`, which has that size. -/
theorem rocket_origin (h : Numbered P o authKey s) {j : ℕ} (hj : j < 2 ^ 31) {size : UInt32}
    (heven : size.toNat % 2 = 0)
    (hmem : o.store size ++ o.store (counter j) ∈ s.hist.sent.flatMap (Packet.macInputs o)) :
    ∃ q : Packet, s.hist.sent[j]? = some q ∧ q.payload.length = size.toNat := by
  obtain ⟨i, q, hi, hget, heq | heq⟩ := h.mem_macInputs hmem
  · obtain ⟨hnum, hseq⟩ := List.append_inj heq (by simp)
    have hb : bufferSize = 4096 := rfl
    have hq := hsize q (List.mem_of_getElem? hget)
    have hij := counter_inj hj (by omega) (o.store_injective hseq)
    have hval := congrArg UInt32.toNat (o.store_injective hnum)
    rw [UInt32.toNat_ofNat', Nat.mod_eq_of_lt (by omega)] at hval
    exact ⟨q, hij ▸ hget, hval.symm⟩
  · obtain ⟨hnum, -⟩ := List.append_inj heq (by simp)
    have hval := congrArg UInt32.toNat (o.store_injective hnum)
    rw [toNat_counter_add_one (by omega)] at hval
    omega

/-- On a host of the other byte order no tag fits a `Rocket` that announces a payload. -/
theorem rocket_cross (h : Numbered P o authKey s) (ho : o' ≠ o) {size : UInt32} {bs : Bytes}
    (hpos : size ≠ 0) (hle : size.toNat ≤ bufferSize) :
    o'.store size ++ bs ∉ s.hist.sent.flatMap (Packet.macInputs o) := by
  intro hmem
  have hb : bufferSize = 4096 := rfl
  obtain ⟨i, q, hi, hget, heq | heq⟩ := h.mem_macInputs hmem
  · obtain ⟨hnum, -⟩ := List.append_inj heq (by simp)
    have hq := hsize q (List.mem_of_getElem? hget)
    refine hpos ((ByteOrder.store_cross ho (by omega) hnum).2 ?_)
    rw [UInt32.toNat_ofNat', Nat.mod_eq_of_lt (by omega)]
    omega
  · obtain ⟨hnum, -⟩ := List.append_inj heq (by simp)
    have hodd := (ByteOrder.store_cross ho (by omega) hnum).1
    rw [toNat_counter_add_one (by omega)] at hodd
    omega

end Crypto.Numbered

/-! ### Unconfused sizes keep the order -/

namespace Link

variable {P : Primitives} {o o' : ByteOrder} {authKey : Tag}

/-- What holds in every state of an ideal run: the packets of the sender are numbered, those
accepted so far are its first ones, and an open receiver waits for the next one. -/
structure Inv (P : Primitives) (o : ByteOrder) (authKey : Tag) (l : Link) : Prop where
  numbered : Crypto.Numbered P o authKey l.sender
  key : l.receiver.session.crypto.authKey = authKey
  inOrder : l.accepted <+: l.sent
  next : l.closed = false →
    l.receiver.session.crypto.sequenceNumberI = counter l.accepted.length

theorem Inv.new (k : SessionKeys) (sendRets : List ℤ) : Inv P o k.authKey (new k sendRets) :=
  ⟨.new k _, rfl, List.prefix_refl _, fun _ => rfl⟩

/-- The sizes of the encrypted payloads, as the sender made them. -/
def sizes (l : Link) : List ℕ := l.sent.map List.length

/-- The bounds under which a session stays within its counter and its buffers. -/
def Fits (sizes : List ℕ) : Prop := sizes.length < 2 ^ 31 ∧ ∀ n ∈ sizes, n ≤ bufferSize

/-- **A packet that an open receiver accepts carries the next payload of the sender.** -/
theorem Inv.next_payload {l : Link} (h : Inv P o authKey l) (hopen : l.closed = false)
    (hfits : Fits l.sizes) (hu : Unconfused l.sizes) {p : Packet}
    (he : Crypto.Expected P o' l.receiver.session.crypto.authKey
      l.receiver.session.crypto.sequenceNumberI p)
    (hideal : ∀ bs ∈ p.macInputs o', bs ∈ l.sender.hist.sent.flatMap (Packet.macInputs o)) :
    l.sent[l.accepted.length]? = some p.payload := by
  have hn : l.sender.hist.sent.length < 2 ^ 31 := by simpa [sizes, sent] using hfits.1
  have hsize : ∀ q ∈ l.sender.hist.sent, q.payload.length ≤ bufferSize := fun q hq =>
    hfits.2 _ (List.mem_map_of_mem (List.mem_map_of_mem hq))
  have hj : l.accepted.length < 2 ^ 31 := by
    have hle := h.inOrder.length_le
    rw [sent, List.length_map] at hle
    omega
  have hrocket : o'.store p.rocket.payloadSize ++ o'.store (counter l.accepted.length)
      ∈ l.sender.hist.sent.flatMap (Packet.macInputs o) := by
    have hmem := hideal (p.rocket.macInput o') (by simp [Packet.macInputs])
    rwa [Rocket.macInput, he.rocketSeq, h.next hopen] at hmem
  have hcraft : o'.store (counter l.accepted.length + 1) ++ p.payload
      ∈ l.sender.hist.sent.flatMap (Packet.macInputs o) := by
    have hmem := hideal (p.spacecraft.macInput o' p.payload) (by simp [Packet.macInputs])
    rwa [SpaceCraft.macInput, he.spacecraftSeq, h.next hopen] at hmem
  by_cases ho : o' = o
  · subst ho
    rcases h.numbered.craft_origin hn hsize hj hcraft with ⟨q, hq, heq⟩ | ⟨hfour, m, q, hq, hlen⟩
    · rw [sent, List.getElem?_map, hq, Option.map_some, heq]
    · -- the payload is the number of a rocket: then the packet in turn has four bytes
      exfalso
      have heven : p.rocket.payloadSize.toNat % 2 = 0 := by rw [he.size, hfour]
      obtain ⟨q', hq', hlen'⟩ := h.numbered.rocket_origin hn hsize hj heven hrocket
      refine hu l.accepted.length m ?_ ?_
      · rw [sizes, sent, List.getElem?_map, List.getElem?_map, hq', Option.map_some,
          Option.map_some, hlen', he.size, hfour]
      · rw [sizes, sent, List.getElem?_map, List.getElem?_map, hq, Option.map_some,
          Option.map_some, hlen]
  · exfalso
    refine h.numbered.rocket_cross hn hsize ho ?_ (by rw [he.size]; exact he.bounded) hrocket
    intro h0
    have hlen := he.size
    rw [h0] at hlen
    exact he.nonempty (List.length_eq_zero_iff.mp hlen.symm)

/-- The receiver's side of the invariant after a packet with the next payload. -/
theorem inOrder_snoc {l : Link} (h : l.accepted <+: l.sent) {bs : Bytes}
    (hnext : l.sent[l.accepted.length]? = some bs) : l.accepted ++ [bs] <+: l.sent := by
  obtain ⟨hlt, hget⟩ := List.getElem?_eq_some_iff.mp hnext
  have hsnoc := List.concat_get_prefix h hlt
  rwa [List.get_eq_getElem, hget] at hsnoc

theorem sent_send (l : Link) (plaintext : Bytes) :
    (step P o o' l (.send plaintext)).1.sent
      = l.sent ++ [(l.sender.crypto.ctxE.encryptUpdate P plaintext).1] := by
  obtain ⟨c, -, hend⟩ := Crypto.send_cases P o plaintext l.sender
  simp [step, sent, hend, Crypto.sealed]

theorem sizes_send (l : Link) (plaintext : Bytes) :
    (step P o o' l (.send plaintext)).1.sizes = l.sizes ++ [plaintext.length] := by
  simp [sizes, sent_send]

theorem sender_recv (l : Link) (size : ℕ) :
    (step P o o' l (.recv size)).1.sender = l.sender := by
  simp only [step]
  split <;> rfl

theorem Inv.send {l : Link} (h : Inv P o authKey l) (plaintext : Bytes) :
    Inv P o authKey (step P o o' l (.send plaintext)).1 := by
  refine ⟨h.numbered.send plaintext, h.key, ?_, h.next⟩
  rw [sent_send]
  exact h.inOrder.trans (List.prefix_append _ _)

/-- **A `recv` keeps the invariant**, if the tags that it found right are the sender's. -/
theorem Inv.recv {l : Link} (h : Inv P o authKey l) (size : ℕ) (hfits : Fits l.sizes)
    (hu : Unconfused l.sizes) (hideal : Ideal o (step P o o' l (.recv size)).1) :
    Inv P o authKey (step P o o' l (.recv size)).1 := by
  cases hopen : l.closed with
  | true => simpa only [step, hopen, if_true] using h
  | false =>
    have hends := Crypto.recv_cases P o' size l.receiver
    simp only [step, hopen, Bool.false_eq_true, if_false] at hideal ⊢
    generalize (Crypto.recv P o' size).run l.receiver = r at hends hideal ⊢
    have hnext : ∀ {p rest}, Crypto.Expected P o' l.receiver.session.crypto.authKey
        l.receiver.session.crypto.sequenceNumberI p →
        (∀ bs ∈ (Crypto.accept P o' l.receiver p rest).session.hist.verified,
          bs ∈ l.sender.hist.sent.flatMap (Packet.macInputs o)) →
        l.sent[l.accepted.length]? = some p.payload := by
      intro p rest he hv
      refine h.next_payload hopen hfits hu he fun bs hbs => hv bs ?_
      exact List.mem_append_right _ hbs
    cases hends with
    | unread hb => exact ⟨h.numbered, h.key, h.inOrder, fun _ => h.next hopen⟩
    | @rejected hb x s hx =>
      have hheld := Crypto.receivePacket_held.of_error hx
      simp only [Crypto.held, Prod.mk.injEq] at hheld
      obtain ⟨-, -, hkey, -, -, hacc, -, -⟩ := hheld
      refine ⟨h.numbered, hkey.trans h.key, ?_, fun hc => absurd hc (by simp)⟩
      simp only [accepted, sent, Exec.endState_error, hacc]
      exact h.inOrder
    | accepted hb he hin hseq =>
      have hp := hnext he hideal
      refine ⟨h.numbered, h.key, ?_, fun _ => ?_⟩
      · simpa [accepted, sent, Crypto.accept] using inOrder_snoc h.inOrder hp
      · simp only [Exec.endState_ok, Crypto.accept, accepted, List.map_append, List.map_cons,
          List.map_nil, List.length_append, List.length_singleton]
        rw [h.next hopen, counter_succ, accepted]
    | wrapped hb he hin hseq =>
      have hp := hnext he hideal
      refine ⟨h.numbered, h.key, ?_, fun hc => absurd hc (by simp)⟩
      simpa [accepted, sent, Crypto.accept] using inOrder_snoc h.inOrder hp

/-! ### Whole runs -/

theorem getElem?_of_initial {α : Type} {xs ys : List α} (h : xs <+: ys) {i : ℕ} {a : α}
    (hi : xs[i]? = some a) : ys[i]? = some a := by
  obtain ⟨t, rfl⟩ := h
  rw [List.getElem?_append_left (List.getElem?_eq_some_iff.mp hi).1, hi]

theorem Unconfused.initial {xs ys : List ℕ} (h : Unconfused ys) (hp : xs <+: ys) :
    Unconfused xs := fun k m hk hm =>
  h k m (getElem?_of_initial hp hk) (getElem?_of_initial hp hm)

theorem Fits.initial {xs ys : List ℕ} (h : Fits ys) (hp : xs <+: ys) : Fits xs :=
  ⟨Nat.lt_of_le_of_lt hp.length_le h.1, fun n hn => h.2 n (hp.subset hn)⟩

/-- **The invariant holds at the end of every ideal run** with unconfused sizes. -/
theorem Inv.run {l : Link} {es : List Event} (h : Inv P o authKey l)
    (hfits : Fits (l.sizes ++ (plaintexts es).map List.length))
    (hu : Unconfused (l.sizes ++ (plaintexts es).map List.length))
    (hideal : IdealRun P o o' l es) : Inv P o authKey (run P o o' l es) := by
  induction es generalizing l with
  | nil => exact h
  | cons e es ih =>
    obtain ⟨he, hrest⟩ := hideal
    have hp : l.sizes <+: l.sizes ++ (plaintexts (e :: es)).map List.length :=
      List.prefix_append _ _
    cases e with
    | send plaintext =>
      have hsizes : l.sizes ++ (plaintexts (.send plaintext :: es)).map List.length
          = (step P o o' l (.send plaintext)).1.sizes ++ (plaintexts es).map List.length := by
        rw [sizes_send, List.append_assoc]
        rfl
      exact ih (h.send plaintext) (hsizes ▸ hfits) (hsizes ▸ hu) hrest
    | inject bs =>
      exact ih (l := (step P o o' l (.inject bs)).1)
        ⟨h.numbered, h.key, h.inOrder, h.next⟩ hfits hu hrest
    | recv size =>
      have hstep := h.recv size (hfits.initial hp) (hu.initial hp) he
      have hsizes : (step P o o' l (.recv size)).1.sizes = l.sizes := by
        rw [sizes, sent, sender_recv, sizes, sent]
      refine ih hstep ?_ ?_ hrest
      · rw [hsizes]; exact hfits
      · rw [hsizes]; exact hu

/-! ### Confused sizes do not -/

/-- A run of sends reaches a session with all its packets, and nothing else happens. -/
theorem run_sends {l : Link} (ps : List Bytes) (h : Crypto.Numbered P o authKey l.sender)
    (hv : l.receiver.session.hist.verified = []) :
    let l' := run P o o' l (ps.map .send)
    Crypto.Numbered P o authKey l'.sender ∧ l'.receiver = l.receiver ∧ l'.closed = l.closed ∧
      IdealRun P o o' l (ps.map .send) := by
  induction ps generalizing l with
  | nil => exact ⟨h, rfl, rfl, trivial⟩
  | cons p ps ih =>
    obtain ⟨hn, hr, hc, hm⟩ := ih (l := (step P o o' l (.send p)).1) (h.send p) hv
    refine ⟨hn, hr, hc, ?_, hm⟩
    intro bs hbs
    rw [show (step P o o' l (.send p)).1.receiver = l.receiver from rfl, hv] at hbs
    cases hbs

/-- With the same keystream byte everywhere, the payloads of a run of sends are masked copies of
the plaintexts. -/
theorem sent_sends {b : Byte} (hP : ∀ key register, keystream P key register = b) {l : Link}
    (ps : List Bytes) :
    (run P o o' l (ps.map .send)).sent = l.sent ++ ps.map fun p => p.map (· ^^^ b) := by
  induction ps generalizing l with
  | nil => simp [run]
  | cons p ps ih =>
    have hks : ∀ key, keystream P key = fun _ => b := fun key => funext fun register =>
      hP key register
    have hstep : (step P o o' l (.send p)).1.sent = l.sent ++ [p.map (· ^^^ b)] := by
      rw [sent_send, CipherCtx.encryptUpdate, hks, StreamCipher.encrypt_const]
    show (run P o o' (step P o o' l (.send p)).1 (ps.map .send)).sent = _
    rw [ih, hstep, List.append_assoc]
    rfl

/-- A receiver has a stream of packets to read of which each meets its expectations, from number
`j` on. -/
structure Awaits (P : Primitives) (o' : ByteOrder) (l : Link) (j : ℕ) (ps : List Packet) :
    Prop where
  opened : l.closed = false
  empty : l.receiver.buf.remaining = 0
  next : l.receiver.session.crypto.sequenceNumberI = counter j
  incoming : l.receiver.session.conn.incoming = ps.flatMap Packet.wire
  count : j + ps.length < 2 ^ 31
  expected : ∀ i p, ps[i]? = some p →
    Crypto.Expected P o' l.receiver.session.crypto.authKey (counter (j + i)) p

/-- One `recv` of a whole buffer accepts the first of these packets. -/
theorem Awaits.recv {l : Link} {j : ℕ} {p : Packet} {ps : List Packet}
    (h : Awaits P o' l j (p :: ps)) :
    ∃ l', (step P o o' l (.recv bufferSize)).1 = l' ∧ Awaits P o' l' (j + 1) ps ∧
      l'.sender = l.sender ∧ l'.accepted = l.accepted ++ [p.payload] ∧
      l'.receiver.session.hist.verified
        = l.receiver.session.hist.verified ++ p.macInputs o' := by
  have hcount := h.count
  rw [List.length_cons] at hcount
  have hexp := h.expected 0 p rfl
  rw [Nat.add_zero, ← h.next] at hexp
  have hseq : l.receiver.session.crypto.sequenceNumberI + 1 + 1 ≠ 0 := by
    rw [h.next, counter_succ]
    exact counter_ne_zero (Nat.succ_pos j) (by omega)
  have hin : l.receiver.session.conn.incoming = p.wire ++ ps.flatMap Packet.wire := h.incoming
  have hrecv := Crypto.recv_of_expected (e := l.receiver) bufferSize h.empty hexp hin hseq
  have hstep : (step P o o' l (.recv bufferSize)).1
      = { l with receiver := { Crypto.accept P o' l.receiver p (ps.flatMap Packet.wire) with
            buf := (Crypto.accept P o' l.receiver p (ps.flatMap Packet.wire)).buf.advance
              bufferSize } } := by
    simp only [step, h.opened, Bool.false_eq_true, if_false, hrecv, Exec.endState_ok,
      Exec.threw_ok]
  refine ⟨_, hstep, ⟨h.opened, ?_, ?_, rfl, by omega, ?_⟩, rfl, ?_, rfl⟩
  · -- a read of a whole buffer leaves nothing behind
    have hbound := hexp.bounded
    simp only [RecvBuffer.advance, RecvBuffer.count, Crypto.accept, RecvBuffer.fill,
      Crypto.plaintextOf_length]
    split <;> omega
  · show l.receiver.session.crypto.sequenceNumberI + 1 + 1 = _
    rw [h.next, counter_succ]
  · intro i q hq
    rw [show j + 1 + i = j + (i + 1) by omega]
    exact h.expected (i + 1) q hq
  · simp [accepted, Crypto.accept]

/-- **A receiver accepts a stream of packets of which each meets its expectations**, and the run
is ideal if the sender has made all the tags. -/
theorem run_recvs (ps : List Packet) {l : Link} {j : ℕ} (h : Awaits P o' l j ps)
    (hideal : Ideal o l)
    (htags : ∀ p ∈ ps, ∀ bs ∈ p.macInputs o',
      bs ∈ l.sender.hist.sent.flatMap (Packet.macInputs o)) :
    let es := List.replicate ps.length (.recv bufferSize)
    IdealRun P o o' l es ∧ (run P o o' l es).sender = l.sender ∧
      (run P o o' l es).accepted = l.accepted ++ ps.map (·.payload) := by
  induction ps generalizing l j with
  | nil => exact ⟨trivial, rfl, by simp [run]⟩
  | cons p ps ih =>
    obtain ⟨l', hstep, hl', hsender, hacc, hver⟩ := h.recv (o := o)
    have hideal' : Ideal o l' := by
      intro bs hbs
      rw [hver] at hbs
      rw [hsender]
      rcases List.mem_append.mp hbs with hbs | hbs
      · exact hideal bs hbs
      · exact htags p List.mem_cons_self bs hbs
    have htags' : ∀ q ∈ ps, ∀ bs ∈ q.macInputs o',
        bs ∈ l'.sender.hist.sent.flatMap (Packet.macInputs o) := by
      intro q hq
      rw [hsender]
      exact htags q (List.mem_cons_of_mem p hq)
    obtain ⟨hm, hs, ha⟩ := ih hl' hideal' htags'
    subst hstep
    refine ⟨⟨hideal', hm⟩, hs.trans hsender, ha.trans ?_⟩
    rw [hacc, List.append_assoc, List.map_cons, List.singleton_append]

/-- A keystream byte under which a plaintext does not become a given string. -/
theorem exists_mask {x : Bytes} (y : Bytes) (hx : x ≠ []) : ∃ b : Byte, x.map (· ^^^ b) ≠ y := by
  by_cases h : x.map (· ^^^ 0) = y
  · refine ⟨1, fun h1 => ?_⟩
    obtain ⟨a, t, rfl⟩ := List.exists_cons_of_ne_nil hx
    rw [← h1] at h
    have hhead := (List.cons.inj h).1
    have h01 : (0 : Byte) = 1 := UInt8.xor_right_inj a |>.mp hhead
    exact absurd h01 (by decide)
  · exact ⟨0, h⟩

/-- The packet with index `k`, its `SpaceCraft` and payload replaced: the new payload is the
number of the packet with index `m`, and the new tag that of the `Rocket` of that packet. -/
def forge (o : ByteOrder) (k m : ℕ) (victim donor : Packet) : Packet where
  rocket := victim.rocket
  spacecraft := ⟨donor.rocket.hmac, counter k + 1⟩
  payload := o.store (counter m)

section Forge

variable {k m : ℕ} {victim donor : Bytes} (hm : donor.length = 2 * k + 1)

include hm

/-- The bytes that the two tags of the forged packet cover are those of the two rockets. -/
theorem forge_macInputs (p : Packet) :
    (forge o k m p (Crypto.packetAt P o authKey m donor)).macInputs o
      = [p.rocket.macInput o, (Crypto.packetAt P o authKey m donor).rocket.macInput o] := by
  have hcounter : counter k + 1 = UInt32.ofNat donor.length := by
    rw [hm, counter, ← UInt32.toNat_inj, UInt32.toNat_add, UInt32.toNat_ofNat',
      UInt32.toNat_ofNat', show (1 : UInt32).toNat = 1 from rfl]
    omega
  simp only [Packet.macInputs, forge, Crypto.packetAt_rocket_macInput, SpaceCraft.macInput,
    hcounter]

/-- **The forged packet meets every expectation** of a receiver that waits for packet `k`. -/
theorem expected_forge (hk : victim.length = 4) :
    Crypto.Expected P o authKey (counter k) (forge o k m (Crypto.packetAt P o authKey k victim)
      (Crypto.packetAt P o authKey m donor)) := by
  have hmac : (forge o k m (Crypto.packetAt P o authKey k victim)
      (Crypto.packetAt P o authKey m donor)).macInputs o = _ := forge_macInputs hm _
  simp only [Packet.macInputs, List.cons.injEq, and_true] at hmac
  have hb : bufferSize = 4096 := rfl
  refine ⟨⟨rfl, ?_⟩, ?_, ?_, ?_, rfl, rfl⟩
  · rw [hmac.2]
    rfl
  · show (UInt32.ofNat victim.length).toNat = (o.store (counter m)).length
    rw [hk, ByteOrder.store_length]
    rfl
  · intro hnil
    have hlen := congrArg List.length hnil
    simp [forge] at hlen
  · simp only [forge, ByteOrder.store_length]
    omega

end Forge

/-- Primitives whose keystream is the byte `b` everywhere. -/
def masking (b : Byte) : Primitives where
  aes128 _ _ := ⟨List.replicate 16 b, by simp⟩
  hmacSha256 authKey bs := fixed 32 (bs ++ authKey.toList)

/-- The sizes of a run of sends, and the packet of each. -/
theorem packet_of_size {l : Link} (h : Crypto.Numbered P o authKey l.sender) {ps : List Bytes}
    {b : Byte} (hsent : l.sent = ps.map fun p => p.map (· ^^^ b)) {i : ℕ} {x : Bytes}
    (hx : ps[i]? = some x) :
    l.sender.hist.sent[i]? = some (Crypto.packetAt P o authKey i (x.map (· ^^^ b))) := by
  have hi : l.sent[i]? = some (x.map (· ^^^ b)) := by rw [hsent, List.getElem?_map, hx]; rfl
  rw [sent, List.getElem?_map, Option.map_eq_some_iff] at hi
  obtain ⟨q, hq, hpay⟩ := hi
  rw [hq, h.packet i q hq, hpay]

theorem mem_macInputs_rocket {p : Packet} {l : Link} (h : p ∈ l.sender.hist.sent) :
    p.rocket.macInput o ∈ l.sender.hist.sent.flatMap (Packet.macInputs o) :=
  List.mem_flatMap.mpr ⟨p, h, by simp [Packet.macInputs]⟩

@[simp] theorem plaintexts_append (es fs : List Event) :
    plaintexts (es ++ fs) = plaintexts es ++ plaintexts fs := by
  simp [plaintexts]

@[simp] theorem plaintexts_sends (ps : List Bytes) : plaintexts (ps.map .send) = ps := by
  induction ps with
  | nil => rfl
  | cons p ps ih => exact congrArg (p :: ·) ih

@[simp] theorem plaintexts_recvs (n size : ℕ) :
    plaintexts (List.replicate n (.recv size)) = [] := by
  induction n with
  | zero => rfl
  | succ n ih => exact ih

section Delivery

variable {b : Byte} {keys : SessionKeys} {l : Link} {ps : List Bytes} {k m : ℕ} {x y : Bytes}

/-- The first `k` packets that were sent, and then the packet `k` with the number of the packet `m`
as its payload. -/
def forgedStream (b : Byte) (authKey : Tag) (l : Link) (k m : ℕ) (x y : Bytes) : List Packet :=
  l.sender.hist.sent.take k ++
    [forge .little k m (Crypto.packetAt (masking b) .little authKey k (x.map (· ^^^ b)))
      (Crypto.packetAt (masking b) .little authKey m (y.map (· ^^^ b)))]

theorem length_forgedStream {authKey : Tag} (h : k ≤ l.sender.hist.sent.length) :
    (forgedStream b authKey l k m x y).length = k + 1 := by
  simp only [forgedStream, List.length_append, List.length_take, List.length_singleton]
  omega

/-- Each packet of the stream is what the receiver expects in its place. -/
theorem expected_forgedStream
    (hnum : Crypto.Numbered (masking b) .little keys.authKey l.sender)
    (hsent : l.sent = ps.map fun p => p.map (· ^^^ b))
    (hpos : ∀ p ∈ ps, 1 ≤ p.length) (hfits : Fits (ps.map List.length))
    (hk : k ≤ l.sender.hist.sent.length) (hxlen : x.length = 4) (hylen : y.length = 2 * k + 1)
    {i : ℕ} {p : Packet} (hp : (forgedStream b keys.authKey l k m x y)[i]? = some p) :
    Crypto.Expected (masking b) .little keys.authKey (counter i) p := by
  have hik : i < k + 1 := length_forgedStream hk ▸ (List.getElem?_eq_some_iff.mp hp).1
  rcases Nat.lt_or_eq_of_le (Nat.le_of_lt_succ hik) with hlt | rfl
  · have hp' : l.sender.hist.sent[i]? = some p := by
      rw [forgedStream, List.getElem?_append_left (by simp only [List.length_take]; omega),
        List.getElem?_take_of_lt hlt] at hp
      exact hp
    have hpay : p.payload ∈ l.sent := List.mem_map_of_mem (List.mem_of_getElem? hp')
    rw [hsent, List.mem_map] at hpay
    obtain ⟨z, hz, hzp⟩ := hpay
    have hzlen : p.payload.length = z.length := by rw [← hzp, List.length_map]
    rw [hnum.packet i p hp']
    refine Crypto.expected_packetAt (List.ne_nil_of_length_pos ?_) ?_
    · rw [hzlen]; exact hpos z hz
    · rw [hzlen]; exact hfits.2 _ (List.mem_map_of_mem hz)
  · rw [forgedStream, List.getElem?_append_right (by simp only [List.length_take]; omega),
      List.length_take, Nat.min_eq_left hk, Nat.sub_self] at hp
    rw [← Option.some.inj hp]
    exact expected_forge (by simpa using hylen) (by simpa using hxlen)

/-- The sender has made all tags of the stream. -/
theorem tags_forgedStream
    (hnum : Crypto.Numbered (masking b) .little keys.authKey l.sender)
    (hsent : l.sent = ps.map fun p => p.map (· ^^^ b)) (hx : ps[k]? = some x)
    (hy : ps[m]? = some y) (hylen : y.length = 2 * k + 1) {p : Packet}
    (hp : p ∈ forgedStream b keys.authKey l k m x y) {bs : Bytes} (hbs : bs ∈ p.macInputs .little) :
    bs ∈ l.sender.hist.sent.flatMap (Packet.macInputs .little) := by
  rcases List.mem_append.mp hp with hp | hp
  · exact List.mem_flatMap.mpr ⟨p, List.mem_of_mem_take hp, hbs⟩
  · rw [List.mem_singleton.mp hp, forge_macInputs (by simpa using hylen)] at hbs
    rcases List.mem_pair.mp hbs with rfl | rfl
    · exact mem_macInputs_rocket (List.mem_of_getElem? (packet_of_size hnum hsent hx))
    · exact mem_macInputs_rocket (List.mem_of_getElem? (packet_of_size hnum hsent hy))

/-- The attack on a sender that has sent everything: the attacker lets the first `k` packets
arrive and then the forged one. -/
theorem forged_delivery
    (hnum : Crypto.Numbered (masking b) .little keys.authKey l.sender)
    (hrecv : l.receiver = Endpoint.new keys) (hopen : l.closed = false)
    (hsent : l.sent = ps.map fun p => p.map (· ^^^ b))
    (hpos : ∀ p ∈ ps, 1 ≤ p.length) (hfits : Fits (ps.map List.length))
    (hx : ps[k]? = some x) (hxlen : x.length = 4)
    (hy : ps[m]? = some y) (hylen : y.length = 2 * k + 1) :
    ∃ bs n, let es := Event.inject bs :: List.replicate n (.recv bufferSize)
      IdealRun (masking b) .little .little l es ∧
      (run (masking b) .little .little l es).sent = l.sent ∧
      (run (masking b) .little .little l es).accepted
        = l.sent.take k ++ [ByteOrder.little.store (counter m)] := by
  have hcount : l.sender.hist.sent.length = ps.length := by
    have hlen := congrArg List.length hsent
    simpa [sent] using hlen
  have hklt : k < ps.length := (List.getElem?_eq_some_iff.mp hx).1
  have hbound : ps.length < 2 ^ 31 := by simpa using hfits.1
  have hk : k ≤ l.sender.hist.sent.length := by omega
  generalize hstream : forgedStream b keys.authKey l k m x y = stream
  have hlen : stream.length = k + 1 := hstream ▸ length_forgedStream hk
  let l₂ := (step (masking b) .little .little l (.inject (stream.flatMap Packet.wire))).1
  have hrec : l₂.receiver = (Endpoint.new keys).deliver (stream.flatMap Packet.wire) := by
    simp only [l₂, step, hrecv]
  have hideal : Ideal .little l₂ := by
    intro bs hbs
    rw [hrec] at hbs
    cases hbs
  have hawaits : Awaits (masking b) .little l₂ 0 stream := by
    refine ⟨hopen, by rw [hrec]; rfl, by rw [hrec]; rfl, by rw [hrec]; rfl, by omega, ?_⟩
    intro i p hp
    rw [hrec, Nat.zero_add]
    rw [← hstream] at hp
    exact expected_forgedStream hnum hsent hpos hfits hk hxlen hylen hp
  obtain ⟨hrun, hsender, haccepted⟩ := run_recvs stream hawaits hideal fun p hp bs hbs =>
    tags_forgedStream hnum hsent hx hy hylen (hstream ▸ hp) hbs
  refine ⟨stream.flatMap Packet.wire, stream.length, ⟨hideal, hrun⟩, ?_, ?_⟩
  · exact congrArg (fun s : Session => s.hist.sent.map (·.payload)) hsender
  · have hnone : l₂.accepted = [] := by rw [accepted, hrec]; rfl
    refine haccepted.trans ?_
    rw [hnone, List.nil_append, ← hstream, forgedStream, List.map_append, List.map_take]
    rfl

end Delivery

/-- **Confused sizes let a forged payload through**: for some primitives some ideal run accepts
payloads that are no prefix of those sent. -/
theorem forged_run {ps : List Bytes} (hpos : ∀ p ∈ ps, 1 ≤ p.length)
    (hfits : Fits (ps.map List.length)) (hc : ¬ Unconfused (ps.map List.length))
    (keys : SessionKeys) :
    ∃ P es, plaintexts es = ps ∧ IdealRun P .little .little (new keys []) es ∧
      ¬ (run P .little .little (new keys []) es).accepted
        <+: (run P .little .little (new keys []) es).sent := by
  simp only [Unconfused, not_forall, not_not] at hc
  obtain ⟨k, m, hk, hm⟩ := hc
  rw [List.getElem?_map, Option.map_eq_some_iff] at hk hm
  obtain ⟨x, hx, hxlen⟩ := hk
  obtain ⟨y, hy, hylen⟩ := hm
  obtain ⟨b, hb⟩ := exists_mask (ByteOrder.little.store (counter m))
    (List.ne_nil_of_length_pos (by omega : 0 < x.length))
  have hkeys : ∀ key register, keystream (masking b) key register = b := fun _ _ => rfl
  obtain ⟨hnum, hrecv, hclosed, hideal⟩ :=
    run_sends (P := masking b) (l := new keys []) ps (.new keys _) rfl
  have hsent : (run (masking b) .little .little (new keys []) (ps.map .send)).sent
      = ps.map fun p => p.map (· ^^^ b) := sent_sends hkeys ps
  obtain ⟨bs, n, hrun, hsent', hacc⟩ := forged_delivery hnum hrecv hclosed hsent hpos hfits
    hx hxlen hy hylen
  refine ⟨masking b, ps.map .send ++ .inject bs :: List.replicate n (.recv bufferSize), ?_, ?_,
    ?_⟩
  · rw [plaintexts_append, plaintexts_sends]
    exact (congrArg (ps ++ ·) (plaintexts_recvs n bufferSize)).trans (List.append_nil ps)
  · exact Machine.meets_append.mpr ⟨hideal, hrun⟩
  · intro hpre
    rw [run, Machine.run_append] at hpre
    simp only at hpre
    rw [hacc, hsent', hsent] at hpre
    -- the payloads at index `k` differ
    have hklt : k < ps.length := (List.getElem?_eq_some_iff.mp hx).1
    have hat := getElem?_of_initial (i := k) (a := ByteOrder.little.store (counter m)) hpre (by
      rw [List.getElem?_append_right (by simp), List.length_take, List.length_map,
        Nat.min_eq_left hklt.le, Nat.sub_self]
      rfl)
    rw [List.getElem?_map, hx] at hat
    exact hb (Option.some.inj hat)

/-! ### Integrity -/

/-- **Integrity of one direction.**  For payloads within the limits, the encrypted payloads that
`recv` accepts are in every ideal run a prefix of those that `send` produced, whatever the keys,
the primitives, the byte orders and the socket, if and only if the sizes are unconfused. -/
theorem integrity_iff (ps : List Bytes)
    (hsize : ∀ p ∈ ps, 1 ≤ p.length ∧ p.length ≤ bufferSize) (hn : ps.length < 2 ^ 31) :
    (∀ (P : Primitives) (o o' : ByteOrder) (k : SessionKeys) (sendRets : List ℤ)
        (es : List Event), plaintexts es = ps → IdealRun P o o' (new k sendRets) es →
          (run P o o' (new k sendRets) es).accepted <+: (run P o o' (new k sendRets) es).sent) ↔
      Unconfused (ps.map List.length) := by
  have hfits : Fits (ps.map List.length) := by
    refine ⟨by simpa using hn, fun n hmem => ?_⟩
    obtain ⟨p, hp, rfl⟩ := List.mem_map.mp hmem
    exact (hsize p hp).2
  constructor
  · intro h
    by_contra hc
    obtain ⟨P, es, hes, hideal, hnot⟩ :=
      forged_run (fun p hp => (hsize p hp).1) hfits hc (.sample 0)
    exact hnot (h P .little .little _ [] es hes hideal)
  · intro hu P o o' k sendRets es hes hideal
    have hstart : (new k sendRets).sizes ++ (plaintexts es).map List.length
        = ps.map List.length := by
      rw [hes]
      rfl
    exact ((Inv.new k sendRets).run (hstart ▸ hfits) (hstart ▸ hu) hideal).inOrder

/-- Two payloads, of four bytes and of one: the second `Rocket` announces one byte, and one is
the number of the first `SpaceCraft`. -/
def confusedPayloads : List Bytes := [[97, 98, 99, 100], [101]]

/-- The attacker lets the first packet arrive with the tag of the second `Rocket` and the number
of that `Rocket` as its payload. -/
def confusedRun : List Event :=
  let l := run .sample .little .little (new (.sample 1) []) (confusedPayloads.map .send)
  let p₀ := Crypto.packetAt .sample .little (SessionKeys.sample 1).authKey 0 (l.sent.getD 0 [])
  let p₁ := Crypto.packetAt .sample .little (SessionKeys.sample 1).authKey 1 (l.sent.getD 1 [])
  confusedPayloads.map .send ++ [.inject (forge .little 0 1 p₀ p₁).wire, .recv 4]

/-- The run is ideal, and the accepted payload was never sent. -/
theorem forged_payload_accepted :
    IdealRun .sample .little .little (new (.sample 1) []) confusedRun ∧
      plaintexts confusedRun = confusedPayloads ∧
      (run .sample .little .little (new (.sample 1) []) confusedRun).accepted = [[2, 0, 0, 0]] ∧
      ¬ (run .sample .little .little (new (.sample 1) []) confusedRun).accepted
        <+: (run .sample .little .little (new (.sample 1) []) confusedRun).sent := by
  decide +kernel

theorem integrity_two :
    (∀ (P : Primitives) (o o' : ByteOrder) (k : SessionKeys) (sendRets : List ℤ)
        (es : List Event), plaintexts es = [[97, 98], [99]] →
          IdealRun P o o' (new k sendRets) es →
          (run P o o' (new k sendRets) es).accepted
            <+: (run P o o' (new k sendRets) es).sent) ↔
      Unconfused [2, 1] :=
  integrity_iff [[97, 98], [99]] (by decide) (by decide)

end Link

end Cybrg
