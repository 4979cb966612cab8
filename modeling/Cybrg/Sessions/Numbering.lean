import Cybrg.Common.SecureLayer

/-!
# The numbering of packets

A session that has built `n` packets has its sending counter at `2 * n`, and the packet with
index `i` carries the numbers `2 * i` and `2 * i + 1`.  This file says so once, for all results
about runs:

* `counter` — the value of a counter after `n` packets, injective below `2 ^ 31`;
* `packetAt` / `Numbered` — the packet of an index, and a session whose packets are these;
* `Numbered.sealed`, `Numbered.send` — sending keeps the numbering;
* `Packet.wire_append_inj` — a stream of packets can be cut into packets in one way only;
* `macInput` lemmas — when the tag of one header covers the bytes of another.
-/

namespace Cybrg

open Octets

/-- The two ends of a session. -/
inductive Side where
  | client
  | server
  deriving DecidableEq, Repr

def Side.other : Side → Side
  | client => server
  | server => client

@[simp] theorem Side.other_other (side : Side) : side.other.other = side := by
  cases side <;> rfl

@[simp] theorem Side.other_ne (side : Side) : side.other ≠ side := by
  cases side <;> decide

theorem Side.eq_or_other (i side : Side) : i = side ∨ i = side.other := by
  cases i <;> cases side <;> simp [other]

/-! ### Counters -/

/-- A counter after `n` packets. -/
def counter (n : ℕ) : UInt32 := UInt32.ofNat (2 * n)

theorem counter_succ (n : ℕ) : counter n + 1 + 1 = counter (n + 1) := by
  simp only [counter, ← UInt32.toNat_inj, UInt32.toNat_add, UInt32.toNat_ofNat',
    UInt32.reduceToNat]
  omega

theorem toNat_counter {n : ℕ} (h : n < 2 ^ 31) : (counter n).toNat = 2 * n := by
  rw [counter, UInt32.toNat_ofNat', Nat.mod_eq_of_lt (by omega)]

theorem toNat_counter_add_one {n : ℕ} (h : n < 2 ^ 31) : (counter n + 1).toNat = 2 * n + 1 := by
  rw [UInt32.toNat_add, toNat_counter h, show (1 : UInt32).toNat = 1 from rfl,
    Nat.mod_eq_of_lt (by omega)]

theorem counter_inj {m n : ℕ} (hm : m < 2 ^ 31) (hn : n < 2 ^ 31) (h : counter m = counter n) :
    m = n := by
  have he := congrArg UInt32.toNat h
  rw [toNat_counter hm, toNat_counter hn] at he
  omega

theorem counter_add_one_inj {m n : ℕ} (hm : m < 2 ^ 31) (hn : n < 2 ^ 31)
    (h : counter m + 1 = counter n + 1) : m = n := by
  have he := congrArg UInt32.toNat h
  rw [toNat_counter_add_one hm, toNat_counter_add_one hn] at he
  omega

theorem counter_ne_zero {n : ℕ} (hpos : 0 < n) (h : n < 2 ^ 31) : counter n ≠ 0 := by
  intro h0
  have he := congrArg UInt32.toNat h0
  rw [toNat_counter h, show (0 : UInt32).toNat = 0 from rfl] at he
  omega

/-! ### The packets of a session -/

namespace Crypto

variable {P : Primitives} {o : ByteOrder} {authKey : Tag}

/-- The packet with index `i` around an encrypted payload. -/
def packetAt (P : Primitives) (o : ByteOrder) (authKey : Tag) (i : ℕ) (enc : Bytes) : Packet :=
  packetWith P o authKey (counter i) enc

@[simp] theorem packetAt_payload (i : ℕ) (enc : Bytes) :
    (packetAt P o authKey i enc).payload = enc := rfl

@[simp] theorem packetAt_rocketSeq (i : ℕ) (enc : Bytes) :
    (packetAt P o authKey i enc).rocket.sequenceNumber = counter i := rfl

theorem packetAt_rocket_macInput (i : ℕ) (enc : Bytes) :
    (packetAt P o authKey i enc).rocket.macInput o
      = o.store (UInt32.ofNat enc.length) ++ o.store (counter i) := rfl

theorem packetAt_spacecraft_macInput (i : ℕ) (enc : Bytes) :
    (packetAt P o authKey i enc).spacecraft.macInput o enc
      = o.store (counter i + 1) ++ enc := rfl

theorem expected_packetAt {i : ℕ} {enc : Bytes} (hne : enc ≠ [])
    (hle : enc.length ≤ bufferSize) :
    Expected P o authKey (counter i) (packetAt P o authKey i enc) :=
  expected_packetWith hne hle

/-- A session whose packets are numbered in the order in which they were built, its counter
being at the next number. -/
structure Numbered (P : Primitives) (o : ByteOrder) (authKey : Tag) (s : Session) : Prop where
  key : s.crypto.authKey = authKey
  next : s.crypto.sequenceNumberO = counter s.hist.sent.length
  packet : ∀ i p, s.hist.sent[i]? = some p → p = packetAt P o authKey i p.payload

theorem Numbered.new (k : SessionKeys) (conn : Connection) :
    Numbered P o k.authKey (Session.new k conn) :=
  ⟨rfl, rfl, fun i p h => by simp [Session.new] at h⟩

/-- Every packet of a numbered session has an index. -/
theorem Numbered.index {s : Session} (h : Numbered P o authKey s) {p : Packet}
    (hp : p ∈ s.hist.sent) :
    ∃ i, i < s.hist.sent.length ∧ s.hist.sent[i]? = some p ∧
      p = packetAt P o authKey i p.payload := by
  obtain ⟨i, hi⟩ := List.mem_iff_getElem?.mp hp
  exact ⟨i, (List.getElem?_eq_some_iff.mp hi).1, hi, h.packet i p hi⟩

/-- The packet that `send` builds is the next one. -/
theorem Numbered.packetOf {s : Session} (h : Numbered P o authKey s) (plaintext : Bytes) :
    Crypto.packetOf P o s.crypto plaintext
      = packetAt P o authKey s.hist.sent.length (s.crypto.ctxE.encryptUpdate P plaintext).1 := by
  rw [Crypto.packetOf, packetAt, h.key, h.next]

/-- Building a packet keeps the numbering. -/
theorem Numbered.sealed {s : Session} (h : Numbered P o authKey s) (plaintext : Bytes) :
    Numbered P o authKey (sealed P o s plaintext) := by
  refine ⟨h.key, ?_, ?_⟩
  · show s.crypto.sequenceNumberO + 1 + 1 = counter (s.hist.sent ++ [_]).length
    rw [h.next, counter_succ, List.length_append, List.length_singleton]
  · intro i p hp
    rw [Crypto.sealed] at hp
    simp only [List.getElem?_append] at hp
    split at hp
    · exact h.packet i p hp
    · rename_i hi
      obtain ⟨h0, rfl⟩ := List.getElem?_eq_some_iff.mp hp
      have hlen : i = s.hist.sent.length := by
        simp only [List.length_singleton] at h0
        omega
      rw [List.getElem_singleton, hlen]
      exact h.packetOf plaintext

/-- The numbering depends only on the object and on what it has built. -/
theorem Numbered.of_eq {s t : Session} (h : Numbered P o authKey s)
    (hk : t.crypto.authKey = s.crypto.authKey)
    (hn : t.crypto.sequenceNumberO = s.crypto.sequenceNumberO)
    (hs : t.hist.sent = s.hist.sent) : Numbered P o authKey t :=
  ⟨hk.trans h.key, by rw [hn, hs]; exact h.next, by rw [hs]; exact h.packet⟩

/-- **Sending keeps the numbering**, however the call ends. -/
theorem Numbered.send {s : Session} (h : Numbered P o authKey s) (plaintext : Bytes) :
    Numbered P o authKey (Exec.endState ((Crypto.send P o plaintext).run s)) := by
  obtain ⟨c, -, hend⟩ := send_cases P o plaintext s
  rw [hend]
  exact (h.sealed plaintext).of_eq rfl rfl rfl

end Crypto

/-! ### Cutting a stream into packets -/

/-- **A packet is recognised at the beginning of a stream**, if its header announces its size. -/
theorem Packet.wire_append_inj {p q : Packet} {r s : Bytes}
    (hp : p.rocket.payloadSize.toNat = p.payload.length)
    (hq : q.rocket.payloadSize.toNat = q.payload.length)
    (h : p.wire ++ r = q.wire ++ s) : p = q ∧ r = s := by
  simp only [Packet.wire, List.append_assoc] at h
  obtain ⟨hr, h⟩ := List.append_inj h (by simp)
  obtain ⟨hs, h⟩ := List.append_inj h (by simp)
  have hrocket : p.rocket = q.rocket := by
    rw [← Rocket.ofImage_wire .big p.rocket, hr, Rocket.ofImage_wire]
  have hcraft : p.spacecraft = q.spacecraft := by
    rw [← SpaceCraft.ofImage_wire .big p.spacecraft, hs, SpaceCraft.ofImage_wire]
  have hlen : p.payload.length = q.payload.length := by
    rw [← hp, ← hq, hrocket]
  obtain ⟨hpay, hrest⟩ := List.append_inj h hlen
  obtain ⟨pr, ps, pp⟩ := p
  obtain ⟨qr, qs, qp⟩ := q
  simp only at hrocket hcraft hpay
  subst hrocket hcraft hpay
  exact ⟨rfl, hrest⟩

end Cybrg
