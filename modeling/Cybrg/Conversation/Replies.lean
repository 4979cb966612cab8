import Cybrg.Server.Packetisation

/-!
# What the server answers

A server that reads the packets of an honest client answers as if it read their plaintexts from a
string, until its sequence numbers come to their end.

* `Crypto.sentHalf` — the sending half of a session after some packets;
* `idealPairing` — the server on `Crypto` beside the server on a string;
* `served_ideal`, `after_ideal` — what the one has sent and done, from what the other has;
* `replies` — the packets of the server, as a function of what the client has sent.
-/

namespace Cybrg

open Octets

variable {P : Primitives} {o : ByteOrder}

/-! ### Packets that are sent one after the other -/

namespace Crypto

/-- The cipher context that a session begins with. -/
def firstCtx (k : SessionKeys) : CipherCtx := ⟨k.sessionKey, k.iv⟩

/-- The packets of a session from its beginning on, on the wire. -/
def wire (P : Primitives) (o : ByteOrder) (k : SessionKeys) (ps : List Bytes) : Bytes :=
  flight P o k.authKey (firstCtx k) 0 ps

/-- The sending half of a session that has sent the plaintexts `ps`. -/
def sentHalf (P : Primitives) (o : ByteOrder) (k : SessionKeys) (ps : List Bytes) : SendHalf :=
  (k.authKey, counter ps.length, contextAfter P (firstCtx k) ps,
    onTheWay P o k.authKey (firstCtx k) 0 ps, [], wire P o k ps)

theorem flight_append_list {authKey : Tag} (c : CipherCtx) (j : ℕ) (ts us : List Bytes) :
    flight P o authKey c j (ts ++ us)
      = flight P o authKey c j ts
        ++ flight P o authKey (contextAfter P c ts) (j + ts.length) us := by
  induction ts generalizing c j with
  | nil => rfl
  | cons t ts ih =>
    rw [List.cons_append, flight, flight, ih, List.append_assoc, List.length_cons,
      show j + 1 + ts.length = j + (ts.length + 1) by omega]
    rfl

theorem wire_append (k : SessionKeys) (ps qs : List Bytes) :
    wire P o k (ps ++ qs) = wire P o k ps
      ++ flight P o k.authKey (contextAfter P (firstCtx k) ps) ps.length qs := by
  rw [wire, wire, flight_append_list, Nat.zero_add]

/-- A packet has at least one byte on the wire. -/
theorem length_le_wire (k : SessionKeys) (ps : List Bytes) :
    ps.length ≤ (wire P o k ps).length := by
  suffices h : ∀ c j, ps.length ≤ (flight P o k.authKey c j ps).length from h _ _
  intro c j
  induction ps generalizing c j with
  | nil => exact Nat.zero_le _
  | cons p ps ih =>
    have hrest := ih (c.encryptUpdate P p).2 (j + 1)
    have hrocket : (packetAt P o k.authKey j (c.encryptUpdate P p).1).rocket.wire.length
        = sizeofRocket := (packetAt P o k.authKey j (c.encryptUpdate P p).1).rocket.wire_length
    have hsize : sizeofRocket = 40 := rfl
    rw [flight, List.length_append, Packet.wire, List.length_append, List.length_append,
      List.length_cons]
    omega

/-- A session after it has built the packets of `ps`. -/
def sealedAll (P : Primitives) (o : ByteOrder) (s : Session) (ps : List Bytes) : Session :=
  ps.foldl (sealed P o) s

/-- **A packet that is sent** is the next one of its session; the call returns unless its number is
the last. -/
theorem send_sentHalf {k : SessionKeys} {ps : List Bytes} {s : Session}
    (h : Station.sendHalf s = sentHalf P o k ps) {plaintext : Bytes} (hne : plaintext ≠ []) :
    ∃ n s', Station.sendHalf s' = sentHalf P o k (ps ++ [plaintext]) ∧
      (send P o plaintext).run s =
        if counter (ps.length + 1) ≠ 0 then .ok n s'
        else .error (.exSeqNumOverflow "Crypto::send(): sequence number overflow") s' := by
  simp only [Station.sendHalf, sentHalf, Prod.mk.injEq] at h
  obtain ⟨hkey, hseq, hctx, hsent, hrets, hout⟩ := h
  obtain ⟨n, hrun⟩ := send_lossless_run (P := P) (o := o) hrets hne
  have hpacket : packetOf P o s.crypto plaintext = packetAt P o k.authKey (0 + ps.length)
      ((contextAfter P (firstCtx k) ps).encryptUpdate P plaintext).1 := by
    rw [packetOf, packetAt, hkey, hseq, hctx, Nat.zero_add]
  rw [hseq, counter_succ] at hrun
  refine ⟨n, _, ?_, hrun⟩
  simp only [Station.sendHalf, sentHalf, sealed, Connection.put, Prod.mk.injEq]
  refine ⟨hkey, ?_, ?_, ?_, hrets, ?_⟩
  · rw [hseq, counter_succ, List.length_append, List.length_singleton]
  · rw [hctx, contextAfter_append]
  · rw [hsent, hpacket, onTheWay_append]
  · rw [hout, hpacket, wire, wire, flight_append]

end Crypto

/-- More packets on the way. -/
theorem Duplex.Direction.extend {authKey : Tag} {a : Session} {b : Endpoint}
    {sent ts ps : List Bytes} {got : Bytes} {j : ℕ}
    (h : Duplex.Direction P o authKey a b sent got ts j) (hfits : ∀ p ∈ ps, Fits p) :
    Duplex.Direction P o authKey (Crypto.sealedAll P o a ps)
      (b.deliver (Crypto.flight P o authKey a.crypto.ctxE (j + ts.length) ps)) (sent ++ ps) got
      (ts ++ ps) j := by
  induction ps generalizing a b sent ts with
  | nil =>
    rw [List.append_nil, List.append_nil, Crypto.flight]
    refine h.of_eq rfl rfl rfl rfl rfl rfl rfl rfl ?_ rfl
    exact List.append_nil _
  | cons p ps ih =>
    obtain ⟨hpos, hle⟩ := hfits p List.mem_cons_self
    have hgo := ih (h.send (List.ne_nil_of_length_pos hpos) hle)
      fun q hq => hfits q (List.mem_cons_of_mem p hq)
    have hpacket : Crypto.packetOf P o a.crypto p
        = Crypto.packetAt P o authKey (j + ts.length) (a.crypto.ctxE.encryptUpdate P p).1 := by
      rw [Crypto.packetOf, Crypto.packetAt, h.keySender, h.nextOut]
    rw [← Endpoint.deliver_append, hpacket, List.append_assoc, List.append_assoc,
      List.length_append, List.length_singleton, ← Nat.add_assoc] at hgo
    exact hgo

theorem Crypto.sealedAll_ctxE (s : Session) (ps : List Bytes) :
    (Crypto.sealedAll P o s ps).crypto.ctxE = Crypto.contextAfter P s.crypto.ctxE ps := by
  induction ps generalizing s with
  | nil => rfl
  | cons p ps ih => exact ih (Crypto.sealed P o s p)

theorem Crypto.sealedAll_append (s : Session) (ps qs : List Bytes) :
    Crypto.sealedAll P o s (ps ++ qs) = Crypto.sealedAll P o (Crypto.sealedAll P o s ps) qs :=
  List.foldl_append

/-- More packets on the way: what can be read now, and what could be read before. -/
theorem Duplex.Holding.extend {authKey : Tag} {a : Session} {sent ps : List Bytes} {s : Bytes}
    {b : Endpoint} (h : Duplex.Holding P o authKey a sent s b) (hfits : ∀ p ∈ ps, Fits p) :
    ∃ s' got, Duplex.Holding P o authKey (Crypto.sealedAll P o a ps) (sent ++ ps) s'
        (b.deliver (Crypto.flight P o authKey a.crypto.ctxE sent.length ps)) ∧
      got ++ s = (Duplex.readable 0 sent).flatten ∧
      got ++ s' = (Duplex.readable 0 (sent ++ ps)).flatten := by
  obtain ⟨got, done, ts, rfl, hd, hj, rfl⟩ := h
  have hlater := hd.extend hfits
  rw [← List.length_append] at hlater
  have hsent : done ++ ts ++ ps = done ++ (ts ++ ps) := List.append_assoc done ts ps
  exact ⟨_, got, ⟨got, done, ts ++ ps, hsent, hlater, hj, rfl⟩, hd.total rfl hj,
    hlater.total hsent hj⟩

/-! ### A server on a string -/

/-- A server on `Crypto` sends as one on a string, until it is out of numbers.  What it still has to
read stays when it sends. -/
theorem crypto_sendsAlike_string (P : Primitives) (o : ByteOrder) (k : SessionKeys)
    {holds : Bytes → Endpoint → Prop}
    (hsend : ∀ {s : Bytes} {b : Endpoint} (plaintext : Bytes), holds s b →
      holds s { b with session := Exec.endState ((Crypto.send P o plaintext).run b.session) }) :
    (Transport.crypto P o).SendsAlike holds Endpoint.sendHalf
      Transport.plain (fun s l => l = s) (fun _ => ())
      (fun ps half _ => half = Crypto.sentHalf P o k ps ∧ ps.length < 2 ^ 31)
      fun ps half => half = Crypto.sentHalf P o k ps ∧ ps.length = 2 ^ 31 := by
  intro ps s s' plaintext hne b l hb
  obtain ⟨hs, rfl, hhalf, hcount⟩ := hb
  obtain ⟨n, t, ht, hrun⟩ := Crypto.send_sentHalf hhalf hne
  have hheld := hsend plaintext hs
  have hlen : (ps ++ [plaintext]).length = ps.length + 1 := List.length_append
  have hzero := counter_eq_zero_iff (Nat.succ_pos ps.length) hcount
  rw [crypto_send_run]
  by_cases hlast : counter (ps.length + 1) ≠ 0
  · rw [if_pos hlast] at hrun
    rw [hrun] at hheld ⊢
    refine ⟨hheld, rfl, ht, ?_⟩
    have hne' : ps.length + 1 ≠ 2 ^ 31 := fun h => hlast (hzero.mpr h)
    omega
  · rw [if_neg hlast] at hrun
    rw [hrun]
    exact ⟨ht, hlen.trans (hzero.mp (not_not.mp hlast))⟩

theorem crypto_sendsAlike_plain (P : Primitives) (o : ByteOrder) (k : SessionKeys) (a : Session)
    (sent : List Bytes) :
    (Transport.crypto P o).SendsAlike (Duplex.Holding P o k.authKey a sent) Endpoint.sendHalf
      Transport.plain (fun s l => l = s) (fun _ => ())
      (fun ps half _ => half = Crypto.sentHalf P o k ps ∧ ps.length < 2 ^ 31)
      fun ps half => half = Crypto.sentHalf P o k ps ∧ ps.length = 2 ^ 31 :=
  crypto_sendsAlike_string P o k fun plaintext h => h.send plaintext

namespace ServerClient

/-- A server on `Crypto` beside a server on a string. -/
def idealPairing (P : Primitives) (o : ByteOrder) (k : SessionKeys) (a : Session)
    (sent : List Bytes) : Pairing Endpoint SendHalf Bytes Unit where
  t := Transport.crypto P o
  holds := Duplex.Holding P o k.authKey a sent
  half := Endpoint.sendHalf
  carries := crypto_carries P o k.authKey a sent
  t' := Transport.plain
  holds' s l := l = s
  half' _ := ()
  carries' := plain_carries
  same ps half _ := half = Crypto.sentHalf P o k ps ∧ ps.length < 2 ^ 31
  spent ps half := half = Crypto.sentHalf P o k ps ∧ ps.length = 2 ^ 31
  sends := crypto_sendsAlike_plain P o k a sent

/-- The server of a session when its client has sent the packets `us`. -/
def Client.reached (c : Client Unit) (P : Primitives) (o : ByteOrder) (k : SessionKeys)
    (us : List Bytes) : Client Endpoint :=
  c.connected k [] (Crypto.wire P o k us)

/-- At the beginning the two servers are beside each other. -/
theorem beside_reached (k : SessionKeys) {us : List Bytes} (hfits : ∀ p ∈ us, Fits p)
    (hcount : us.length < 2 ^ 31) {c : Client Unit} (hc : c.packets = []) :
    Beside (idealPairing P o k (Crypto.sealedAll P o (Session.new k) us) us) []
      (c.reached P o k us) (c.withLink us.flatten) := by
  have hnew : Duplex.Direction P o k.authKey (Session.new k) (Endpoint.new k) [] [] [] 0 := .new k
  have hdir := hnew.extend hfits
  rw [List.nil_append] at hdir
  have hpackets : (c.reached P o k us).packets = [] := hc
  refine ⟨⟨rfl, ?_⟩, us.flatten, ⟨[], [], us, rfl, ?_, by decide, ?_⟩, ?_⟩
  · rw [hpackets]
    exact ⟨rfl, by decide⟩
  · exact hdir.of_eq rfl rfl rfl rfl rfl rfl rfl rfl rfl rfl
  · have hread : Duplex.readable 0 us = us := List.take_of_length_le (by omega)
    rw [List.length_nil, hread]
    exact List.nil_append _
  · exact (List.append_nil _).symm

/-- A server on `Crypto` has sent what one on a string has, or the first `2 ^ 31` packets of it. -/
structure Answered (P : Primitives) (o : ByteOrder) (k : SessionKeys) (d : Client Endpoint)
    (d' : Client Bytes) : Prop where
  half : d.link.sendHalf = Crypto.sentHalf P o k d.packets
  sent : d.packets <+: d'.packets
  same : d.packets.length = 2 ^ 31 ∨ d.rest = d'.rest ∧ d.packets.length < 2 ^ 31

theorem Answered.of_alike {k : SessionKeys} {a : Session} {us : List Bytes} {d : Client Endpoint}
    {d' : Client Bytes} (h : Alike (idealPairing P o k a us) d d') : Answered P o k d d' := by
  obtain ⟨hrest, hhalf, hlt⟩ := h
  have hpackets : d.packets = d'.packets := congrArg Client.packets hrest
  exact ⟨hhalf, hpackets ▸ List.prefix_rfl, .inr ⟨hrest, hlt⟩⟩

theorem Answered.of_overtaken {k : SessionKeys} {a : Session} {us : List Bytes}
    {d : Client Endpoint} {d' : Client Bytes} (h : Overtaken (idealPairing P o k a us) [] d d') :
    Answered P o k d d' := by
  obtain ⟨hbegin, hmore | ⟨hhalf, hlast⟩⟩ := h
  · exact absurd rfl hmore
  · exact ⟨hhalf, hbegin, .inl hlast⟩

/-- **What a server has sent after some rounds**, beside one that reads the same from a string. -/
theorem served_ideal (k : SessionKeys) {us : List Bytes} (hfits : ∀ p ∈ us, Fits p)
    (hcount : us.length < 2 ^ 31) {c : Client Unit} (hc : c.packets = []) (n : ℕ) :
    Answered P o k (Exec.endState ((serve (.crypto P o) n).run (c.reached P o k us)))
      (Exec.endState ((serve .plain n).run (c.withLink us.flatten))) := by
  have hbeside := beside_reached (P := P) (o := o) k hfits hcount hc
  have hserve : Follows (idealPairing P o k (Crypto.sealedAll P o (Session.new k) us) us) []
      (serve (.crypto P o) n) (serve .plain n) := serve_follows n
  cases hr : (serve (.crypto P o) n).run (c.reached P o k us) with
  | ok u d =>
    obtain ⟨u', d', hr', -, hend⟩ := hserve.both.of_ok hbeside hr
    rw [hr']
    exact .of_alike hend.1
  | error e d =>
    rcases hserve.both.of_error hbeside hr with ⟨e', d', hr', hparted⟩ | ⟨u', d', hr', hend⟩
    · rw [hr']
      exact hparted.elim .of_overtaken .of_alike
    · rw [hr']
      exact .of_overtaken hend

/-- **Where a server has come**, if one that reads the same from a string has sent fewer than
`2 ^ 31` packets. -/
theorem after_ideal (k : SessionKeys) {us : List Bytes} (hfits : ∀ p ∈ us, Fits p)
    (hcount : us.length < 2 ^ 31) {c : Client Unit} (hc : c.packets = []) {n : ℕ}
    {d' : Client Bytes} (h : Loop.after .plain n ⟨true, c.withLink us.flatten⟩ = ⟨true, d'⟩)
    (hlt : d'.packets.length < 2 ^ 31) :
    ∃ d, Loop.after (.crypto P o) n ⟨true, c.reached P o k us⟩ = ⟨true, d⟩ ∧
      Beside (idealPairing P o k (Crypto.sealedAll P o (Session.new k) us) us) [] d d' := by
  have hbeside := beside_reached (P := P) (o := o) k hfits hcount hc
  have hnot : ∀ d, ¬ Overtaken
      (idealPairing P o k (Crypto.sealedAll P o (Session.new k) us) us) [] d d' := by
    intro d hover
    have hlen := hover.1.length_le
    have hfull : d.packets.length = 2 ^ 31 := (hover.2.resolve_left fun h => h rfl).2
    omega
  obtain ⟨d, hd, hend⟩ := after_leads hbeside h hnot
  exact ⟨d, hd, hend⟩

/-! ### Longer streams -/

/-- Two servers on strings. -/
def plainPairing : Pairing Bytes Unit Bytes Unit where
  t := .plain
  holds s l := l = s
  half _ := ()
  carries := plain_carries
  t' := .plain
  holds' s l := l = s
  half' _ := ()
  carries' := plain_carries
  same _ _ _ := True
  spent _ _ := False
  sends := fun _ _ _ _ _ _ _ h => h

theorem iteration_grows : Grows (iteration .plain) := by
  have hround : Follows plainPairing [] (iteration .plain) (iteration .plain) := iteration_follows
  exact hround.grows []

/-- What a server on a string has sent after `n` rounds. -/
def plainPackets (c : Client Unit) (n : ℕ) (u : Bytes) : List Bytes :=
  (Loop.after .plain n ⟨true, c.withLink u⟩).client.packets

theorem plainPackets_eq (c : Client Unit) (n : ℕ) (u : Bytes) :
    (Exec.endState ((serve .plain n).run (c.withLink u))).packets = plainPackets c n u :=
  congrArg Client.packets (serve_eq_run .plain n _)

/-- More rounds on a longer string: what was sent before is sent again. -/
theorem plainPackets_mono (c : Client Unit) {n m : ℕ} (hnm : n ≤ m) (u more : Bytes) :
    plainPackets c n u <+: plainPackets c m (u ++ more) := by
  have hserve : Follows plainPairing more (serve .plain n) (serve .plain n) := serve_follows n
  have hbeside : Beside plainPairing more (c.withLink u) (c.withLink (u ++ more)) :=
    ⟨⟨rfl, trivial⟩, u, rfl, rfl⟩
  have hlonger : plainPackets c n u <+: plainPackets c n (u ++ more) := by
    rw [← plainPackets_eq, ← plainPackets_eq]
    have halike : ∀ {d d' : Client Bytes}, Alike plainPairing d d' → d.packets <+: d'.packets := by
      intro d d' h
      have hpackets : d.rest.packets = d'.rest.packets := congrArg Client.packets h.1
      show d.rest.packets <+: d'.rest.packets
      rw [hpackets]
    cases hr : (serve .plain n).run (c.withLink u) with
    | ok _ d =>
      obtain ⟨_, d', hr', -, hend⟩ := hserve.both.of_ok hbeside hr
      rw [hr']
      exact halike hend.1
    | error e d =>
      rcases hserve.both.of_error hbeside hr with ⟨e', d', hr', hend⟩ | ⟨_, d', hr', hend⟩
      · rw [hr']
        exact hend.elim (fun h => h.1) halike
      · rw [hr']
        exact hend.1
  obtain ⟨more', rfl⟩ := Nat.exists_eq_add_of_le hnm
  refine hlonger.trans ?_
  rw [plainPackets, plainPackets, Loop.after_add]
  exact Loop.after_packets iteration_grows more' _

/-! ### The replies of a session -/

/-- The packets of the server when the client has sent the packets `us`. -/
def replies (P : Primitives) (o : ByteOrder) (k : SessionKeys) (c : Client Unit)
    (us : List Bytes) : List Bytes :=
  (Exec.endState ((serve (.crypto P o) ((Crypto.wire P o k us).length + 1)).run
    (c.reached P o k us))).packets

theorem replies_ideal (k : SessionKeys) {us : List Bytes} (hfits : ∀ p ∈ us, Fits p)
    (hcount : us.length < 2 ^ 31) {c : Client Unit} (hc : c.packets = []) :
    replies P o k c us <+: plainPackets c ((Crypto.wire P o k us).length + 1) us.flatten ∧
      ((replies P o k c us).length = 2 ^ 31 ∨ (replies P o k c us).length < 2 ^ 31 ∧
        replies P o k c us = plainPackets c ((Crypto.wire P o k us).length + 1) us.flatten) := by
  have h := served_ideal (P := P) (o := o) k hfits hcount hc ((Crypto.wire P o k us).length + 1)
  rw [← plainPackets_eq]
  refine ⟨h.sent, h.same.imp id fun hsame => ⟨hsame.2, ?_⟩⟩
  have hpackets := congrArg Client.packets hsame.1
  exact hpackets

/-- **What the server has answered stays**, whatever the client sends next. -/
theorem replies_mono (k : SessionKeys) {us vs : List Bytes} (hfits : ∀ p ∈ us ++ vs, Fits p)
    (hcount : (us ++ vs).length < 2 ^ 31) {c : Client Unit} (hc : c.packets = []) :
    replies P o k c us <+: replies P o k c (us ++ vs) := by
  have hfits' : ∀ p ∈ us, Fits p := fun p hp => hfits p (List.mem_append_left vs hp)
  have hcount' : us.length < 2 ^ 31 := by
    rw [List.length_append] at hcount
    omega
  obtain ⟨hideal, hends⟩ := replies_ideal (P := P) (o := o) k hfits' hcount' hc
  obtain ⟨hideal', hends'⟩ := replies_ideal (P := P) (o := o) k hfits hcount hc
  have hrounds : (Crypto.wire P o k us).length + 1 ≤ (Crypto.wire P o k (us ++ vs)).length + 1 := by
    rw [Crypto.wire_append, List.length_append]
    omega
  have hlonger := plainPackets_mono c hrounds us.flatten vs.flatten
  rw [← List.flatten_append] at hlonger
  have hboth := hideal.trans hlonger
  rcases hends' with hfull | ⟨-, hall⟩
  · refine List.prefix_of_prefix_length_le hboth hideal' ?_
    rw [hfull]
    rcases hends with h | h
    · exact h.le
    · exact h.1.le
  · rw [hall]
    exact hboth

end ServerClient

end Cybrg
