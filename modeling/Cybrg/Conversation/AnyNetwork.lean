import Cybrg.Conversation.Replies
import Cybrg.Sessions.Authentic
import Cybrg.Sessions.Integrity

/-!
# A server whose network belongs to an attacker

Any bytes can reach the server of a session: what the client has sent, cut short, in another order,
with bytes in between, or anything else.

* `any_network` — as long as its packets fit, the server does what a server on a string does with the
  authentic bytes, and what it writes to the network are its own packets;
* `OnlyTagsOf` — the tags that one end finds right are tags that the other one has made;
* `authentic_of_sealed`, `authentic_of_tags` — then the authentic bytes are the beginning of what the
  client has sent;
* `Guarded` — the same for one direction of a session;
* `commands_authentic` — so the server carries out what the client has asked for, in this order, up to
  some point, and nothing else.
-/

namespace Cybrg

open Octets

variable {P : Primitives} {o o' : ByteOrder}

namespace ServerClient

/-! ### Any bytes -/

/-- A server on `Crypto` at any end beside a server on a string. -/
def authenticPairing (P : Primitives) (o : ByteOrder) (k : SessionKeys) :
    Pairing Endpoint SendHalf Bytes Unit where
  t := Transport.crypto P o
  holds := Endpoint.Authentic P o
  half := Endpoint.sendHalf
  carries := authentic_carries P o
  t' := Transport.plain
  holds' s l := l = s
  half' _ := ()
  carries' := plain_carries
  same ps half _ := half = Crypto.sentHalf P o k ps ∧ ps.length < 2 ^ 31
  spent ps half := half = Crypto.sentHalf P o k ps ∧ ps.length = 2 ^ 31
  sends := crypto_sendsAlike_string P o k fun plaintext h => h.send plaintext

/-- The bytes that are authentic when `wire` reaches a fresh end of a session. -/
def authenticBytes (P : Primitives) (o : ByteOrder) (k : SessionKeys) (wire : Bytes) : Bytes :=
  (Endpoint.new k { incoming := wire }).authentic P o

/-- The server on any end beside the server on the authentic bytes. -/
theorem answered_authentic (P : Primitives) (o : ByteOrder) (k : SessionKeys) (wire : Bytes)
    {c : Client Unit} (hc : c.packets = []) (n : ℕ) :
    Answered P o k (Exec.endState ((serve (.crypto P o) n).run (c.connected k [] wire)))
      (Exec.endState ((serve .plain n).run (c.withLink (authenticBytes P o k wire)))) := by
  let d := authenticPairing P o k
  have hbeside : Beside d [] (c.connected k [] wire) (c.withLink (authenticBytes P o k wire)) := by
    refine ⟨⟨rfl, ?_⟩, authenticBytes P o k wire, ⟨.initial, rfl⟩, (List.append_nil _).symm⟩
    have hpackets : (c.connected k [] wire).packets = [] := hc
    rw [hpackets]
    exact ⟨rfl, by decide⟩
  have hserve : Follows d [] (serve (.crypto P o) n) (serve .plain n) := serve_follows n
  -- this pairing compares the sending halves as that of an honest client does
  have halike : ∀ {x : Client Endpoint} {y : Client Bytes}, Alike d x y → Answered P o k x y :=
    fun {x y} h => @Answered.of_alike P o k (Session.new k) [] x y h
  have hover : ∀ {x : Client Endpoint} {y : Client Bytes}, Overtaken d [] x y → Answered P o k x y :=
    fun {x y} h => @Answered.of_overtaken P o k (Session.new k) [] x y h
  cases hr : (serve (.crypto P o) n).run (c.connected k [] wire) with
  | ok u x =>
    obtain ⟨u', y, hr', -, hend⟩ := hserve.both.of_ok hbeside hr
    rw [hr']
    exact halike hend.1
  | error e x =>
    rcases hserve.both.of_error hbeside hr with ⟨e', y, hr', hparted⟩ | ⟨u', y, hr', hend⟩
    · rw [hr']
      exact hparted.elim hover halike
    · rw [hr']
      exact hover hend

/-- **Any network.**  Whatever bytes reach the server of a session, after any number of rounds in which
nothing is to be sent that is longer than the array of `Crypto::send`, it has given `Crypto::send` what
a server on a string gives it that reads the authentic bytes, or the first `2 ^ 31` packets of it; these
packets fit, and they are all that it has written to the network; and before they are used up both
servers have run the same handlers and have the same files. -/
theorem any_network (P : Primitives) (o : ByteOrder) (k : SessionKeys) (wire : Bytes)
    (c : Client Unit) (hc : c.packets = []) (n : ℕ) :
    let d := Exec.endState ((serve (.crypto P o) n).run (c.connected k [] wire))
    let d' := Exec.endState ((serve .plain n).run (c.withLink (authenticBytes P o k wire)))
    (∀ p ∈ d'.packets, p.length ≤ bufferSize) →
      d.packets <+: d'.packets ∧ (∀ p ∈ d.packets, p.length ≤ bufferSize) ∧
        d.packets.length ≤ 2 ^ 31 ∧ d.link.session.conn.outgoing = Crypto.wire P o k d.packets ∧
        (d.packets.length < 2 ^ 31 → d.rest = d'.rest) := by
  intro d d' hfits
  have h := answered_authentic P o k wire hc n
  have hhalf := h.half
  simp only [Endpoint.sendHalf, Station.sendHalf, Crypto.sentHalf, Prod.mk.injEq] at hhalf
  refine ⟨h.sent, fun p hp => hfits p (h.sent.subset hp), ?_, hhalf.2.2.2.2.2, fun hlt => ?_⟩
  · rcases h.same with hfull | ⟨-, hlt⟩
    · exact hfull.le
    · exact hlt.le
  · rcases h.same with hfull | ⟨hrest, -⟩
    · exact absurd hfull hlt.ne
    · exact hrest

/-- Of two requests the second one is cut short on the way, and the first one comes again. -/
def cutWire : Bytes :=
  (wireOf .sample .little (.sample 1) [text "STOR b\nSize: 4\n\nword", text "DELE b\n\n"]).take 120
    ++ wireOf .sample .little (.sample 1) [text "STOR b\nSize: 4\n\nword"]

theorem any_network_cut :
    let d := Exec.endState ((serve (.crypto .sample .little) 3).run
      (oneFile.connected (.sample 1) [] cutWire))
    let d' := Exec.endState ((serve .plain 3).run
      (oneFile.withLink (authenticBytes .sample .little (.sample 1) cutWire)))
    d.packets <+: d'.packets ∧ (∀ p ∈ d.packets, p.length ≤ bufferSize) ∧
      d.packets.length ≤ 2 ^ 31 ∧
      d.link.session.conn.outgoing = Crypto.wire .sample .little (.sample 1) d.packets ∧
      (d.packets.length < 2 ^ 31 → d.rest = d'.rest) :=
  any_network .sample .little (.sample 1) cutWire oneFile rfl 3 (by decide +kernel)

end ServerClient

/-! ### What a client has sealed -/

namespace Crypto

/-- What a client has built when it has made some calls of `send`, the last of which may have
thrown. -/
theorem sends_sealed (s : Session) (ps : List Bytes) :
    ∃ qs conn, qs <+: ps ∧ Exec.endState ((ps.mapM (send P o)).run s)
      = { sealedAll P o s qs with conn := conn } := by
  induction ps generalizing s with
  | nil => exact ⟨[], s.conn, List.prefix_rfl, rfl⟩
  | cons p ps ih =>
    obtain ⟨c, -, hend⟩ := send_cases P o p s
    rw [List.mapM_cons]
    cases hr : (send P o p).run s with
    | error e t =>
      rw [hr] at hend
      refine ⟨[p], c, ⟨ps, rfl⟩, ?_⟩
      rw [Exec.bind_of_error hr]
      exact hend
    | ok n t =>
      rw [hr] at hend
      obtain ⟨qs, conn, hqs, hrest⟩ := ih t
      have ht : sealedAll P o t qs = { sealedAll P o s (p :: qs) with
          conn := (sealedAll P o t qs).conn } := by
        rw [show t = { sealed P o s p with conn := c } from hend]
        have hconn : ∀ (us : List Bytes) (x : Session), sealedAll P o { x with conn := c } us
            = { sealedAll P o x us with conn := (sealedAll P o { x with conn := c } us).conn } := by
          intro us
          induction us with
          | nil => exact fun _ => rfl
          | cons u us ih => exact fun x => ih (sealed P o x u)
        exact hconn qs _
      refine ⟨p :: qs, conn, List.cons_prefix_cons.mpr ⟨rfl, hqs⟩, ?_⟩
      rw [Exec.bind_of_ok hr]
      have hstate : Exec.endState (((ps.mapM (send P o)) >>= fun ns => pure (n :: ns)).run t)
          = Exec.endState ((ps.mapM (send P o)).run t) := by
        cases hm : (ps.mapM (send P o)).run t with
        | ok ns u =>
          rw [Exec.bind_of_ok hm]
          rfl
        | error e u => rw [Exec.bind_of_error hm]
      rw [hstate, hrest, ht]

/-- The encrypted payloads of a session are its plaintexts, encrypted as one stream. -/
theorem sealedAll_payloads (s : Session) (ps : List Bytes) :
    ((sealedAll P o s ps).hist.sent.map Packet.payload).flatten
      = (s.hist.sent.map Packet.payload).flatten ++ (s.crypto.ctxE.encryptUpdate P ps.flatten).1 := by
  induction ps generalizing s with
  | nil => exact (List.append_nil _).symm
  | cons p ps ih =>
    have hstep := ih (sealed P o s p)
    show ((sealedAll P o (sealed P o s p) ps).hist.sent.map Packet.payload).flatten = _
    rw [hstep, List.flatten_cons]
    simp only [sealed, List.map_append, List.map_cons, List.map_nil, List.flatten_append,
      List.flatten_singleton, packetOf_payload, CipherCtx.encryptUpdate,
      StreamCipher.encrypt_append, List.append_assoc]

theorem sealedAll_sizes (s : Session) (ps : List Bytes) :
    ((sealedAll P o s ps).hist.sent.map Packet.payload).map List.length
      = (s.hist.sent.map Packet.payload).map List.length ++ ps.map List.length := by
  induction ps generalizing s with
  | nil => exact (List.append_nil _).symm
  | cons p ps ih =>
    have hstep := ih (sealed P o s p)
    show ((sealedAll P o (sealed P o s p) ps).hist.sent.map Packet.payload).map List.length = _
    rw [hstep]
    simp [sealed]

theorem Numbered.sealedAll {authKey : Tag} {s : Session} (h : Numbered P o authKey s)
    (ps : List Bytes) : Numbered P o authKey (Crypto.sealedAll P o s ps) := by
  induction ps generalizing s with
  | nil => exact h
  | cons p ps ih => exact ih (h.sealed p)

/-- The packets of a session are numbered from its beginning on. -/
theorem sealedAll_sent (k : SessionKeys) (conn : Connection) (ps : List Bytes) :
    (sealedAll P o (Session.new k conn) ps).hist.sent = onTheWay P o k.authKey (firstCtx k) 0 ps := by
  induction ps using List.reverseRecOn with
  | nil => rfl
  | append_singleton ps p ih =>
    have hnumbered := (Numbered.new (P := P) (o := o) k conn).sealedAll ps
    have hlength := congrArg List.length (sealedAll_sizes (P := P) (o := o) (Session.new k conn) ps)
    have hcount : (sealedAll P o (Session.new k conn) ps).hist.sent.length = ps.length := by
      simpa [Session.new] using hlength
    rw [sealedAll_append, onTheWay_append, ← ih, Nat.zero_add, ← hcount]
    show (sealed P o _ p).hist.sent = _
    rw [sealed, hnumbered.packetOf, sealedAll_ctxE]
    rfl

end Crypto

/-- What is decrypted of the beginning of a ciphertext is the beginning of the plaintext. -/
theorem CipherCtx.decrypt_part (ctx : CipherCtx) {plaintext part : Bytes}
    (h : part <+: (ctx.encryptUpdate P plaintext).1) :
    (ctx.decryptUpdate P part).1 <+: plaintext := by
  obtain ⟨rest, hrest⟩ := h
  have hall := congrArg Prod.fst (CipherCtx.decrypt_encrypt P ctx plaintext)
  rw [← hrest, CipherCtx.decryptUpdate_append] at hall
  exact ⟨_, hall⟩

/-! ### Whose tags are found right -/

namespace ServerClient

/-- Every tag that the other end finds right when `wire` reaches it is the tag of a string that the end
`a` has tagged.  So no tag is forged; and as both ends have one key, none is a tag of the other end
itself that comes back to it. -/
def OnlyTagsOf (P : Primitives) (o o' : ByteOrder) (k : SessionKeys) (a : Session) (wire : Bytes) :
    Prop :=
  ∀ p ∈ (Session.new k { incoming := wire }).accepts P o', ∀ bs ∈ p.macInputs o',
    bs ∈ a.hist.sent.flatMap (Packet.macInputs o)

instance (P : Primitives) (o o' : ByteOrder) (k : SessionKeys) (a : Session) (wire : Bytes) :
    Decidable (OnlyTagsOf P o o' k a wire) :=
  inferInstanceAs (Decidable (∀ p ∈ (Session.new k { incoming := wire }).accepts P o',
    ∀ bs ∈ p.macInputs o', bs ∈ a.hist.sent.flatMap (Packet.macInputs o)))

/-- **The packets that are accepted** go on with the payloads of the client where those before them
have stopped. -/
theorem arriving_in_order {authKey : Tag} {a : Session} {b : Endpoint}
    (h : Link.Inv P o authKey { sender := a, receiver := b })
    (hfits : Link.Fits (a.hist.sent.map Packet.payload |>.map List.length))
    (hu : Link.Unconfused (a.hist.sent.map Packet.payload |>.map List.length)) (n : ℕ)
    (hideal : ∀ p ∈ b.session.arriving P o' n, ∀ bs ∈ p.macInputs o',
      bs ∈ a.hist.sent.flatMap (Packet.macInputs o)) :
    b.session.hist.accepted.map (·.packet.payload) ++ (b.session.arriving P o' n).map Packet.payload
      <+: a.hist.sent.map Packet.payload := by
  induction n generalizing b with
  | zero =>
    show _ ++ [] <+: _
    rw [List.append_nil]
    exact h.inOrder
  | succ n ih =>
    cases hr : (Crypto.receivePacket P o').run b.session with
    | error x t =>
      rw [Session.arriving, hr, List.map_nil, List.append_nil]
      exact h.inOrder
    | ok p t =>
      obtain ⟨he, rest, hwire, -⟩ := Crypto.receivePacket_ok hr
      rw [Session.arriving_of_expected n he hwire] at hideal ⊢
      split at hideal
      · rename_i hseq
        rw [if_pos hseq, List.map_nil, List.append_nil]
        exact h.inOrder
      · rename_i hseq
        rw [if_neg hseq]
        have hnext := h.next_payload rfl hfits hu he (hideal p List.mem_cons_self)
        -- the end after this packet
        have hinv : Link.Inv P o authKey
            { sender := a, receiver := Crypto.accept P o' b p rest } := by
          refine ⟨h.numbered, h.key, ?_, fun _ => ?_⟩
          · simpa [Link.accepted, Link.sent, Crypto.accept] using Link.inOrder_snoc h.inOrder hnext
          · simp only [Crypto.accept, Link.accepted, List.map_append, List.map_cons, List.map_nil,
              List.length_append, List.length_singleton]
            rw [h.next rfl, counter_succ, Link.accepted]
        have hsame : (Crypto.accept P o' b p rest).session.arriving P o' n
            = (Crypto.received o' b.session p rest).arriving P o' n :=
          @Session.arriving_congr P o' (Crypto.accept P o' b p rest).session
            (Crypto.received o' b.session p rest) rfl rfl rfl n
        have hrest := ih hinv fun q hq => hideal q (List.mem_cons_of_mem p (hsame ▸ hq))
        rw [hsame, Crypto.accept, List.map_append, List.append_assoc] at hrest
        exact hrest

/-- **The authentic bytes are the beginning of what was sealed**, if the tags are all of this end and
the sizes of the packets cannot be confused. -/
theorem authentic_of_sealed (k : SessionKeys) (conn : Connection) {qs : List Bytes}
    (hfits : ∀ p ∈ qs, p.length ≤ bufferSize) (hcount : qs.length < 2 ^ 31)
    (hu : Link.Unconfused (qs.map List.length)) {wire : Bytes}
    (hideal : OnlyTagsOf P o o' k (Crypto.sealedAll P o (Session.new k conn) qs) wire) :
    authenticBytes P o' k wire <+: qs.flatten := by
  have hsizes := Crypto.sealedAll_sizes (P := P) (o := o) (Session.new k conn) qs
  have hpayloads := Crypto.sealedAll_payloads (P := P) (o := o) (Session.new k conn) qs
  have hnumbered := (Crypto.Numbered.new (P := P) (o := o) k conn).sealedAll qs
  have hlinkfits : Link.Fits (qs.map List.length) := by
    refine ⟨by rw [List.length_map]; exact hcount, fun m hm => ?_⟩
    obtain ⟨p, hp, rfl⟩ := List.mem_map.mp hm
    exact hfits p hp
  have hinv : Link.Inv P o k.authKey {
      sender := Crypto.sealedAll P o (Session.new k conn) qs
      receiver := Endpoint.new k { incoming := wire } } :=
    ⟨hnumbered, rfl, List.nil_prefix, fun _ => rfl⟩
  obtain ⟨more, hmore⟩ := arriving_in_order hinv (hsizes ▸ hlinkfits) (hsizes ▸ hu) _ hideal
  have hbegin : ((Session.new k { incoming := wire }).accepts P o').flatMap Packet.payload
      <+: ((Session.new k conn).crypto.ctxE.encryptUpdate P qs.flatten).1 := by
    refine ⟨more.flatten, ?_⟩
    have hflat := congrArg List.flatten hmore
    rw [List.flatten_append] at hflat
    exact hflat.trans hpayloads
  exact CipherCtx.decrypt_part _ hbegin

/-- What a client has sealed whose calls of `send` are `ps`. -/
theorem authentic_of_tags (k : SessionKeys) (rets : List ℤ) {ps : List Bytes}
    (hfits : ∀ p ∈ ps, Cybrg.Fits p) (hcount : ps.length < 2 ^ 31)
    (hu : Link.Unconfused (ps.map List.length)) {wire : Bytes}
    (hideal : OnlyTagsOf P o o' k
      (Exec.endState ((ps.mapM (Crypto.send P o)).run (Session.new k { sendRets := rets }))) wire) :
    authenticBytes P o' k wire <+: ps.flatten := by
  obtain ⟨qs, conn, hqs, hend⟩ := Crypto.sends_sealed (P := P) (o := o)
    (Session.new k { sendRets := rets }) ps
  rw [hend] at hideal
  have hpart := authentic_of_sealed k { sendRets := rets }
    (fun p hp => (hfits p (hqs.subset hp)).2) (hqs.length_le.trans_lt hcount)
    (hu.initial (hqs.map _)) hideal
  exact hpart.trans hqs.flatten

/-- **One direction of a session**: an end has sent the packets `ps`, which are not too long and whose
sizes cannot be confused, its numbers are not used up, and the other end finds no tag right that it has
not made. -/
structure Guarded (P : Primitives) (o o' : ByteOrder) (k : SessionKeys) (e : Endpoint)
    (ps : List Bytes) (wire : Bytes) : Prop where
  fits : ∀ p ∈ ps, p.length ≤ bufferSize
  count : ps.length < 2 ^ 31
  sizes : Link.Unconfused (ps.map List.length)
  unforged : OnlyTagsOf P o o' k e.session wire

/-- The other end reads a part of what was sent. -/
theorem Guarded.part {k : SessionKeys} {e : Endpoint} {ps : List Bytes} {wire : Bytes}
    (h : Guarded P o o' k e ps wire) (hhalf : e.sendHalf = Crypto.sentHalf P o k ps) :
    authenticBytes P o' k wire <+: ps.flatten := by
  obtain ⟨hfits, hcount, hsizes, hunforged⟩ := h
  simp only [Endpoint.sendHalf, Station.sendHalf, Crypto.sentHalf, Prod.mk.injEq] at hhalf
  have hsent : e.session.hist.sent = (Crypto.sealedAll P o (Session.new k {}) ps).hist.sent :=
    hhalf.2.2.2.1.trans (Crypto.sealedAll_sent k {} ps).symm
  exact authentic_of_sealed k {} hfits hcount hsizes fun p hp bs hbs =>
    hsent ▸ hunforged p hp bs hbs

/-- **Commands are authentic.**  A client makes its calls of `Crypto::send`, each with 1 to
`BUFFER_SIZE` bytes, the last of which may throw; the bytes that reach the server are any bytes at
all.  If all tags that the server finds right are the client's and the sizes cannot be confused, the
server does what a server on a string does that reads a beginning of what the client has sent, as long
as nothing is to be sent that is longer than the array of `Crypto::send`. -/
theorem commands_authentic (P : Primitives) (o o' : ByteOrder) (k : SessionKeys) (rets : List ℤ)
    {ps : List Bytes} (hfits : ∀ p ∈ ps, Cybrg.Fits p) (hcount : ps.length < 2 ^ 31)
    (hu : Link.Unconfused (ps.map List.length)) {wire : Bytes}
    (hideal : OnlyTagsOf P o o' k
      (Exec.endState ((ps.mapM (Crypto.send P o)).run (Session.new k { sendRets := rets }))) wire)
    (c : Client Unit) (hc : c.packets = []) :
    authenticBytes P o' k wire <+: ps.flatten ∧ ∀ n,
      let d := Exec.endState ((serve (.crypto P o') n).run (c.connected k [] wire))
      let d' := Exec.endState ((serve .plain n).run (c.withLink (authenticBytes P o' k wire)))
      (∀ p ∈ d'.packets, p.length ≤ bufferSize) →
        Answered P o' k d d' ∧ ∀ p ∈ d.packets, p.length ≤ bufferSize := by
  refine ⟨authentic_of_tags k rets hfits hcount hu hideal, ?_⟩
  intro n d d' hreplies
  have h := answered_authentic P o' k wire hc n
  exact ⟨h, fun p hp => hreplies p (h.sent.subset hp)⟩

theorem commands_authentic_cut :
    let d := Exec.endState ((serve (.crypto .sample .little) 3).run
      (oneFile.connected (.sample 1) [] cutWire))
    let d' := Exec.endState ((serve .plain 3).run
      (oneFile.withLink (authenticBytes .sample .little (.sample 1) cutWire)))
    authenticBytes .sample .little (.sample 1) cutWire
        <+: [text "STOR b\nSize: 4\n\nword", text "DELE b\n\n"].flatten ∧
      Answered .sample .little (.sample 1) d d' ∧ ∀ p ∈ d.packets, p.length ≤ bufferSize := by
  have hfits : ∀ p ∈ [text "STOR b\nSize: 4\n\nword", text "DELE b\n\n"], Cybrg.Fits p := by decide
  have hu : Link.Unconfused ([text "STOR b\nSize: 4\n\nword", text "DELE b\n\n"].map List.length) :=
    fun k m hk _ => absurd (List.mem_of_getElem? hk) (by decide)
  have htags : OnlyTagsOf .sample .little .little (.sample 1) (Exec.endState
      (([text "STOR b\nSize: 4\n\nword", text "DELE b\n\n"].mapM (Crypto.send .sample .little)).run
        (Session.new (.sample 1) {}))) cutWire := by
    decide +kernel
  obtain ⟨hpart, hserver⟩ := commands_authentic .sample .little .little (.sample 1) [] hfits
    (by decide) hu htags oneFile rfl
  exact ⟨hpart, hserver 3 (by decide +kernel)⟩

end ServerClient

end Cybrg
