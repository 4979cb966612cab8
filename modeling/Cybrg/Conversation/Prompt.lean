import Cybrg.Conversation.Settled
import Cybrg.Conversation.Talk

/-!
# The client between two lines

The client sends a request, reads the reply and comes back to its prompt.

* `Awaiting` — what the server has sent in the end, and what of it is still to be read;
* `awaiting_carries`, `Awaiting.send` — reading and sending;
* `Reply`, `Request.reply` — every request of the client is replied to;
* `AtPrompt` — everything was answered and was read;
* `request_run`, `body_run` — a request, the header of its reply, and the body;
* `cmdDele_run`, `cmdRemoteList_run`, `cmdRetr_refused`, `cmdRetr_run` — `rm`, `rls` and `get`.
-/

namespace Cybrg

open Octets Streams Files
open ServerClient hiding onLink onHost sendCmd onLink_of_ok onHost_of_ok

variable {P : Primitives} {o : ByteOrder}

/-- The client has sent the packets `us`, the server comes to have sent the packets `ps`, and the
bytes `s` of them are still to be read. -/
structure Awaiting (P : Primitives) (o : ByteOrder) (k : SessionKeys)
    (c₀ : ServerClient.Client Unit) (us ps : List Bytes) (s : Bytes) (x : Talk) : Prop where
  conversing : Conversing P o k c₀ us s x
  owes : Owes c₀ us ps
  fits : ∀ p ∈ ps, Fits p

section Awaiting

variable {k : SessionKeys} {c₀ : ServerClient.Client Unit} {us ps : List Bytes} {s : Bytes} {x : Talk}

/-- What the server has sent in the end, as far as it has numbers. -/
theorem replies_of_owes (hfresh : c₀.packets = []) (hfits : ∀ p ∈ us, Fits p)
    (hcount : us.length < 2 ^ 31) (howes : Owes c₀ us ps) :
    replies P o k c₀ us <+: ps ∧
      ((replies P o k c₀ us).length = 2 ^ 31 ∨
        (replies P o k c₀ us).length < 2 ^ 31 ∧ replies P o k c₀ us = ps) := by
  have hideal := replies_ideal (P := P) (o := o) k hfits hcount hfresh
  have hlen := Crypto.length_le_wire (P := P) (o := o) k us
  rwa [howes _ (Nat.succ_le_succ hlen)] at hideal

theorem readable_of_owes (hfresh : c₀.packets = []) (hfits : ∀ p ∈ us, Fits p)
    (hcount : us.length < 2 ^ 31) (howes : Owes c₀ us ps) :
    readableReplies P o k c₀ us = (Duplex.readable 0 ps).flatten := by
  obtain ⟨hbegin, hend⟩ :=
    replies_of_owes (P := P) (o := o) (k := k) hfresh hfits hcount howes
  rw [readableReplies]
  rcases hend with hfull | ⟨-, hall⟩
  · rw [List.prefix_iff_eq_take.mp hbegin, hfull, Duplex.readable, Duplex.readable,
      List.take_take, Nat.min_eq_left (by omega)]
  · rw [hall]

theorem readable_append (ps qs : List Bytes) :
    Duplex.readable 0 (ps ++ qs) = Duplex.readable 0 ps ++ Duplex.readable ps.length qs :=
  List.take_append

/-- **The client reads what the server owes.** -/
theorem awaiting_carries (P : Primitives) (o : ByteOrder) (k : SessionKeys)
    (c₀ : ServerClient.Client Unit) (us ps : List Bytes) :
    (Transport.talk P o).Carries (Awaiting P o k c₀ us ps) fun _ => () := by
  have hcarries := talk_carries P o k c₀ us
  constructor
  · intro s x n h hne hn
    obtain ⟨m, x', hpos, hle, hlen, hrun, hx', -⟩ := hcarries.recv h.conversing hne hn
    exact ⟨m, x', hpos, hle, hlen, hrun, ⟨hx', h.owes, h.fits⟩, rfl⟩
  · intro x n h hn
    exact hcarries.ended h.conversing hn

/-- **The client sends a packet**, and the server owes what it answers. -/
theorem Awaiting.send (h : Awaiting P o k c₀ us ps s x) {p : Bytes} (hp : Fits p) {qs : List Bytes}
    (howes : Owes c₀ (us ++ [p]) (ps ++ qs)) (hqs : ∀ q ∈ qs, Fits q) :
    if us.length + 1 < 2 ^ 31 then
      ∃ n x', ((Transport.talk P o).send p).run x = .ok n x' ∧
        Awaiting P o k c₀ (us ++ [p]) (ps ++ qs) (s ++ (Duplex.readable ps.length qs).flatten) x'
    else ∃ e x', ((Transport.talk P o).send p).run x = .error e x' := by
  have hfresh := h.conversing.fresh
  have hall : ∀ q ∈ ps ++ qs, Fits q := by
    intro q hq
    rcases List.mem_append.mp hq with hq | hq
    · exact h.fits q hq
    · exact hqs q hq
  have hus : ∀ q ∈ us ++ [p], Fits q := by
    intro q hq
    rcases List.mem_append.mp hq with hq | hq
    · exact h.conversing.fits q hq
    · rw [List.mem_singleton.mp hq]
      exact hp
  have hcount : us.length + 1 < 2 ^ 31 → (us ++ [p]).length < 2 ^ 31 := by
    rw [List.length_append, List.length_singleton]
    exact id
  have hsend := h.conversing.send hp fun hlt q hq => hall q
    ((replies_of_owes (P := P) (o := o) (k := k) hfresh hus (hcount hlt) howes).1.subset hq)
  split at hsend
  · rename_i hlt
    obtain ⟨n, x', s', hrun, hconversing, got, hbefore, hafter⟩ := hsend
    rw [readable_of_owes hfresh h.conversing.fits h.conversing.count h.owes] at hbefore
    rw [readable_of_owes hfresh hus (hcount hlt) howes, readable_append, List.flatten_append,
      ← hbefore, List.append_assoc] at hafter
    rw [List.append_cancel_left hafter] at hconversing
    rw [if_pos hlt]
    exact ⟨n, x', hrun, hconversing, howes, hall⟩
  · rename_i hlast
    rw [if_neg hlast]
    exact hsend

/-- If all bytes of some packets can be read, all of the packets can. -/
theorem length_of_readable {j : ℕ} {qs : List Bytes} (hqs : ∀ q ∈ qs, Fits q)
    (h : qs.flatten.length ≤ (Duplex.readable j qs).flatten.length) :
    qs.length ≤ 2 ^ 31 - 1 - j := by
  by_contra hlt
  have hsplit : qs.flatten.length = (Duplex.readable j qs).flatten.length
      + (qs.drop (2 ^ 31 - 1 - j)).flatten.length := by
    rw [← List.length_append, Duplex.readable, ← List.flatten_append, List.take_append_drop]
  have hrest : (qs.drop (2 ^ 31 - 1 - j)).flatten ≠ [] := by
    cases hd : qs.drop (2 ^ 31 - 1 - j) with
    | nil => exact absurd (List.drop_eq_nil_iff.mp hd) (by omega)
    | cons q rest =>
      have hq : Fits q := hqs q (List.mem_of_mem_drop (hd ▸ List.mem_cons_self))
      rw [List.flatten_cons]
      exact List.append_ne_nil_of_left_ne_nil (List.ne_nil_of_length_pos hq.1) _
  have hpos := List.length_pos_iff.mpr hrest
  omega

/-- All of a body has been read. -/
theorem drained {n : ℕ} (hn : n + 1 < 2 ^ 31) {qs : List Bytes} (hqs : ∀ q ∈ qs, Fits q) {m : ℕ}
    (hm : m ≤ (Duplex.readable (n + 1) qs).flatten.length) (hall : qs.flatten.length ≤ m) :
    (Duplex.readable (n + 1) qs).flatten.drop m = [] ∧ n + 1 + qs.length < 2 ^ 31 := by
  have hle : (Duplex.readable (n + 1) qs).flatten.length ≤ qs.flatten.length :=
    ((List.take_prefix _ _).flatten).length_le
  have hlen := length_of_readable hqs (hall.trans hm)
  exact ⟨List.drop_of_length_le (by omega), by omega⟩

end Awaiting

/-! ### Requests -/

/-- A request that the server replies to with the header `q` and the packets `qs` of a body. -/
structure Reply (c : ServerClient.Client Unit) (p q : Bytes) (qs : List Bytes) : Prop where
  request : Fits p
  header : ∀ s, Transport.scanHeader (q ++ s) = some (q, s)
  packets : ∀ r ∈ q :: qs, Fits r
  owes : ∀ c₀ us, Settled c₀ us c → Owes c₀ (us ++ [p]) (c.packets ++ q :: qs)

section Reply

variable {c c₁ : ServerClient.Client Unit} {name : Bytes} {size : ℤ}

/-- A round that answers a request. -/
theorem owes_of_answers {p q : Bytes} {qs : List Bytes} (h : Answers c p (q :: qs) c₁) :
    ∀ c₀ us, Settled c₀ us c → Owes c₀ (us ++ [p]) (c.packets ++ q :: qs) := by
  intro c₀ us hsettled
  have hone : Answers c [p].flatten (q :: qs) c₁ := by
    rw [List.flatten_singleton]
    exact h
  rw [← h.packets]
  exact (hsettled.answers (List.cons_ne_nil _ _) hone).owes

/-- A reply without a body. -/
theorem Reply.status {p : Bytes} (hp : Fits p) {status : Status}
    (howes : ∀ c₀ us, Settled c₀ us c → Owes c₀ (us ++ [p]) (c.packets ++ [status.reply])) :
    Reply c p status.reply [] := by
  refine ⟨hp, Transport.scanHeader_reply status, fun r hr => ?_, howes⟩
  rw [List.mem_singleton.mp hr]
  exact status.reply_fits

/-- A size with a body behind it. -/
theorem Reply.body {p : Bytes} (hp : Fits p) (hsize : size.natAbs < 10 ^ 20) {qs : List Bytes}
    (hqs : ∀ r ∈ qs, Fits r) (h : Answers c p (sizeReply size :: qs) c₁) :
    Reply c p (sizeReply size) qs := by
  refine ⟨hp, Transport.scanHeader_sizeReply hsize, fun r hr => ?_, owes_of_answers h⟩
  rcases List.mem_cons.mp hr with rfl | hr
  · exact sizeReply_fits hsize
  · exact hqs r hr

/-- The packets of a body fit. -/
theorem bodyPackets_fits (content : Bytes) : ∀ p ∈ bodyPackets content, Fits p := by
  let c : ServerClient.Client Bytes := { link := [], host := { store := { entries := [], nodup := List.nodup_nil } } }
  obtain ⟨hchunks, hrest⟩ := (retrLoop_fits content 0).of_ok
    (by exact ⟨fun p hp => (nomatch hp), rfl⟩) (retrLoop_plain content 0 c)
  intro p hp
  rcases List.mem_append.mp hp with hp | hp
  · exact hchunks p hp
  · unfold packetsOf at hp
    split at hp
    · cases hp
    · rename_i hne
      rw [List.mem_singleton.mp hp]
      exact ⟨List.length_pos_iff.mpr hne, hrest⟩

/-- The body of a listing. -/
theorem packetsOf_fits {bs : Bytes} (h : bs.length ≤ bufferSize) : ∀ p ∈ packetsOf bs, Fits p := by
  intro p hp
  unfold packetsOf at hp
  split at hp
  · cases hp
  · rename_i hne
    rw [List.mem_singleton.mp hp]
    exact ⟨List.length_pos_iff.mpr hne, h⟩

/-! ### The client's requests -/

/-- A request that the client sends: its text leaves room in the buffer, and so does the listing that
it asks for. -/
inductive Request (h : Host) : Bytes → Prop
  | list : (∀ names, lists h = some names → (listing names).length ≤ bufferSize) →
      Request h (text "LIST\n\n")
  | retr {name : Bytes} : Word name → name ≠ [] → (ClientMain.retrText name).length < bufferSize →
      Request h (ClientMain.retrText name)
  | dele {name : Bytes} : Word name → name ≠ [] → (ClientMain.deleText name).length < bufferSize →
      Request h (ClientMain.deleText name)
  | stor {name : Bytes} {size : ℤ} : Word name → -2 ^ 63 ≤ size → size ≤ maxFileSize →
      (ClientMain.storText name size).length < bufferSize → Request h (ClientMain.storText name size)

theorem fits_listText : Fits (text "LIST\n\n") := by decide

/-- A text with a newline at its end. -/
theorem fits_of_text {bs : Bytes} (h : (bs ++ newline).length < bufferSize) : Fits (bs ++ newline) :=
  ClientMain.fits_of_newline h.le

section

variable (hos : c.os = [])

include hos

theorem Reply.dele (hname : Word name) (hne : name ≠ [])
    (hfits : (ClientMain.deleText name).length < bufferSize) :
    Reply c (ClientMain.deleText name) (deleted c.host (upToZero name)).1.reply [] := by
  obtain ⟨c₁, hanswers, -⟩ := dele_answers hos hname hne hfits
  exact .status (fits_of_text hfits) (owes_of_answers hanswers)

theorem Reply.retr_refused (hname : Word name) (hne : name ≠ [])
    (hfits : (ClientMain.retrText name).length < bufferSize)
    (h : (opened c.host (upToZero name)).1 = none) :
    Reply c (ClientMain.retrText name) Status.badFile.reply [] := by
  obtain ⟨c₁, hanswers, -⟩ := ServerClient.retr_refused hos hname hne hfits h
  exact .status (fits_of_text hfits) (owes_of_answers hanswers)

theorem Reply.retr (hname : Word name) (hne : name ≠ [])
    (hfits : (ClientMain.retrText name).length < bufferSize) {node : Node}
    (h : (opened c.host (upToZero name)).1 = some node) :
    Reply c (ClientMain.retrText name)
      (sizeReply ((opened c.host (upToZero name)).2.contents node).2)
      (bodyPackets (readableOf (opened c.host (upToZero name)).2 node)) := by
  obtain ⟨c₁, hanswers, -⟩ := retr_answers hos hname hne hfits h
  exact .body (fits_of_text hfits) (Host.contents_end_lt _ _) (bodyPackets_fits _) hanswers

theorem Reply.list_refused (h : lists c.host = none) :
    Reply c (text "LIST\n\n") Status.serverError.reply [] := by
  obtain ⟨c₁, hanswers, -⟩ := list_answers hos
  rw [h] at hanswers
  exact .status fits_listText (owes_of_answers hanswers)

theorem Reply.list {names : List Name} (h : lists c.host = some names)
    (hlen : (listing names).length ≤ bufferSize) :
    Reply c (text "LIST\n\n") (sizeReply (listing names).length) (packetsOf (listing names)) := by
  obtain ⟨c₁, hanswers, -⟩ := list_answers hos
  have hb : bufferSize = 4096 := rfl
  have hmod : ((listing names).length : ℤ) % 2 ^ 64 = (listing names).length := by omega
  rw [h, listPackets, hmod] at hanswers
  exact .body fits_listText (by omega) (packetsOf_fits hlen) hanswers

section

variable (hname : Word name) (hlo : -2 ^ 63 ≤ size) (hhi : size ≤ maxFileSize)
  (hfits : (ClientMain.storText name size).length < bufferSize)

include hname hlo hhi hfits

theorem Reply.stor_refused (h : destination c.host name = none) :
    ∃ status : Status, status ≠ .ok ∧ Reply c (ClientMain.storText name size) status.reply [] := by
  obtain ⟨status, c₁, hstatus, hanswers, -⟩ :=
    ServerClient.stor_refused hos hname hlo hhi hfits h
  exact ⟨status, hstatus, .status (fits_of_text hfits) (owes_of_answers hanswers)⟩

/-- **An upload**, with as much of the body as the client has sent. -/
theorem stor_owes {path : Path} (h : destination c.host name = some path)
    {c₀ : ServerClient.Client Unit} {us vs : List Bytes} (hsettled : Settled c₀ us c)
    (hvs : vs.flatten.length ≤ size.toNat) :
    Owes c₀ (us ++ ClientMain.storText name size :: vs) (c.packets ++ [Status.ok.reply]) := by
  rcases hvs.lt_or_eq with hlt | heq
  · obtain ⟨e, d, hrun, hpackets⟩ := stor_waits hos hname hlo hhi hfits h hlt
    rw [← hpackets]
    exact hsettled.owes_waiting (by rw [List.flatten_cons]; exact hrun)
  · have hstored := stor_stored hos hname hlo hhi hfits h heq
    rw [← List.flatten_cons] at hstored
    have howes := (hsettled.answers (List.cons_ne_nil _ _) hstored).owes
    rwa [hstored.packets] at howes

theorem Reply.stor {path : Path} (h : destination c.host name = some path) :
    Reply c (ClientMain.storText name size) Status.ok.reply [] := by
  have hnone : ([] : List Bytes).flatten.length ≤ size.toNat := Nat.zero_le _
  exact .status (fits_of_text hfits) fun _ _ hsettled =>
    stor_owes hos hname hlo hhi hfits h hsettled hnone

end

/-- **Every request of the client is replied to.** -/
theorem Request.reply {p : Bytes} (h : Request c.host p) : ∃ q qs, Reply c p q qs := by
  cases h with
  | list hlist =>
    cases hnames : lists c.host with
    | none => exact ⟨_, _, .list_refused hos hnames⟩
    | some names => exact ⟨_, _, .list hos hnames (hlist names hnames)⟩
  | retr hname hne hfits =>
    rename_i name
    cases hnode : (opened c.host (upToZero name)).1 with
    | none => exact ⟨_, _, .retr_refused hos hname hne hfits hnode⟩
    | some node => exact ⟨_, _, .retr hos hname hne hfits hnode⟩
  | dele hname hne hfits => exact ⟨_, _, .dele hos hname hne hfits⟩
  | stor hname hlo hhi hfits =>
    rename_i name size
    cases hpath : destination c.host name with
    | none =>
      obtain ⟨status, -, hreply⟩ := Reply.stor_refused hos hname hlo hhi hfits hpath
      exact ⟨_, _, hreply⟩
    | some path => exact ⟨_, _, .stor hos hname hlo hhi hfits hpath⟩

end

end Reply

/-! ### The client at its prompt -/

namespace ClientMain

/-- The server has answered everything and has become `c`, and the client has read the answers. -/
structure AtPrompt (P : Primitives) (o : ByteOrder) (k : SessionKeys)
    (c₀ c : ServerClient.Client Unit) (g : Globals Talk) : Prop where
  awaiting : Awaiting P o k c₀ g.packets c.packets [] g.link
  settled : Settled c₀ g.packets c
  count : c.packets.length < 2 ^ 31

variable {k : SessionKeys} {c₀ c c₁ : ServerClient.Client Unit} {g g' : Globals Talk}

/-- Only what was sent and the connection count. -/
theorem AtPrompt.of_eq (h : AtPrompt P o k c₀ c g) (hlink : g'.link = g.link)
    (hpackets : g'.packets = g.packets) : AtPrompt P o k c₀ c g' := by
  refine ⟨?_, ?_, h.count⟩
  · rw [hlink, hpackets]
    exact h.awaiting
  · rw [hpackets]
    exact h.settled

/-- The next request has been answered, and the answer was read. -/
theorem AtPrompt.next (h : AtPrompt P o k c₀ c g) {vs qs : List Bytes} (hvs : vs ≠ [])
    (hanswers : Answers c vs.flatten qs c₁) (hpackets : g'.packets = g.packets ++ vs)
    (hread : Awaiting P o k c₀ (g.packets ++ vs) (c.packets ++ qs) [] g'.link)
    (hcount : (c.packets ++ qs).length < 2 ^ 31) : AtPrompt P o k c₀ c₁ g' := by
  refine ⟨?_, ?_, ?_⟩
  · rw [hpackets, hanswers.packets]
    exact hread
  · rw [hpackets]
    exact h.settled.answers hvs hanswers
  · rw [hanswers.packets]
    exact hcount

/-- **A request and the header of its reply.**  An exception means that a side has used its last
number. -/
theorem request_run (h : AtPrompt P o k c₀ c g) {p q : Bytes} {qs : List Bytes}
    (hreply : Reply c p q qs) {α : Type} (m : EStateM Ex (Globals Talk) α) :
    if g.packets.length + 1 < 2 ^ 31 ∧ c.packets.length + 1 < 2 ^ 31 then
      ∃ x', Awaiting P o k c₀ (g.packets ++ [p]) (c.packets ++ q :: qs)
          (Duplex.readable (c.packets.length + 1) qs).flatten x' ∧
        (sendCmd (.talk P o) p >>= fun _ => recvResponse (.talk P o) >>= fun _ => m).run g
          = m.run { g with link := x', is := { rest := q }, packets := g.packets ++ [p] }
    else ∃ e g', (sendCmd (.talk P o) p >>= fun _ => recvResponse (.talk P o) >>= fun _ => m).run g
      = .error e g' := by
  have hsend := h.awaiting.send hreply.request (hreply.owes c₀ g.packets h.settled) hreply.packets
  split at hsend
  · rename_i hus
    obtain ⟨n, x₁, hsend, hx₁⟩ := hsend
    have hread := (awaiting_carries P o k c₀ (g.packets ++ [p]) (c.packets ++ q :: qs)).recvHeader hx₁
    rw [Exec.bind_of_ok (sendCmd_of_ok hsend)]
    rw [List.nil_append] at hread
    by_cases hlt : c.packets.length + 1 < 2 ^ 31
    · rw [Duplex.readable_cons hlt, List.flatten_cons, hreply.header] at hread
      obtain ⟨x', hheader, hx', -⟩ := hread
      have hresponse := recvResponse_of_ok (g := { g with
        link := x₁, packets := g.packets ++ [p] }) hheader
      rw [if_pos ⟨hus, hlt⟩]
      exact ⟨x', hx', Exec.bind_of_ok hresponse⟩
    · -- the reply has no number
      have hzero : 2 ^ 31 - 1 - c.packets.length = 0 := by omega
      rw [Duplex.readable, hzero] at hread
      obtain ⟨e, x', hheader, -⟩ := hread
      have hresponse := recvResponse_of_error (g := { g with
        link := x₁, packets := g.packets ++ [p] }) hheader
      rw [if_neg fun hboth => hlt hboth.2]
      exact ⟨e, _, Exec.bind_of_error hresponse⟩
  · rename_i hus
    obtain ⟨e, x', hsend⟩ := hsend
    rw [if_neg fun hboth => hus hboth.1]
    exact ⟨e, _, Exec.bind_of_error (sendCmd_of_error hsend)⟩

/-- **A request that is answered by a status.** -/
theorem status_run (h : AtPrompt P o k c₀ c g) {p : Bytes} (hp : Fits p) {status : Status}
    (hanswers : Answers c p [status.reply] c₁) {α : Type} (m : EStateM Ex (Globals Talk) α) :
    if g.packets.length + 1 < 2 ^ 31 ∧ c.packets.length + 1 < 2 ^ 31 then
      ∃ x', (∀ g', g'.link = x' → g'.packets = g.packets ++ [p] → AtPrompt P o k c₀ c₁ g') ∧
        (sendCmd (.talk P o) p >>= fun _ => recvResponse (.talk P o) >>= fun _ => m).run g
          = m.run { g with
            link := x', is := { rest := status.reply }, packets := g.packets ++ [p] }
    else ∃ e g', (sendCmd (.talk P o) p >>= fun _ => recvResponse (.talk P o) >>= fun _ => m).run g
      = .error e g' := by
  have hrun := request_run h (.status hp (owes_of_answers hanswers)) m
  split at hrun
  · rename_i hboth
    obtain ⟨x', hx', hrun⟩ := hrun
    rw [if_pos hboth]
    refine ⟨x', fun g' hlink hpackets => ?_, hrun⟩
    have hone : Answers c [p].flatten [status.reply] c₁ := by
      rw [List.flatten_singleton]
      exact hanswers
    refine h.next (List.cons_ne_nil _ _) hone hpackets ?_ ?_
    · rw [Duplex.readable, List.take_nil] at hx'
      rw [hlink]
      exact hx'
    · rw [List.length_append]
      exact hboth.2
  · rename_i hboth
    rw [if_neg hboth]
    exact hrun

/-- **A request that is answered by a body**, when the client reads `n` bytes of it and this is not
too little. -/
theorem body_run (h : AtPrompt P o k c₀ c g) {p q : Bytes} {qs : List Bytes}
    (hreply : Reply c p q qs) (hanswers : Answers c p (q :: qs) c₁)
    {m : EStateM Ex (Globals Talk) Unit} {n : ℕ} {Q : Bytes → Globals Talk → Prop}
    (hm : ∀ s x', Awaiting P o k c₀ (g.packets ++ [p]) (c.packets ++ q :: qs) s x' →
      if n ≤ s.length then
        ∃ g', m.run { g with link := x', is := { rest := q }, packets := g.packets ++ [p] }
            = .ok () g' ∧
          g'.packets = g.packets ++ [p] ∧ Q s g' ∧
          Awaiting P o k c₀ (g.packets ++ [p]) (c.packets ++ q :: qs) (s.drop n) g'.link
      else ∃ e g', m.run { g with link := x', is := { rest := q }, packets := g.packets ++ [p] }
        = .error e g')
    (hn : qs.flatten.length ≤ n) :
    if g.packets.length + 1 < 2 ^ 31 ∧ c.packets.length + 1 + qs.length < 2 ^ 31 ∧
        n ≤ qs.flatten.length then
      ∃ g', (sendCmd (.talk P o) p >>= fun _ => recvResponse (.talk P o) >>= fun _ => m).run g
          = .ok () g' ∧
        AtPrompt P o k c₀ c₁ g' ∧ Q qs.flatten g'
    else ∃ e g', (sendCmd (.talk P o) p >>= fun _ => recvResponse (.talk P o) >>= fun _ => m).run g
      = .error e g' := by
  have hrun := request_run h hreply m
  split at hrun
  · rename_i hboth
    obtain ⟨x', hx', hrun⟩ := hrun
    have hbody := hm _ x' hx'
    rw [hrun]
    have hqs : ∀ r ∈ qs, Fits r := fun r hr => hreply.packets r (List.mem_cons_of_mem q hr)
    split at hbody
    · rename_i hlen
      obtain ⟨g', hrun', hpackets, hQ, hend⟩ := hbody
      obtain ⟨hnil, hcount⟩ := drained hboth.2 hqs hlen hn
      have hread : Duplex.readable (c.packets.length + 1) qs = qs :=
        List.take_of_length_le (by omega)
      rw [hread] at hlen hQ
      have hone : Answers c [p].flatten (q :: qs) c₁ := by
        rw [List.flatten_singleton]
        exact hanswers
      rw [if_pos ⟨hboth.1, hcount, hlen⟩]
      refine ⟨g', hrun', h.next (List.cons_ne_nil _ _) hone hpackets ?_ ?_, hQ⟩
      · rwa [hnil] at hend
      · rw [List.length_append, List.length_cons]
        omega
    · rename_i hlen
      rw [if_neg]
      · exact hbody
      · rintro ⟨-, hcount, hle⟩
        have hread : Duplex.readable (c.packets.length + 1) qs = qs :=
          List.take_of_length_le (by omega)
        rw [hread] at hlen
        exact hlen hle
  · rename_i hboth
    rw [if_neg fun hall => hboth ⟨hall.1, by omega⟩]
    exact hrun

/-! ### `rm`, `rls` and `get` -/

/-- **`rm`** -/
theorem cmdDele_run (h : AtPrompt P o k c₀ c g) {filename : Bytes} (hword : Word filename)
    (hne : filename ≠ []) (hfits : (deleText filename).length < bufferSize) :
    if g.packets.length + 1 < 2 ^ 31 ∧ c.packets.length + 1 < 2 ^ 31 then
      ∃ g', (cmdDele (.talk P o) filename).run g = .ok () g' ∧ ∃ c₁, AtPrompt P o k c₀ c₁ g' ∧
        c₁.host = (deleted c.host (upToZero filename)).2
    else ∃ e g', (cmdDele (.talk P o) filename).run g = .error e g' := by
  obtain ⟨c₁, hanswers, hhost⟩ := dele_answers h.settled.os hword hne hfits
  have hfits' : Fits (deleText filename) := fits_of_text hfits
  have hstatus := status_run h hfits' hanswers (do
    let stale ← onHost Host.uninitialised
    let _ ← extract (·.int32 stale)
    return ())
  rw [cmdDele, if_neg hne]
  split at hstatus
  · rename_i hroom
    obtain ⟨x', hprompt, hstatus⟩ := hstatus
    rw [if_pos hroom]
    exact ⟨_, hstatus, c₁, hprompt _ rfl rfl, hhost⟩
  · rename_i hroom
    rw [if_neg hroom]
    exact hstatus

/-- **`rls`** -/
theorem cmdRemoteList_run (h : AtPrompt P o k c₀ c g)
    (hfits : ∀ names, lists c.host = some names → (listing names).length ≤ bufferSize) :
    if g.packets.length + 1 < 2 ^ 31 ∧
        c.packets.length + (listPackets (lists c.host)).length < 2 ^ 31 then
      ∃ g', (cmdRemoteList (.talk P o)).run g = .ok () g' ∧ ∃ c₁, AtPrompt P o k c₀ c₁ g' ∧
        c₁.host.store = c.host.store
    else ∃ e g', (cmdRemoteList (.talk P o)).run g = .error e g' := by
  obtain ⟨c₁, hanswers, hstore⟩ := list_answers h.settled.os
  unfold cmdRemoteList
  cases hnames : lists c.host with
  | none =>
    rw [hnames] at hanswers
    have hstatus := status_run h fits_listText hanswers (recvList (.talk P o))
    rw [listPackets, List.length_singleton]
    split at hstatus
    · rename_i hroom
      obtain ⟨x', hprompt, hstatus⟩ := hstatus
      rw [if_pos hroom, hstatus, recvList_refused (by decide) rfl]
      exact ⟨_, rfl, c₁, hprompt _ rfl rfl, hstore⟩
    · rename_i hroom
      rw [if_neg hroom]
      exact hstatus
  | some names =>
    have hlen := hfits names hnames
    have hb : bufferSize = 4096 := rfl
    have hmod : ((listing names).length : ℤ) % 2 ^ 64 = (listing names).length := by omega
    have hflat := packetsOf_flatten (listing names)
    rw [hnames, listPackets, hmod] at hanswers
    have hbody := body_run h (Reply.list h.settled.os hnames hlen) hanswers
      (m := recvList (.talk P o)) (n := (listing names).length) (Q := fun _ _ => True) ?_
      (by rw [hflat])
    · rw [listPackets, List.length_cons]
      split at hbody
      · rename_i hroom
        obtain ⟨g', hrun, hprompt, -⟩ := hbody
        rw [if_pos ⟨hroom.1, by omega⟩]
        exact ⟨g', hrun, c₁, hprompt, hstore⟩
      · rename_i hroom
        rw [if_neg fun hboth => hroom ⟨hboth.1, by omega, by rw [hflat]⟩]
        exact hbody
    · intro s x' hx'
      rw [recvList_run (Int.natCast_nonneg _) (by omega) rfl]
      have hloop := listLoop_run (g := { g with
        link := x', host := g.host.recalled.recalled, is := {}, packets := g.packets ++ [text "LIST\n\n"] })
        (awaiting_carries P o k c₀ (g.packets ++ [text "LIST\n\n"])
          (c.packets ++ sizeReply (listing names).length :: packetsOf (listing names)))
        (listing names).length ((listing names).length : ℤ).toNat (List.replicate bufferSize 0) 0 hx'
        (by omega)
      rw [sub_zero, Int.toNat_natCast] at hloop
      split at hloop
      · rename_i hle
        rw [if_pos hle]
        obtain ⟨g₁, hloop, -, hpackets, hend, -⟩ := hloop
        exact ⟨g₁, hloop, hpackets, trivial, hend⟩
      · rename_i hle
        rw [if_neg hle]
        exact hloop

/-- The client takes all of the body that the server sends with a file. -/
def TakesBody (server client : Host) (filename : Bytes) : Prop :=
  ∀ node, (opened server (upToZero filename)).1 = some node →
    (readableOf (opened server (upToZero filename)).2 node).length
      ≤ taken client filename ((opened server (upToZero filename)).2.contents node).2

/-- A `get` that the server refuses. -/
theorem cmdRetr_refused (h : AtPrompt P o k c₀ c g) {filename : Bytes} (hword : Word filename)
    (hne : filename ≠ []) (hfits : (retrText filename).length < bufferSize)
    (hnone : (opened c.host (upToZero filename)).1 = none) :
    if g.packets.length + 1 < 2 ^ 31 ∧ c.packets.length + 1 < 2 ^ 31 then
      ∃ g', (cmdRetr (.talk P o) filename).run g = .ok () g' ∧ ∃ c₁, AtPrompt P o k c₀ c₁ g' ∧
        c₁.host = (opened c.host (upToZero filename)).2
    else ∃ e g', (cmdRetr (.talk P o) filename).run g = .error e g' := by
  obtain ⟨c₁, hanswers, hhost⟩ := retr_refused h.settled.os hword hne hfits hnone
  have hfits' : Fits (retrText filename) := fits_of_text hfits
  have hstatus := status_run h hfits' hanswers (recvFile (.talk P o) filename)
  rw [cmdRetr, if_neg hne]
  split at hstatus
  · rename_i hroom
    obtain ⟨x', hprompt, hstatus⟩ := hstatus
    rw [if_pos hroom, hstatus, recvFile_refused (by decide) rfl]
    exact ⟨_, rfl, c₁, hprompt _ rfl rfl, hhost⟩
  · rename_i hroom
    rw [if_neg hroom]
    exact hstatus

/-- **`get`**, when the server opens the file and the client takes all of the body.  An exception means
that the body is too short or that a side has used its last number. -/
theorem cmdRetr_run (h : AtPrompt P o k c₀ c g) {filename : Bytes} (hword : Word filename)
    (hne : filename ≠ []) (hfits : (retrText filename).length < bufferSize) {node : Node} {host : Host}
    (hopened : opened c.host (upToZero filename) = (some node, host))
    (htaken : (readableOf host node).length ≤ taken g.host filename (host.contents node).2) :
    if g.packets.length + 1 < 2 ^ 31 ∧
        c.packets.length + 1 + (bodyPackets (readableOf host node)).length < 2 ^ 31 ∧
        taken g.host filename (host.contents node).2 ≤ (readableOf host node).length then
      ∃ g', (cmdRetr (.talk P o) filename).run g = .ok () g' ∧
        g'.host = received g.host filename (host.contents node).2
          ((readableOf host node).take (host.contents node).2.toNat) ∧
        ∃ c₁, AtPrompt P o k c₀ c₁ g' ∧ c₁.host = host.limited
    else ∃ e g', (cmdRetr (.talk P o) filename).run g = .error e g' := by
  have hsome : (opened c.host (upToZero filename)).1 = some node := by rw [hopened]
  obtain ⟨c₁, hanswers, hhost⟩ := retr_answers h.settled.os hword hne hfits hsome
  have hreply := Reply.retr h.settled.os hword hne hfits hsome
  rw [hopened] at hanswers hreply hhost
  obtain ⟨hlo, hhi⟩ := host.contents_end_bounds node
  rw [cmdRetr, if_neg hne]
  have hbody := body_run h hreply hanswers (m := recvFile (.talk P o) filename)
    (n := taken g.host filename (host.contents node).2)
    (Q := fun s g' => g'.host = received g.host filename (host.contents node).2
      (s.take (host.contents node).2.toNat)) ?_ (by rw [bodyPackets_flatten]; exact htaken)
  · rw [bodyPackets_flatten] at hbody
    split at hbody
    · rename_i hroom
      obtain ⟨g', hrun, hprompt, hreceived⟩ := hbody
      rw [if_pos hroom]
      exact ⟨g', hrun, hreceived, c₁, hprompt, hhost⟩
    · rename_i hroom
      rw [if_neg hroom]
      exact hbody
  · intro s x' hx'
    have hfile := recvFile_run (g := { g with
        link := x', is := { rest := sizeReply (host.contents node).2 }
        packets := g.packets ++ [retrText filename] })
      (awaiting_carries P o k c₀ (g.packets ++ [retrText filename])
        (c.packets ++ sizeReply (host.contents node).2 :: bodyPackets (readableOf host node)))
      hlo hhi rfl filename hx'
    split at hfile
    · rename_i hle
      rw [if_pos hle]
      exact hfile
    · rename_i hle
      rw [if_neg hle]
      exact hfile

end ClientMain

end Cybrg
