import Cybrg.Conversation.Rounds

/-!
# What the client prints of a listing

The server sends the names of `SERVER_ROOT` in a header and a body.  The client reads the body in
fragments, and prints the words of each.

* `Transport.pieces` — packets that are read one after the other;
* `listLoop_quiet` — behind the first fragment nothing is printed;
* `Whole` — the first packet holds the listing, but for its last newline, and does not fill the
  buffer;
* `listing_iff` — the names are printed if and only if this is so.
-/

namespace Cybrg

open Streams Files
open ServerClient (listing lists listPackets parola_word)

/-! ### Packets of any size -/

/-- Packets that have been sent.  A call of `recv` takes from one of them only, as
`Crypto::recv` does. -/
def Transport.pieces : Transport (List Bytes) where
  recv size := do
    let packets ← get
    match packets with
    | [] => throw (.exRecv "can not recv()")
    | p :: ps =>
        set (if p.drop size = [] then ps else p.drop size :: ps)
        return p.take size
  send plaintext := return plaintext.length

namespace Transport

theorem pieces_recv (p : Bytes) (ps : List Bytes) (size : ℕ) :
    (pieces.recv size).run (p :: ps)
      = .ok (p.take size) (if p.drop size = [] then ps else p.drop size :: ps) := rfl

/-- What is still to come of some packets. -/
def InPieces (s : Bytes) (packets : List Bytes) : Prop := packets.flatten = s ∧ [] ∉ packets

theorem pieces_carries : pieces.Carries InPieces fun _ => () := by
  constructor
  · intro s packets n h hne hn
    obtain ⟨rfl, hnil⟩ := h
    cases packets with
    | nil => exact absurd rfl hne
    | cons p ps =>
      rw [List.mem_cons, not_or] at hnil
      have hpos := List.length_pos_iff.mpr (Ne.symm hnil.1)
      have hle : min n p.length ≤ p.length := Nat.min_le_right _ _
      have htake : (p :: ps).flatten.take (min n p.length) = p.take n := by
        rw [List.flatten_cons, List.take_append_of_le_length hle, ← List.take_eq_take_min]
      have hdrop : (p :: ps).flatten.drop (min n p.length) = p.drop n ++ ps.flatten := by
        rw [List.flatten_cons, List.drop_append_of_le_length hle, ← List.drop_eq_drop_min]
      refine ⟨min n p.length, if p.drop n = [] then ps else p.drop n :: ps, by omega,
        Nat.min_le_left _ _, ?_, ?_, ?_, rfl⟩
      · rw [List.flatten_cons, List.length_append]
        omega
      · rw [htake]
        exact pieces_recv p ps n
      · rw [hdrop]
        by_cases h : p.drop n = []
        · rw [if_pos h, h, List.nil_append]
          exact ⟨rfl, hnil.2⟩
        · rw [if_neg h]
          refine ⟨List.flatten_cons, fun hmem => ?_⟩
          rcases List.mem_cons.mp hmem with h' | h'
          · exact h h'.symm
          · exact hnil.2 h'
  · intro packets n h hn
    obtain ⟨hflat, hnil⟩ := h
    cases packets with
    | nil => exact ⟨_, _, rfl, rfl⟩
    | cons p ps =>
      rw [List.flatten_cons, List.append_eq_nil_iff] at hflat
      exact absurd (List.mem_cons.mpr (.inl hflat.1.symm)) hnil

/-- **A header in a packet of its own.** -/
theorem pieces_recvLoop {n : ℕ} {shiftRegister : Byte × Byte} {u header : Bytes} (hu : u ≠ [])
    (h : scan n shiftRegister u = some (header, [])) (ps : List Bytes) :
    (pieces.recvLoop n shiftRegister).run (u :: ps) = .ok header ps := by
  induction n generalizing shiftRegister u header with
  | zero =>
    cases h
    exact absurd rfl hu
  | succ n ih =>
    obtain ⟨b, u, rfl⟩ := List.exists_cons_of_ne_nil hu
    have hrecv := pieces_recv (b :: u) ps 1
    rw [Carries.recvLoop_byte hrecv]
    rw [scan] at h
    split at h
    · rename_i hend
      cases h
      rw [if_pos hend]
      rfl
    · rename_i hend
      rw [if_neg hend]
      obtain ⟨x, hx, heq⟩ := Option.map_eq_some_iff.mp h
      obtain ⟨rest, left⟩ := x
      cases heq
      by_cases hnil : u = []
      · subst hnil
        cases n with
        | zero =>
          cases hx
          rfl
        | succ n => cases hx
      · have hrest := ih hnil hx
        rw [if_neg (by exact hnil)]
        exact Exec.bind_of_ok hrest

theorem pieces_recvHeader {u header : Bytes} (hu : u ≠ [])
    (h : scanHeader u = some (header, [])) (ps : List Bytes) :
    pieces.recvHeader.run (u :: ps) = .ok header ps := by
  obtain ⟨x, hx, heq⟩ := Option.map_eq_some_iff.mp h
  obtain ⟨buffer, left⟩ := x
  cases heq
  exact Exec.bind_of_ok (pieces_recvLoop hu hx ps)

end Transport

namespace ClientMain

/-! ### The fragments of a listing -/

/-- The string that is read of a buffer which begins with a fragment. -/
def shown (fragment beyond : Bytes) : Bytes :=
  upToZero (fragment ++ (List.replicate bufferSize 0).drop fragment.length ++ beyond)

/-- A fragment that leaves room for a zero. -/
theorem shown_of_lt {fragment : Bytes} (h : fragment.length < bufferSize) (h0 : 0 ∉ fragment)
    (beyond : Bytes) : shown fragment beyond = fragment := by
  obtain ⟨n, hn⟩ := Nat.exists_eq_add_of_lt h
  have hzero : (List.replicate bufferSize (0 : Byte)).drop fragment.length
      = 0 :: List.replicate n 0 := by
    rw [List.drop_replicate, show bufferSize - fragment.length = n + 1 by omega,
      List.replicate_succ]
  rw [shown, hzero, List.append_assoc, upToZero_append h0, List.cons_append, upToZero,
    List.takeWhile_cons_of_neg (by decide), List.append_nil]

/-- A fragment that fills the buffer. -/
theorem shown_of_full {fragment : Bytes} (h : fragment.length = bufferSize) (h0 : 0 ∉ fragment)
    (beyond : Bytes) : shown fragment beyond = fragment ++ upToZero beyond := by
  rw [shown, h, List.drop_of_length_le (by rw [List.length_replicate]), List.append_nil,
    upToZero_append h0]

/-- Words are printed. -/
def Globals.shows (g : Globals (List Bytes)) (bs : Bytes) : Globals (List Bytes) :=
  { g with
    is := (({ rest := bs } : IStream).words (bs.length + 1)).2
    printed := g.printed ++ (({ rest := bs } : IStream).words (bs.length + 1)).1 }

/-- **The first fragment** is the first packet, and its words are printed. -/
theorem listLoop_first {g : Globals (List Bytes)} {p : Bytes} {ps : List Bytes}
    (hlink : g.link = p :: ps) (his : g.is = {}) (hfits : Fits p) {msgLen : ℤ}
    (hlen : p.length ≤ msgLen) (n : ℕ) :
    (listLoop .pieces msgLen (n + 1) (List.replicate bufferSize 0) 0).run g
      = (listLoop .pieces msgLen n (p ++ (List.replicate bufferSize 0).drop p.length) p.length).run
        { g.shows (shown p g.beyond) with link := ps } := by
  obtain ⟨hpos, hle⟩ := hfits
  have hall : p.length ≤ (min (msgLen - 0) bufferSize).toNat := by omega
  have hrecv : (recvFragment .pieces (min (msgLen - 0) bufferSize).toNat).run g
      = .ok p { g with link := ps } := by
    have hone := Transport.pieces_recv p ps (min (msgLen - 0) bufferSize).toNat
    rw [List.take_of_length_le hall, List.drop_of_length_le hall, if_pos rfl, ← hlink] at hone
    exact onLink_of_ok hone
  rw [listLoop, if_pos (by omega), Exec.bind_of_ok hrecv, zero_add]
  have hstr : g.is.str (shown p g.beyond) = { rest := shown p g.beyond } := by
    rw [his]
    rfl
  have hprint : (modify (fun g => { g with is := g.is.str ((p ++ (List.replicate bufferSize 0).drop
      p.length ++ g.beyond).takeWhile (· ≠ 0)) }) : EStateM Ex (Globals (List Bytes)) Unit).run
      { g with link := ps } = .ok () { g with link := ps, is := { rest := shown p g.beyond } } := by
    rw [← hstr]
    rfl
  rw [Exec.bind_of_ok hprint]
  rfl

/-- **Behind the first fragment nothing is printed**: the stream stays as its last extraction left
it. -/
theorem listLoop_quiet (t : Transport (List Bytes)) (msgLen : ℤ) (n : ℕ) (buffer : Bytes)
    (recvBytes : ℤ) (printed : List Bytes) :
    Exec.Triple (fun g : Globals (List Bytes) => g.is.good = false ∧ g.printed = printed)
      (listLoop t msgLen n buffer recvBytes) (fun _ g => g.printed = printed) fun _ => True := by
  induction n generalizing buffer recvBytes with
  | zero => exact .pure fun g hg => hg.2
  | succ n ih =>
    refine .ite (fun _ => ?_) fun _ => .pure fun g hg => hg.2
    refine .bind (R := fun _ g => g.is.good = false ∧ g.printed = printed)
      (.zoom fun g l hg => ⟨fun _ => hg, trivial⟩) fun got => ?_
    refine .bind (R := fun _ g => g.is.good = false ∧ g.printed = printed) (.modify fun g hg => hg)
      fun _ => ?_
    refine .bind (.modify fun g hg => ?_) fun _ => ih _ _
    obtain ⟨hnone, hend⟩ := IStream.words_of_not_good hg.1 (g.is.rest.length + 1)
    refine ⟨hend, ?_⟩
    show g.printed ++ (g.is.words (g.is.rest.length + 1)).1 = printed
    rw [hnone, List.append_nil, hg.2]

/-- Not more is printed than one buffer holds, when nothing lies behind it. -/
theorem listLoop_bounded (msgLen : ℤ) (n : ℕ) (printed : List Bytes) :
    Exec.Triple
      (fun g : Globals (List Bytes) => g.beyond = [] ∧ g.is.good = true ∧ g.printed = printed)
      (listLoop .pieces msgLen n (List.replicate bufferSize 0) 0)
      (fun _ g => ∃ ws, g.printed = printed ++ ws ∧ ws.flatten.length ≤ bufferSize)
      fun _ => True := by
  have hnone : ∀ g : Globals (List Bytes), g.printed = printed →
      ∃ ws, g.printed = printed ++ ws ∧ ws.flatten.length ≤ bufferSize :=
    fun g hg => ⟨[], hg.trans (List.append_nil _).symm, Nat.zero_le _⟩
  cases n with
  | zero => exact .pure fun g hg => hnone g hg.2.2
  | succ n =>
    refine .ite (fun hlt => ?_) fun _ => .pure fun g hg => hnone g hg.2.2
    refine .bind (R := fun got g => got.length ≤ bufferSize ∧ g.beyond = [] ∧ g.is.good = true ∧
      g.printed = printed) ?_ fun got => ?_
    · -- a fragment is not longer than it may be
      intro g hg
      rw [recvFragment, onLink, Exec.run_zoom]
      cases g.link with
      | nil => trivial
      | cons p ps =>
        rw [Transport.pieces_recv]
        refine ⟨?_, hg⟩
        rw [List.length_take]
        omega
    refine .bind (R := fun _ g => g.is.rest.length ≤ bufferSize ∧ g.is.good = true ∧
      g.printed = printed) (.modify fun g hg => ⟨?_, hg.2.2⟩) fun _ => ?_
    · obtain ⟨hlen, hbeyond, -⟩ := hg
      refine (List.takeWhile_prefix _).length_le.trans ?_
      rw [hbeyond, List.append_nil, List.length_append, List.length_drop, List.length_replicate]
      omega
    refine .bind (R := fun _ g => g.is.good = false ∧
      ∃ ws, g.printed = printed ++ ws ∧ ws.flatten.length ≤ bufferSize) (.modify fun g hg => ?_)
      fun _ => ?_
    · obtain ⟨hlen, hgood, hprinted⟩ := hg
      obtain ⟨hflat, hend⟩ := IStream.words_all (.inl hgood) (Nat.lt_succ_self g.is.rest.length)
      refine ⟨hend, (g.is.words (g.is.rest.length + 1)).1, congrArg (· ++ _) hprinted, ?_⟩
      rw [hflat]
      exact (List.length_filter_le _ _).trans hlen
    · intro g hg
      obtain ⟨hgood, ws, hprinted, hlen⟩ := hg
      refine (listLoop_quiet .pieces msgLen n _ _ g.printed).post (fun _ g' hg' => ?_)
        (fun _ h => h) g ⟨hgood, rfl⟩
      exact ⟨ws, hg'.trans hprinted, hlen⟩

theorem recvList_bounded (printed : List Bytes) :
    Exec.Triple (fun g : Globals (List Bytes) => g.beyond = [] ∧ g.printed = printed)
      (recvList .pieces)
      (fun _ g => ∃ ws, g.printed = printed ++ ws ∧ ws.flatten.length ≤ bufferSize)
      fun _ => True := by
  have hnone : ∀ g : Globals (List Bytes), g.beyond = [] ∧ g.printed = printed →
      ∃ ws, g.printed = printed ++ ws ∧ ws.flatten.length ≤ bufferSize :=
    fun g hg => ⟨[], hg.2.trans (List.append_nil _).symm, Nat.zero_le _⟩
  refine .bind (R := fun _ (g : Globals (List Bytes)) => g.beyond = [] ∧ g.printed = printed)
    (.zoom fun g h hg => ⟨fun _ => hg, trivial⟩) fun stale => ?_
  refine .bind (R := fun _ (g : Globals (List Bytes)) => g.beyond = [] ∧ g.printed = printed)
    (fun g hg => hg)
    fun response => ?_
  refine .ite (fun _ => ?_) fun _ => .pure hnone
  refine .bind (R := fun _ (g : Globals (List Bytes)) => g.beyond = [] ∧ g.printed = printed)
    (fun g hg => hg)
    fun tag => ?_
  refine .ite (fun _ => .pure hnone) fun _ => ?_
  refine .bind (R := fun _ (g : Globals (List Bytes)) => g.beyond = [] ∧ g.printed = printed)
    (.zoom fun g h hg => ⟨fun _ => hg, trivial⟩) fun stale => ?_
  refine .bind (R := fun _ (g : Globals (List Bytes)) => g.beyond = [] ∧ g.printed = printed)
    (fun g hg => hg)
    fun msgLen => ?_
  refine .ite (fun _ => .pure hnone) fun _ => ?_
  exact .bind (.modify fun g hg => ⟨hg.1, rfl, hg.2⟩) fun _ => listLoop_bounded msgLen _ printed

/-- **`rls`** sends its request, and reads the header of the reply. -/
theorem round_rls {g : Globals (List Bytes)} {size : ℤ} (hsize : size.natAbs < 10 ^ 20)
    {packets : List Bytes} (hlink : g.link = sizeReply size :: packets) :
    (round .pieces (some (text "rls"))).run g
      = (recvList .pieces >>= fun _ => pure true).run { g with
        link := packets
        is := { rest := sizeReply size }
        packets := g.packets ++ [text "LIST\n\n"] } := by
  have hwords : lineWords (some (text "rls")) = (text "rls", []) := by decide
  have hdispatch : dispatch Transport.pieces (text "rls") []
      = cmdRemoteList .pieces >>= fun _ => pure true := rfl
  rw [round_line, if_neg (by decide), hwords, hdispatch]
  generalize ((({ rest := (some (text "rls")).getD (text "q") } : IStream).word []).2.word []).2 = is
  have hput : (Transport.pieces.send (text "LIST\n\n")).run g.link
      = .ok (text "LIST\n\n").length g.link := rfl
  have hsend := sendCmd_of_ok (t := .pieces) (g := { g with is := is }) hput
  have hheader := Transport.scanHeader_sizeReply hsize []
  rw [List.append_nil] at hheader
  have hread := Transport.pieces_recvHeader (sizeReply_ne_nil size) hheader packets
  rw [← hlink] at hread
  have hresponse := recvResponse_of_ok (g := { g with
    is := is, packets := g.packets ++ [text "LIST\n\n"] }) hread
  unfold cmdRemoteList
  rw [bind_assoc, Exec.bind_of_ok hsend, bind_assoc]
  exact Exec.bind_of_ok hresponse

/-- What is printed of a string. -/
def wordsOf (bs : Bytes) : List Bytes := (({ rest := bs } : IStream).words (bs.length + 1)).1

theorem wordsOf_flatten (bs : Bytes) : (wordsOf bs).flatten = printable bs :=
  (IStream.words_all (.inl rfl) (Nat.lt_succ_self bs.length)).1

/-- **What the client prints** of a listing that is cut into packets: the words of the first of them. -/
theorem recvList_pieces {g : Globals (List Bytes)} {packets : List Bytes}
    (hfits : ∀ p ∈ packets, Fits p) (hlen : packets.flatten.length ≤ (2 ^ 63 - 1 : ℤ))
    (hlink : g.link = packets) (his : g.is = { rest := sizeReply packets.flatten.length }) :
    ∃ g', (recvList .pieces).run g = .ok () g' ∧ g'.packets = g.packets ∧ g'.link = [] ∧
      g'.printed = g.printed ++ match packets with
        | [] => []
        | p :: _ => wordsOf (shown p g.beyond) := by
  rw [recvList_run (Int.natCast_nonneg _) hlen his]
  cases packets with
  | nil => exact ⟨_, rfl, rfl, hlink, (List.append_nil _).symm⟩
  | cons p ps =>
    have hp : Fits p := hfits p List.mem_cons_self
    have hpos : 1 ≤ p.length := hp.1
    have htotal : (p :: ps).flatten.length = p.length + ps.flatten.length := by
      rw [List.flatten_cons, List.length_append]
    obtain ⟨n, hn⟩ : ∃ n, (((p :: ps).flatten.length : ℤ)).toNat = n + 1 :=
      Nat.exists_eq_succ_of_ne_zero (by omega)
    rw [hn]
    let g₁ : Globals (List Bytes) := { g with host := g.host.recalled.recalled, is := {} }
    have hle : (p.length : ℤ) ≤ ((p :: ps).flatten.length : ℤ) := by omega
    have hfirst := listLoop_first (g := g₁) hlink rfl hp hle n
    have hnil : [] ∉ ps := fun h => absurd (hfits [] (List.mem_cons_of_mem p h)).1 (by decide)
    let g₂ : Globals (List Bytes) := { g₁.shows (shown p g₁.beyond) with link := ps }
    have hrest := listLoop_run (g := g₂) Transport.pieces_carries (s := ps.flatten)
      (p :: ps).flatten.length n (p ++ (List.replicate bufferSize 0).drop p.length) p.length
      ⟨rfl, hnil⟩ (by omega)
    have hleft : (((p :: ps).flatten.length : ℤ) - p.length).toNat = ps.flatten.length := by omega
    rw [hleft, if_pos (le_refl _)] at hrest
    obtain ⟨g', hrun, -, hpackets, hend, -⟩ := hrest
    refine ⟨g', hfirst.trans hrun, hpackets, ?_, ?_⟩
    · rw [List.drop_length] at hend
      obtain ⟨hflat, hnot⟩ := hend
      cases hl : g'.link with
      | nil => rfl
      | cons q qs =>
        rw [hl] at hflat hnot
        exact absurd (List.mem_cons.mpr (.inl (List.append_eq_nil_iff.mp hflat).1.symm)) hnot
    · have hend := (IStream.words_all (s := { rest := shown p g.beyond }) (.inl rfl)
        (Nat.lt_succ_self _)).2
      exact (listLoop_quiet .pieces _ n _ _ g₂.printed).of_ok ⟨hend, rfl⟩ hrun

/-! ### Which listings are printed -/

section

variable {names : List Name} (hnames : ∀ name ∈ names, name ≠ [] ∧ parola name = true)

include hnames

theorem printable_listing : printable (listing names) = names.flatten :=
  printable_unwords fun name hname => parola_word (hnames name hname).2

theorem nonzero_listing : 0 ∉ listing names := by
  intro h
  obtain ⟨name, hname, hmem⟩ := List.mem_flatMap.mp h
  rcases List.mem_append.mp hmem with h0 | h0
  · exact parola_nonzero (hnames name hname).2 h0
  · cases List.mem_singleton.mp h0

theorem listing_length_le : (listing names).length ≤ 2 * names.flatten.length := by
  induction names with
  | nil => exact Nat.zero_le _
  | cons name names ih =>
    have hrest := ih fun n hn => hnames n (List.mem_cons_of_mem name hn)
    have hpos := List.length_pos_iff.mpr (hnames name List.mem_cons_self).1
    have hsplit : listing (name :: names) = name ++ newline ++ listing names := List.flatMap_cons
    rw [hsplit, List.flatten_cons, List.length_append, List.length_append, List.length_append]
    have hone : newline.length = 1 := rfl
    omega

/-- **The words of a part of a listing** are the names, if and only if nothing but the last newline
is missing. -/
theorem wordsOf_part {p rest : Bytes} (hcut : p ++ rest = listing names) :
    wordsOf p = names ↔ rest = [] ∨ rest = newline := by
  have hwords : ∀ name ∈ names, ∀ b ∈ name, isSpace b = false :=
    fun name hname => parola_word (hnames name hname).2
  have hne : ∀ name ∈ names, name ≠ [] := fun name hname => (hnames name hname).1
  constructor
  · intro h
    refine spaces_of_unwords hne hwords hcut (printable_eq_nil.mp ?_)
    have hall : printable p ++ printable rest = names.flatten := by
      rw [← printable_append, hcut, printable_listing hnames]
    rw [← wordsOf_flatten, h] at hall
    exact List.append_right_eq_self.mp hall
  · intro h
    have hspaces : ∀ b ∈ ([] : Bytes), isSpace b := fun b hb => nomatch hb
    exact IStream.words_unwords hne hwords hspaces h rfl hcut (Nat.lt_succ_self _)

end

/-- The first packet does not fill the buffer and holds the whole listing, but perhaps for its last
newline. -/
def Whole (names : List Name) (packets : List Bytes) : Prop :=
  names = [] ∨ ∃ p ps, packets = p :: ps ∧ p.length < bufferSize ∧
    (p = listing names ∨ p ++ newline = listing names)

/-- **The first packet decides.** -/
theorem shown_iff {names : List Name} (hnames : ∀ name ∈ names, name ≠ [] ∧ parola name = true)
    {p : Bytes} {ps : List Bytes} (hp : Fits p) (hcut : (p :: ps).flatten = listing names) :
    (∀ beyond, wordsOf (shown p beyond) = names) ↔ p.length < bufferSize ∧
      (p = listing names ∨ p ++ newline = listing names) := by
  have hsplit : p ++ ps.flatten = listing names := by rw [← hcut, List.flatten_cons]
  have h0 : 0 ∉ p := fun h => nonzero_listing hnames (hsplit ▸ List.mem_append_left _ h)
  have hends : ps.flatten = [] ∨ ps.flatten = newline ↔
      p = listing names ∨ p ++ newline = listing names := by
    rw [← hsplit]
    simp [eq_comm]
  rw [← hends]
  constructor
  · intro h
    have hlt : p.length < bufferSize := by
      by_contra hfull
      have hlen : p.length = bufferSize := le_antisymm hp.2 (not_lt.mp hfull)
      -- a letter behind the buffer would be printed
      have hclean := h []
      have hletter := h [65]
      rw [shown_of_full hlen h0] at hclean hletter
      have hboth := congrArg List.flatten (hclean.trans hletter.symm)
      rw [wordsOf_flatten, wordsOf_flatten, printable_append, printable_append] at hboth
      have hnil := List.append_cancel_left hboth
      cases hnil
    have hword := h []
    rw [shown_of_lt hlt h0] at hword
    exact ⟨hlt, (wordsOf_part hnames hsplit).mp hword⟩
  · intro h beyond
    rw [shown_of_lt h.1 h0]
    exact (wordsOf_part hnames hsplit).mpr h.2

/-- **`rls`** prints the words of the first packet. -/
theorem rls_prints {g : Globals (List Bytes)} {packets : List Bytes}
    (hfits : ∀ p ∈ packets, Fits p) (hlen : packets.flatten.length ≤ (2 ^ 63 - 1 : ℤ))
    (hlink : g.link = sizeReply packets.flatten.length :: packets) :
    ∃ g', (round .pieces (some (text "rls"))).run g = .ok true g' ∧
      g'.packets = g.packets ++ [text "LIST\n\n"] ∧
      g'.printed = g.printed ++ match packets with
        | [] => []
        | p :: _ => wordsOf (shown p g.beyond) := by
  have hround := round_rls (g := g) (by omega) hlink
  obtain ⟨g', hrun, hpackets, -, hprinted⟩ := recvList_pieces (g := { g with
    link := packets
    is := { rest := sizeReply packets.flatten.length }
    packets := g.packets ++ [text "LIST\n\n"] }) hfits hlen rfl rfl
  exact ⟨g', hround.trans (Exec.bind_of_ok hrun), hpackets, hprinted⟩

/-- The user is shown each name once, whole and in order, and nothing else, whatever lies in memory
behind the buffer. -/
def Printed (g : Globals (List Bytes)) (names : List Name) : Prop :=
  ∀ beyond, ∃ g', (round .pieces (some (text "rls"))).run { g with beyond := beyond } = .ok true g' ∧
    g'.packets = g.packets ++ [text "LIST\n\n"] ∧ g'.printed = g.printed ++ names

theorem printed_iff_words {g : Globals (List Bytes)} {names : List Name} {packets : List Bytes}
    (hfits : ∀ p ∈ packets, Fits p) (hlen : packets.flatten.length ≤ (2 ^ 63 - 1 : ℤ))
    (hlink : g.link = sizeReply packets.flatten.length :: packets) :
    Printed g names ↔ ∀ beyond,
      (match packets with | [] => [] | p :: _ => wordsOf (shown p beyond)) = names := by
  refine forall_congr' fun beyond => ?_
  obtain ⟨g', hrun, hpackets, hprinted⟩ := rls_prints (g := { g with beyond := beyond }) hfits hlen
    hlink
  constructor
  · rintro ⟨g'', hrun'', -, hprinted''⟩
    rw [hrun] at hrun''
    obtain ⟨-, rfl⟩ := EStateM.Result.ok.inj hrun''
    exact List.append_cancel_left (hprinted.symm.trans hprinted'')
  · intro h
    exact ⟨g', hrun, hpackets, hprinted.trans (congrArg (g.printed ++ ·) h)⟩

/-- A listing that is printed is not long. -/
theorem Printed.length_le {g : Globals (List Bytes)} {names : List Name} (h : Printed g names)
    {size : ℤ} (hsize : size.natAbs < 10 ^ 20) {packets : List Bytes}
    (hlink : g.link = sizeReply size :: packets) : names.flatten.length ≤ bufferSize := by
  obtain ⟨g', hrun, -, hprinted⟩ := h []
  rw [round_rls (g := { g with beyond := [] }) hsize hlink] at hrun
  obtain ⟨_, g₁, hrun₁, hrun⟩ := Exec.bind_ok hrun
  cases hrun
  obtain ⟨ws, hws, hshort⟩ := (recvList_bounded g.printed).of_ok (by exact ⟨rfl, rfl⟩) hrun₁
  rwa [List.append_cancel_left (hws.symm.trans hprinted)] at hshort

/-- **When the names are printed.** -/
theorem printed_iff {names : List Name}
    (hnames : ∀ name ∈ names, name ≠ [] ∧ parola name = true) {packets : List Bytes}
    (hfits : ∀ p ∈ packets, Fits p) (hcut : packets.flatten = listing names)
    {g : Globals (List Bytes)}
    (hlink : g.link = sizeReply ((listing names).length % 2 ^ 64) :: packets) :
    Printed g names ↔ Whole names packets := by
  have htwice := listing_length_le hnames
  have hb : bufferSize = 4096 := rfl
  by_cases hlen : ((listing names).length : ℤ) ≤ 2 ^ 63 - 1
  · have hmod : ((listing names).length : ℤ) % 2 ^ 64 = packets.flatten.length := by
      rw [hcut]
      omega
    rw [hmod] at hlink
    rw [printed_iff_words hfits (by rw [hcut]; exact hlen) hlink]
    cases packets with
    | nil =>
      have hnil : names = [] := by
        cases names with
        | nil => rfl
        | cons name names =>
          have hsplit : listing (name :: names) = name ++ newline ++ listing names :=
            List.flatMap_cons
          rw [hsplit] at hcut
          simp [newline] at hcut
      exact ⟨fun _ => .inl hnil, fun _ _ => hnil.symm⟩
    | cons p ps =>
      have hne : names ≠ [] := by
        rintro rfl
        have hpos := (hfits p List.mem_cons_self).1
        rw [List.flatten_cons] at hcut
        rw [(List.append_eq_nil_iff.mp hcut).1] at hpos
        cases hpos
      refine (shown_iff hnames (hfits p List.mem_cons_self) hcut).trans ⟨fun h => ?_, fun h => ?_⟩
      · exact .inr ⟨p, ps, rfl, h⟩
      · obtain ⟨q, qs, heq, h⟩ := h.resolve_left hne
        cases heq
        exact h
  · constructor
    · intro h
      have hshort := h.length_le (by omega) hlink
      omega
    · intro h
      exfalso
      rcases h with rfl | ⟨p, ps, -, hlt, hwhole⟩
      · exact hlen (by decide)
      · have hone : newline.length = 1 := rfl
        rcases hwhole with hp | hp
        · rw [hp] at hlt
          omega
        · rw [← hp, List.length_append] at hlen
          omega

/-- **A listing from end to end.**  The server answers a request for a listing with the size of the
listing and, if there are files, the listing.  However the listing is cut into packets, the user who
types `rls` is shown each name once, whole and in the order of the server, and nothing else, if and
only if the first packet does not fill the buffer and holds the whole listing, but perhaps for its
last newline. -/
theorem listing_iff {c : ServerClient.Client Unit} (hos : c.os = []) {names : List Name}
    (hlists : lists c.host = some names)
    (hnames : ∀ name ∈ names, name ≠ [] ∧ parola name = true) {packets : List Bytes}
    (hfits : ∀ p ∈ packets, Fits p) (hcut : packets.flatten = listing names)
    (g : Globals (List Bytes)) :
    (∃ c₁ : ServerClient.Client Unit,
      (ServerClient.iteration .plain).run (c.withLink (text "LIST\n\n"))
        = .ok true (c₁.withLink []) ∧
      c₁.packets = c.packets ++ sizeReply ((listing names).length % 2 ^ 64) ::
        ServerClient.packetsOf (listing names)) ∧
    (Printed { g with link := sizeReply ((listing names).length % 2 ^ 64) :: packets } names ↔
      Whole names packets) := by
  refine ⟨?_, printed_iff hnames hfits hcut rfl⟩
  obtain ⟨c₁, hanswers, -⟩ := ServerClient.list_answers hos
  rw [hlists] at hanswers
  exact ⟨c₁, hanswers.run [], hanswers.packets⟩

/-- A client that has read nothing yet. -/
def reader (packets : List Bytes) : Globals (List Bytes) where
  link := packets
  host := { store := { entries := [([], .dir)], nodup := by decide } }

/-- A server with two files. -/
def twoFiles : ServerClient.Client Unit where
  link := ()
  host := { store :=
    { entries := [([], .dir), (serverRootPath, .dir), (serverRootPath ++ [text "a"], .file []),
        (serverRootPath ++ [text "b"], .file [])]
      nodup := by decide } }

/-- Both names in one packet, and the last newline in another one. -/
theorem listing_iff_two : Printed (reader [sizeReply 4, text "a\nb", text "\n"]) [text "a", text "b"] := by
  have hlists : lists twoFiles.host = some [text "a", text "b"] := by decide
  have hcut : [text "a\nb", text "\n"].flatten = listing [text "a", text "b"] := by decide
  exact (listing_iff rfl hlists (by decide) (by decide) hcut (reader [])).2.mpr
    (.inr ⟨text "a\nb", [text "\n"], rfl, by decide, .inr (by decide)⟩)

/-- The names of two files in a packet each: only the first one is printed. -/
theorem listing_cut :
    lists twoFiles.host = some [text "a", text "b"] ∧
      [text "a\n", text "b\n"].flatten = listing [text "a", text "b"] ∧
      (∀ p ∈ [text "a\n", text "b\n"], Fits p) ∧
      (Exec.endState ((round .pieces (some (text "rls"))).run
        (reader [sizeReply 4, text "a\n", text "b\n"]))).printed = [text "a"] := by
  refine ⟨by decide, by decide, by decide, ?_⟩
  decide +kernel

end ClientMain

end Cybrg
