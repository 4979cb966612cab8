import Cybrg.Common.Connection

/-!
# Strings over the connection

`Connection::send(string&)` writes a string behind its length and `Connection::recv(string&)`
reads one back.  The receiver throws on a count of zero and does not look at counts that are too
small, which is what the peer's closing brings about.

* `Connection.recvString_ok` — how the receiver can return;
* `Connection.recvString_exact` — it returns complete strings only iff the peer does not close
  inside of one;
* `Connection.Part` — what a socket takes of what it is given;
* `Connection.recvStrings_sent` — strings that were sent and fully delivered arrive unchanged and in
  order.
-/

namespace Cybrg

open Octets

namespace Connection

/-! ### One string -/

theorem readOver_self (junk : ℕ → Byte) {bs : Bytes} {n : ℕ} (h : n ≤ bs.length) :
    readOver junk bs n = bs.take n := by
  rw [readOver, Nat.sub_eq_zero_of_le h, List.range_zero, List.map_nil, List.append_nil]

theorem readOver_length (junk : ℕ → Byte) (bs : Bytes) (n : ℕ) :
    (readOver junk bs n).length = n := by
  simp only [readOver, List.length_append, List.length_take, List.length_map, List.length_range]
  omega

/-- A length that arrives whole is the length that was written. -/
theorem size_read (junk : ℕ → Byte) {n : ℕ} (hn : n < 2 ^ 32) :
    (ofBigEndian (readOver junk (bigEndian (UInt32.ofNat n)) 4)).toNat = n := by
  rw [readOver_self junk (by simp), List.take_of_length_le (by simp), ofBigEndian_bigEndian,
    UInt32.toNat_ofNat', Nat.mod_eq_of_lt hn]

/-- What the receiver does behind a complete length. -/
theorem recvString_run (stale : Memory) {c : Connection} {n : ℕ} {body : Bytes}
    (hn : n ≤ bufferSize) (hpos : 0 < n) (hbody : body ≠ [])
    (h : c.incoming = bigEndian (UInt32.ofNat n) ++ body) :
    (recvString stale).run c =
      .ok (readOver (stale 1) (body.take n) n) { c with incoming := body.drop n } := by
  have hb : bufferSize = 4096 := rfl
  have hword : bigEndian (UInt32.ofNat n) ≠ [] := by simp [bigEndian]
  have h₁ := recv_append h hword
  rw [bigEndian_length] at h₁
  have hlen : 0 < (body.take n).length := by
    have := List.length_pos_iff.mpr hbody
    rw [List.length_take]
    omega
  have h₂ : (recv n).run { c with incoming := body }
      = .ok (body.take n) { c with incoming := body.drop n } := by
    rw [recv_run, if_pos hlen]
  unfold recvString
  rw [Exec.bind_of_ok h₁]
  dsimp only
  rw [size_read _ (by omega), Exec.bind_of_ok (Exec.run_require_of_true hn), Exec.bind_of_ok h₂]
  rfl

/-- **How the receiver can return**: with a complete length, not zero and not too big, and with at
least one byte behind it. -/
theorem recvString_ok {stale : Memory} {c c' : Connection} {s : Bytes}
    (h : (recvString stale).run c = .ok s c') :
    ∃ n body, n ≤ bufferSize ∧ 0 < n ∧ body ≠ [] ∧
      c.incoming = bigEndian (UInt32.ofNat n) ++ body ∧
      s = readOver (stale 1) (body.take n) n ∧ c' = { c with incoming := body.drop n } := by
  obtain ⟨word, c₁, h₁, h⟩ := Exec.bind_ok h
  obtain ⟨rfl, -, rfl⟩ := recv_ok h₁
  obtain ⟨_, c₂, h₂, h⟩ := Exec.bind_ok h
  obtain ⟨hsize, rfl⟩ := Exec.require_ok h₂
  obtain ⟨bs, c₃, h₃, h⟩ := Exec.bind_ok h
  obtain ⟨rfl, hne, rfl⟩ := recv_ok h₃
  cases h
  -- a second read that finds something tells that the first one was complete
  have hmore : c.incoming.drop 4 ≠ [] := by
    intro hnil
    apply hne
    show (c.incoming.drop 4).take _ = []
    rw [hnil, List.take_nil]
  have hfour : (c.incoming.take 4).length = 4 := by
    have := List.length_pos_iff.mpr hmore
    rw [List.length_drop] at this
    rw [List.length_take]
    omega
  have hover : readOver (stale 0) (c.incoming.take 4) 4 = c.incoming.take 4 := by
    rw [readOver_self _ hfour.ge, List.take_of_length_le hfour.le]
  rw [hover] at hsize hne ⊢
  refine ⟨_, c.incoming.drop 4, hsize, ?_, hmore, ?_, rfl, rfl⟩
  · by_contra hzero
    exact hne (by rw [Nat.eq_zero_of_not_pos hzero, List.take_zero])
  · rw [UInt32.ofNat_toNat, bigEndian_ofBigEndian _ hfour, List.take_append_drop]

/-- The receiver, if it returns, has consumed a complete length between 1 and `BUFFER_SIZE` and as
many bytes, and these are the string. -/
def Exact (stale : Memory) (c : Connection) : Prop :=
  ∀ s c', (recvString stale).run c = .ok s c' →
    1 ≤ s.length ∧ s.length ≤ bufferSize ∧ c.incoming = frame s ++ c'.incoming

/-- The peer closes inside of a string: some of its bytes are there, but not all. -/
def ClosedInside (bs : Bytes) : Prop :=
  ∃ n body, n ≤ bufferSize ∧ 0 < body.length ∧ body.length < n ∧
    bs = bigEndian (UInt32.ofNat n) ++ body

/-- The receiver is exact iff the peer does not close inside of the string. -/
theorem exact_iff (stale : Memory) (c : Connection) :
    Exact stale c ↔ ¬ ClosedInside c.incoming := by
  constructor
  · rintro h ⟨n, body, hn, hpos, hlt, hin⟩
    have hrun := recvString_run stale hn (by omega) (List.length_pos_iff.mp hpos) hin
    have hlen := congrArg List.length (h _ _ hrun).2.2
    rw [hin] at hlen
    simp only [frame, List.length_append, bigEndian_length, readOver_length] at hlen
    omega
  · intro h s c' hrun
    obtain ⟨n, body, hn, hpos, hne, hin, rfl, rfl⟩ := recvString_ok hrun
    have hle : n ≤ body.length := by
      by_contra hlt
      exact h ⟨n, body, hn, List.length_pos_iff.mpr hne, Nat.lt_of_not_le hlt, hin⟩
    have htake : (body.take n).length = n := List.length_take_of_le hle
    have hover : readOver (stale 1) (body.take n) n = body.take n := by
      rw [readOver_self _ htake.ge, List.take_of_length_le htake.le]
    rw [hover, frame, htake]
    refine ⟨hpos, hn, ?_⟩
    rw [hin, List.append_assoc, List.take_append_drop]

/-- The length says five, two bytes are there, and the caller gets five. -/
theorem recvString_closedInside :
    let c : Connection := { incoming := [0, 0, 0, 5, 1, 2] }
    (recvString fun _ _ => 7).run c = .ok [1, 2, 7, 7, 7] {} ∧ ¬ Exact (fun _ _ => 7) c := by
  have hrun : (recvString fun _ _ => 7).run { incoming := [0, 0, 0, 5, 1, 2] }
      = .ok [1, 2, 7, 7, 7] {} := rfl
  refine ⟨hrun, fun h => ?_⟩
  exact absurd (h _ _ hrun).2.2 (by decide)

/-! ### What a socket takes -/

/-- A string of no more bytes than `f`, which is `f` if it has as many. -/
def Part (x f : Bytes) : Prop := x.length ≤ f.length ∧ (x.length = f.length → x = f)

theorem Part.nil : Part [] [] := ⟨le_rfl, fun _ => rfl⟩

theorem Part.take (f : Bytes) (n : ℕ) : Part (f.take n) f := by
  constructor
  · rw [List.length_take]
    omega
  · intro h
    rw [List.length_take] at h
    exact List.take_of_length_le (by omega)

theorem Part.append {x y f g : Bytes} (hx : Part x f) (hy : Part y g) :
    Part (x ++ y) (f ++ g) := by
  obtain ⟨hxl, hxe⟩ := hx
  obtain ⟨hyl, hye⟩ := hy
  constructor
  · rw [List.length_append, List.length_append]
    omega
  · intro h
    rw [List.length_append, List.length_append] at h
    rw [hxe (by omega), hye (by omega)]

theorem send_part {c c' : Connection} {buffer : Bytes} {r : ℤ}
    (h : (send buffer).run c = .ok r c') :
    ∃ x, Part x buffer ∧ c'.outgoing = c.outgoing ++ x := by
  rw [send_run] at h
  split at h
  · cases h
    exact ⟨_, .take buffer _, rfl⟩
  · cases h

theorem sendString_part {c c' : Connection} {s : Bytes} {r : ℤ}
    (h : (sendString s).run c = .ok r c') :
    ∃ x, Part x (frame s) ∧ c'.outgoing = c.outgoing ++ x := by
  obtain ⟨r₁, c₁, h₁, h⟩ := Exec.bind_ok h
  obtain ⟨r₂, c₂, h₂, h⟩ := Exec.bind_ok h
  cases h
  obtain ⟨x, hx, hout₁⟩ := send_part h₁
  obtain ⟨y, hy, hout₂⟩ := send_part h₂
  exact ⟨x ++ y, hx.append hy, by rw [hout₂, hout₁, List.append_assoc]⟩

/-! ### Many strings -/

/-- One call of `send(string&)` for each string. -/
def sendStrings : List Bytes → EStateM Ex Connection Unit
  | [] => pure ()
  | s :: ss => do
      let _ ← sendString s
      sendStrings ss

/-- `n` calls of `recv(string&)`; `stale i` is what the variables of a call hold when `i` calls
follow it. -/
def recvStrings (stale : ℕ → Memory) : ℕ → EStateM Ex Connection (List Bytes)
  | 0 => pure []
  | n + 1 => do
      let s ← recvString (stale n)
      let ss ← recvStrings stale n
      return s :: ss

theorem sendStrings_part {ss : List Bytes} {c c' : Connection}
    (h : (sendStrings ss).run c = .ok () c') :
    ∃ x, Part x (ss.map frame).flatten ∧ c'.outgoing = c.outgoing ++ x := by
  induction ss generalizing c with
  | nil =>
    cases h
    exact ⟨[], .nil, (List.append_nil _).symm⟩
  | cons s ss ih =>
    obtain ⟨r, c₁, h₁, h⟩ := Exec.bind_ok h
    obtain ⟨x, hx, hout₁⟩ := sendString_part h₁
    obtain ⟨y, hy, hout⟩ := ih h
    exact ⟨x ++ y, hx.append hy, by rw [hout, hout₁, List.append_assoc]⟩

theorem recvStrings_frames (stale : ℕ → Memory) {ss : List Bytes} {c : Connection} {rest : Bytes}
    (hss : ∀ s ∈ ss, 1 ≤ s.length ∧ s.length ≤ bufferSize)
    (h : c.incoming = (ss.map frame).flatten ++ rest) :
    (recvStrings stale ss.length).run c = .ok ss { c with incoming := rest } := by
  induction ss generalizing c with
  | nil =>
    obtain rfl : c.incoming = rest := h
    rfl
  | cons s ss ih =>
    obtain ⟨hs, hss⟩ := List.forall_mem_cons.mp hss
    rw [List.map_cons, List.flatten_cons, List.append_assoc] at h
    have h₁ := recvString_frame (stale ss.length) h (List.length_pos_iff.mp hs.1) hs.2
    show (recvStrings stale (ss.length + 1)).run c = _
    rw [recvStrings, Exec.bind_of_ok h₁, Exec.bind_of_ok (ih hss rfl)]
    rfl

/-- As many bytes have gone out as the strings and their lengths have. -/
def FullyDelivered (ss : List Bytes) (a a' : Connection) : Prop :=
  a'.outgoing.length = a.outgoing.length + ((ss.map frame).flatten).length

/-- Strings that were sent and fully delivered are received unchanged and in order. -/
theorem recvStrings_sent (stale : ℕ → Memory) {ss : List Bytes} {a a' b : Connection}
    {rest : Bytes} (hss : ∀ s ∈ ss, 1 ≤ s.length ∧ s.length ≤ bufferSize)
    (hsend : (sendStrings ss).run a = .ok () a') (hfull : FullyDelivered ss a a')
    (hb : b.incoming = a'.outgoing.drop a.outgoing.length ++ rest) :
    (recvStrings stale ss.length).run b = .ok ss { b with incoming := rest } := by
  obtain ⟨x, hx, hout⟩ := sendStrings_part hsend
  rw [FullyDelivered, hout, List.length_append] at hfull
  have hframes : x = (ss.map frame).flatten := hx.2 (by omega)
  rw [hout, List.drop_left, hframes] at hb
  exact recvStrings_frames stale hss hb

/-- **Receiving a string is exact iff the peer does not close inside of it**, and strings that were
fully delivered arrive as they were sent. -/
theorem recvString_exact (c : Connection) :
    (∀ stale, Exact stale c ↔ ¬ ClosedInside c.incoming) ∧
      ∀ (ss : List Bytes) (a a' : Connection) (rest : Bytes) (stale : ℕ → Memory),
        (∀ s ∈ ss, 1 ≤ s.length ∧ s.length ≤ bufferSize) →
        (sendStrings ss).run a = .ok () a' → FullyDelivered ss a a' →
        c.incoming = a'.outgoing.drop a.outgoing.length ++ rest →
        (recvStrings stale ss.length).run c = .ok ss { c with incoming := rest } :=
  ⟨fun stale => exact_iff stale c,
    fun _ _ _ _ stale hss hsend hfull hc => recvStrings_sent stale hss hsend hfull hc⟩

end Connection

end Cybrg
