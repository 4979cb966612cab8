import Cybrg.Common.Transport
import Cybrg.Library.TwoRuns

/-!
# Transports that carry a stream

What both programs rely on: a transport hands over the bytes of one stream, in order, as many at a
time as it likes.

* `Transport.Carries` — such a transport, with what it still holds and with its sending half;
* `Transport.scan` — the header at the beginning of a stream, and what follows it;
* `Carries.recvHeader` — the loop that reads a header reads this one;
* `Carries.bodyLoop` — a loop that reads a body reads as many bytes as it asks for;
* `Transport.SendsAlike` — two transports whose calls of `send` end alike;
* `Transport.SendsAside` — sending leaves alone what is still to be read;
* `plain_carries`, `plain_sendsAside` — a string carries itself.
-/

namespace Cybrg

namespace Transport

variable {τ γ : Type}

/-- In a state with `holds s` the bytes `s` are still to come.  The last argument is the part of
the state that sending depends on; it is not touched by reading. -/
structure Carries (t : Transport τ) (holds : Bytes → τ → Prop) (half : τ → γ) : Prop where
  recv : ∀ {s : Bytes} {x : τ} {n : ℕ}, holds s x → s ≠ [] → 0 < n →
    ∃ k x', 0 < k ∧ k ≤ n ∧ k ≤ s.length ∧ (t.recv n).run x = .ok (s.take k) x' ∧
      holds (s.drop k) x' ∧ half x' = half x
  ended : ∀ {x : τ} {n : ℕ}, holds [] x → 0 < n →
    ∃ e x', (t.recv n).run x = .error e x' ∧ half x' = half x

/-! ### Headers -/

/-- What the loop that reads a header leaves in its buffer when it has `n` bytes left, and what is
then still to come; nothing if the stream ends before the header does. -/
def scan : ℕ → Byte × Byte → Bytes → Option (Bytes × Bytes)
  | 0, _, s => some ([], s)
  | _ + 1, _, [] => none
  | n + 1, shiftRegister, b :: s =>
      if (shiftRegister.2, b) = (10, 10) then some ([b], s)
      else (scan n (shiftRegister.2, b) s).map fun x => (b :: x.1, x.2)

/-- The header at the beginning of a stream. -/
def scanHeader (s : Bytes) : Option (Bytes × Bytes) :=
  (scan (bufferSize - 1) (0, 0) s).map fun x => (x.1.takeWhile (· ≠ 0), x.2)

theorem scan_append {n : ℕ} {shiftRegister : Byte × Byte} {s header rest : Bytes}
    (h : scan n shiftRegister s = some (header, rest)) (more : Bytes) :
    scan n shiftRegister (s ++ more) = some (header, rest ++ more) := by
  induction n generalizing shiftRegister s header with
  | zero =>
    cases h
    rfl
  | succ n ih =>
    cases s with
    | nil => cases h
    | cons b s =>
      rw [scan] at h
      rw [List.cons_append, scan]
      split at h
      · rename_i hend
        cases h
        rw [if_pos hend]
      · rename_i hend
        obtain ⟨x, hx, heq⟩ := Option.map_eq_some_iff.mp h
        cases heq
        rw [if_neg hend, ih hx]
        rfl

theorem scanHeader_append {s header rest : Bytes} (h : scanHeader s = some (header, rest))
    (more : Bytes) : scanHeader (s ++ more) = some (header, rest ++ more) := by
  obtain ⟨x, hx, heq⟩ := Option.map_eq_some_iff.mp h
  cases heq
  rw [scanHeader, scan_append hx]
  rfl

/-- **A part of a header is no header.** -/
theorem scanHeader_part {text header s : Bytes} (h : scanHeader text = some (header, []))
    (hs : s <+: text) (hne : s ≠ text) : scanHeader s = none := by
  obtain ⟨more, rfl⟩ := hs
  cases hscan : scanHeader s with
  | none => rfl
  | some x =>
    obtain ⟨header', rest⟩ := x
    rw [scanHeader_append hscan more] at h
    have hnil := (List.append_eq_nil_iff.mp (Prod.mk.inj (Option.some.inj h)).2).2
    rw [hnil, List.append_nil] at hne
    exact absurd rfl hne

namespace Carries

variable {t : Transport τ} {holds : Bytes → τ → Prop} {half : τ → γ}

/-- A call for one byte. -/
theorem recv_one (hc : t.Carries holds half) {b : Byte} {s : Bytes} {x : τ}
    (h : holds (b :: s) x) :
    ∃ x', (t.recv 1).run x = .ok [b] x' ∧ holds s x' ∧ half x' = half x := by
  obtain ⟨k, x', hpos, hle, -, hrun, hx', hhalf⟩ := hc.recv h (List.cons_ne_nil b s) one_pos
  obtain rfl : k = 1 := by omega
  exact ⟨x', hrun, hx', hhalf⟩

/-- A byte that is received. -/
theorem recvLoop_byte {n : ℕ} {shiftRegister : Byte × Byte} {b : Byte} {x x₁ : τ}
    (h : (t.recv 1).run x = .ok [b] x₁) :
    (t.recvLoop (n + 1) shiftRegister).run x =
      if (shiftRegister.2, b) = (10, 10) then .ok [b] x₁
      else (t.recvLoop n (shiftRegister.2, b) >>= fun rest => pure (b :: rest)).run x₁ := by
  rw [Transport.recvLoop, Exec.bind_of_ok h]
  dsimp only
  split <;> rfl

/-- **The loop reads the header** that the stream begins with, or throws where the stream ends. -/
theorem recvLoop (hc : t.Carries holds half) (n : ℕ) (shiftRegister : Byte × Byte) {s : Bytes}
    {x : τ} (h : holds s x) :
    match scan n shiftRegister s with
    | some (header, rest) => ∃ x', (t.recvLoop n shiftRegister).run x = .ok header x' ∧
        holds rest x' ∧ half x' = half x
    | none => ∃ e x', (t.recvLoop n shiftRegister).run x = .error e x' ∧ half x' = half x := by
  induction n generalizing shiftRegister s x with
  | zero => exact ⟨x, rfl, h, rfl⟩
  | succ n ih =>
    cases s with
    | nil =>
      obtain ⟨e, x', hrun, hhalf⟩ := hc.ended h one_pos
      exact ⟨e, x', Exec.bind_of_error hrun, hhalf⟩
    | cons b s =>
      obtain ⟨x₁, hrun, hx₁, hhalf⟩ := hc.recv_one h
      rw [scan, recvLoop_byte hrun]
      by_cases hend : (shiftRegister.2, b) = (10, 10)
      · rw [if_pos hend, if_pos hend]
        exact ⟨x₁, rfl, hx₁, hhalf⟩
      · rw [if_neg hend, if_neg hend]
        have hrest := ih (shiftRegister.2, b) hx₁
        cases hscan : scan n (shiftRegister.2, b) s with
        | none =>
          rw [hscan] at hrest
          obtain ⟨e, x', hrun', hhalf'⟩ := hrest
          exact ⟨e, x', Exec.bind_of_error hrun', hhalf'.trans hhalf⟩
        | some y =>
          obtain ⟨header, rest⟩ := y
          rw [hscan] at hrest
          obtain ⟨x', hrun', hx', hhalf'⟩ := hrest
          exact ⟨x', Exec.bind_of_ok hrun', hx', hhalf'.trans hhalf⟩

/-- **A header is read**, or the stream ends before it does. -/
theorem recvHeader (hc : t.Carries holds half) {s : Bytes} {x : τ} (h : holds s x) :
    match scanHeader s with
    | some (header, rest) => ∃ x', t.recvHeader.run x = .ok header x' ∧
        holds rest x' ∧ half x' = half x
    | none => ∃ e x', t.recvHeader.run x = .error e x' ∧ half x' = half x := by
  have hloop := hc.recvLoop (bufferSize - 1) (0, 0) h
  unfold scanHeader
  cases hscan : scan (bufferSize - 1) (0, 0) s with
  | none =>
    rw [hscan] at hloop
    obtain ⟨e, x', hrun, hhalf⟩ := hloop
    exact ⟨e, x', Exec.bind_of_error hrun, hhalf⟩
  | some y =>
    rw [hscan] at hloop
    obtain ⟨x', hrun, hx', hhalf⟩ := hloop
    exact ⟨x', Exec.bind_of_ok hrun, hx', hhalf⟩

end Carries

/-! ### Bodies -/

/-- A loop that reads a body of `size` bytes, for at most `n` fragments, and does something with each
of them. -/
def bodyLoop {σ β : Type} (recv : ℕ → EStateM Ex σ Bytes) (act : β → Bytes → EStateM Ex σ β)
    (size : ℤ) : ℕ → ℤ → β → EStateM Ex σ Unit
  | 0, _, _ => return ()
  | n + 1, received, b =>
      if received < size then do
        let fragment ← recv (min (size - received) bufferSize).toNat
        let b ← act b fragment
        bodyLoop recv act size n (received + fragment.length) b
      else return ()

/-- **A loop that reads a body** takes as many bytes from the stream as are still missing; if the
stream ends before, it throws.  `I` holds of what was read so far, and `a` keeps it. -/
theorem Carries.bodyLoop {t : Transport τ} {holds : Bytes → τ → Prop} {half : τ → γ}
    (hc : t.Carries holds half) {σ β : Type} {f : σ → τ} {p : τ → σ → σ}
    (hput : ∀ s l, f (p l s) = l) {a : β → Bytes → EStateM Ex σ β} {I : Bytes → β → σ → Prop}
    (hI : ∀ u b s l, I u b s → I u b (p l s))
    (hact : ∀ u b s got, I u b s →
      ∃ b' s', (a b got).run s = .ok b' s' ∧ I (u ++ got) b' s' ∧ f s' = f s)
    (size : ℤ) (n : ℕ) (received : ℤ) {u : Bytes} {b : β} {s : σ} {x : Bytes} (hs : I u b s)
    (h : holds x (f s)) (hn : (size - received).toNat ≤ n) :
    if (size - received).toNat ≤ x.length then
      ∃ b' s', (Transport.bodyLoop (fun k => Exec.zoom f p (t.recv k)) a size n received b).run s
          = .ok () s' ∧
        I (u ++ x.take (size - received).toNat) b' s' ∧
        holds (x.drop (size - received).toNat) (f s') ∧ half (f s') = half (f s)
    else
      ∃ e b' s', (Transport.bodyLoop (fun k => Exec.zoom f p (t.recv k)) a size n received
          b).run s = .error e s' ∧ I (u ++ x) b' s' ∧ half (f s') = half (f s) := by
  induction n generalizing received u b s x with
  | zero =>
    have hzero : (size - received).toNat = 0 := by omega
    rw [hzero, if_pos (Nat.zero_le _)]
    refine ⟨b, s, rfl, ?_, h, rfl⟩
    rw [List.take_zero, List.append_nil]
    exact hs
  | succ n ih =>
    by_cases hlt : received < size
    · have hask : 0 < (min (size - received) bufferSize).toNat := by
        have hb : bufferSize = 4096 := rfl
        omega
      rw [Transport.bodyLoop, if_pos hlt]
      by_cases hx : x = []
      · -- the stream is over
        subst hx
        obtain ⟨e, l, hrun, hhalf⟩ := hc.ended h hask
        have hrecv : (Exec.zoom f p (t.recv (min (size - received) bufferSize).toNat)).run s
            = .error e (p l s) :=
          Exec.zoom_of_error hrun
        rw [if_neg (by rw [List.length_nil]; omega)]
        refine ⟨e, b, p l s, Exec.bind_of_error hrecv, ?_, ?_⟩
        · rw [List.append_nil]
          exact hI u b s l hs
        · rw [hput, hhalf]
      · obtain ⟨k, l, hpos, hle, hlen, hrun, hl, hhalf⟩ := hc.recv h hx hask
        have hrecv : (Exec.zoom f p (t.recv (min (size - received) bufferSize).toNat)).run s
            = .ok (x.take k) (p l s) :=
          Exec.zoom_of_ok hrun
        obtain ⟨b₁, s₁, hdone, hs₁, hget⟩ := hact u b (p l s) (x.take k) (hI u b s l hs)
        rw [hput] at hget
        have hk : (x.take k).length = k := by rw [List.length_take, Nat.min_eq_left hlen]
        have hleft : (size - (received + k)).toNat = (size - received).toNat - k := by omega
        rw [Exec.bind_of_ok hrecv, Exec.bind_of_ok hdone, hk]
        have hrest := ih (received + k) hs₁ (x := x.drop k) (by rw [hget]; exact hl) (by omega)
        rw [hleft, List.length_drop, hget] at hrest
        split at hrest
        · rw [if_pos (by omega)]
          obtain ⟨b', s', hrun', hs', hx', hhalf'⟩ := hrest
          refine ⟨b', s', hrun', ?_, ?_, hhalf'.trans hhalf⟩
          · have hsplit : x.take (size - received).toNat
                = x.take k ++ (x.drop k).take ((size - received).toNat - k) := by
              rw [← List.take_add, Nat.add_sub_cancel' (by omega)]
            rw [hsplit, ← List.append_assoc]
            exact hs'
          · rwa [List.drop_drop,
              show k + ((size - received).toNat - k) = (size - received).toNat by omega] at hx'
        · rw [if_neg (by omega)]
          obtain ⟨e, b', s', hrun', hs', hhalf'⟩ := hrest
          refine ⟨e, b', s', hrun', ?_, hhalf'.trans hhalf⟩
          rw [List.append_assoc, List.take_append_drop] at hs'
          exact hs'
    · have hzero : (size - received).toNat = 0 := by omega
      rw [hzero, if_pos (Nat.zero_le _), Transport.bodyLoop, if_neg hlt]
      refine ⟨b, s, rfl, ?_, h, rfl⟩
      rw [List.take_zero, List.append_nil]
      exact hs

/-! ### Sending -/

/-- Sending leaves alone what is still to be read. -/
def SendsAside (t : Transport τ) (holds : Bytes → τ → Prop) : Prop :=
  ∀ {s bs : Bytes} {x x' : τ} {n : ℤ}, holds s x → (t.send bs).run x = .ok n x' → holds s x'

/-- Two transports, each with a stream, whose calls of `send` end alike if their sending halves are
the `same` after the packets `ps`, unless the first one is `spent`. -/
def SendsAlike {τ' γ' : Type} (t : Transport τ) (holds : Bytes → τ → Prop) (half : τ → γ)
    (t' : Transport τ') (holds' : Bytes → τ' → Prop) (half' : τ' → γ')
    (same : List Bytes → γ → γ' → Prop) (spent : List Bytes → γ → Prop) : Prop :=
  ∀ (ps : List Bytes) (s s' plaintext : Bytes), plaintext ≠ [] → Exec.Both
    (fun x x' => holds s x ∧ holds' s' x' ∧ same ps (half x) (half' x')) (t.send plaintext)
    (t'.send plaintext)
    (fun _ _ x x' => holds s x ∧ holds' s' x' ∧ same (ps ++ [plaintext]) (half x) (half' x'))
    (fun x x' => spent (ps ++ [plaintext]) (half x) ∨
      same (ps ++ [plaintext]) (half x) (half' x'))
    fun x _ => spent (ps ++ [plaintext]) (half x)

end Transport

/-- A string carries itself. -/
theorem plain_carries : Transport.plain.Carries (fun s l => l = s) fun _ => () := by
  constructor
  · intro s x n hx hne hn
    subst hx
    have hlen := List.length_pos_iff.mpr hne
    refine ⟨min n x.length, x.drop n, by omega, Nat.min_le_left _ _, Nat.min_le_right _ _, ?_, ?_,
      rfl⟩
    · rw [← List.take_eq_take_min]
      show (Exec.require (x ≠ []) _ >>= fun _ => _).run x = _
      rw [Exec.bind_of_ok (Exec.run_require_of_true hne)]
      rfl
    · exact List.drop_eq_drop_min
  · intro x n hx hn
    subst hx
    exact ⟨_, _, rfl, rfl⟩

theorem plain_sendsAside : Transport.plain.SendsAside fun s l => l = s := by
  intro s bs x x' n hx hrun
  cases hrun
  exact hx

end Cybrg
