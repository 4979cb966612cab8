import Cybrg.Common.Headers
import Cybrg.Server.Confinement

/-!
# Where a request ends

`Client::recvCmd` reads single bytes until the last two are newlines, at most `BUFFER_SIZE - 1` of
them, and hands its buffer on as a string that ends at the first zero.

* `EndsFirst` — a header: it ends with its first two newlines in a row;
* `scan_of_endsAfter`, `scan_of_open` — what the loop reads of a stream, with a header that fits into
  the buffer and without one;
* `framing_iff` — `recvCmd` reads exactly the next header and hands all of it on iff this header
  fits and has no zero in it, or the stream ends before its header and the buffer do.
-/

namespace Cybrg

open Streams Files

/-! ### Headers -/

/-- It ends with two newlines, and no shorter part of it does. -/
def EndsFirst (h : Bytes) : Prop := [10, 10] <:+ h ∧ ∀ p, p <+: h → [10, 10] <:+ p → p = h

/-- The same, read byte by byte behind the byte `a`. -/
def EndsAfter : Byte → Bytes → Prop
  | _, [] => False
  | a, b :: h => if (a, b) = (10, 10) then h = [] else EndsAfter b h

theorem suffix_longer {a b : Byte} {q : Bytes} (hq : q ≠ []) :
    [10, 10] <:+ a :: b :: q ↔ [10, 10] <:+ b :: q := by
  rw [List.suffix_cons_iff, or_iff_right]
  intro h
  have hlen := congrArg List.length h
  have hpos := List.length_pos_iff.mpr hq
  simp only [List.length_cons, List.length_nil] at hlen
  omega

theorem suffix_two {a b : Byte} : [10, 10] <:+ [a, b] ↔ (a, b) = (10, 10) := by
  constructor
  · intro h
    have heq := h.eq_of_length rfl
    injection heq with h₁ h₂
    injection h₂ with h₂
    rw [← h₁, ← h₂]
  · intro h
    cases h
    exact List.suffix_rfl

theorem endsAfter_iff {a : Byte} {h : Bytes} :
    EndsAfter a h ↔ h ≠ [] ∧ [10, 10] <:+ a :: h ∧
      ∀ p, p ≠ [] → p <+: h → [10, 10] <:+ a :: p → p = h := by
  induction h generalizing a with
  | nil => exact ⟨fun hf => hf.elim, fun hf => hf.1 rfl⟩
  | cons b h ih =>
    by_cases hab : (a, b) = (10, 10)
    · rw [EndsAfter, if_pos hab]
      constructor
      · rintro rfl
        refine ⟨List.cons_ne_nil b [], suffix_two.mpr hab, fun p hp hpre _ => ?_⟩
        obtain ⟨x, p, rfl⟩ := List.exists_cons_of_ne_nil hp
        obtain ⟨rfl, hp'⟩ := List.cons_prefix_cons.mp hpre
        rw [List.prefix_nil.mp hp']
      · rintro ⟨-, -, hall⟩
        have hone := hall [b] (List.cons_ne_nil b [])
          (List.cons_prefix_cons.mpr ⟨rfl, List.nil_prefix⟩) (suffix_two.mpr hab)
        exact (List.cons.inj hone).2.symm
    · rw [EndsAfter, if_neg hab, ih]
      constructor
      · rintro ⟨hne, hend, hall⟩
        refine ⟨List.cons_ne_nil b h, (suffix_longer hne).mpr hend, fun p hp hpre hsuf => ?_⟩
        obtain ⟨x, p, rfl⟩ := List.exists_cons_of_ne_nil hp
        obtain ⟨rfl, hp'⟩ := List.cons_prefix_cons.mp hpre
        by_cases hnil : p = []
        · subst hnil
          exact absurd (suffix_two.mp hsuf) hab
        · rw [hall p hnil hp' ((suffix_longer hnil).mp hsuf)]
      · rintro ⟨-, hend, hall⟩
        have hne : h ≠ [] := by
          rintro rfl
          exact hab (suffix_two.mp hend)
        refine ⟨hne, (suffix_longer hne).mp hend, fun p hp hpre hsuf => ?_⟩
        have hcons := hall (b :: p) (List.cons_ne_nil b p)
          (List.cons_prefix_cons.mpr ⟨rfl, hpre⟩) ((suffix_longer hp).mpr hsuf)
        exact (List.cons.inj hcons).2

/-- A header read from the beginning: the shift register holds zeros. -/
theorem endsFirst_iff {h : Bytes} : EndsFirst h ↔ EndsAfter 0 h := by
  rw [endsAfter_iff]
  have hzero : ∀ p : Bytes, p ≠ [] → ([10, 10] <:+ 0 :: p ↔ [10, 10] <:+ p) := by
    intro p hp
    rw [List.suffix_cons_iff, or_iff_right]
    intro heq
    cases heq
  constructor
  · rintro ⟨hend, hall⟩
    have hne : h ≠ [] := by
      rintro rfl
      cases List.suffix_nil.mp hend
    refine ⟨hne, (hzero h hne).mpr hend, fun p hp hpre hsuf => ?_⟩
    exact hall p hpre ((hzero p hp).mp hsuf)
  · rintro ⟨hne, hend, hall⟩
    refine ⟨(hzero h hne).mp hend, fun p hpre hsuf => ?_⟩
    have hp : p ≠ [] := by
      rintro rfl
      cases List.suffix_nil.mp hsuf
    exact hall p hp hpre ((hzero p hp).mpr hsuf)

instance decidableEndsAfter : ∀ (a : Byte) (h : Bytes), Decidable (EndsAfter a h)
  | _, [] => inferInstanceAs (Decidable False)
  | a, b :: h =>
      have := decidableEndsAfter b h
      inferInstanceAs (Decidable (if (a, b) = (10, 10) then h = [] else EndsAfter b h))

instance (h : Bytes) : Decidable (EndsFirst h) := decidable_of_iff _ endsFirst_iff.symm

/-- A stream begins with one header at most. -/
theorem EndsFirst.unique {h h' rest rest' : Bytes} (hh : EndsFirst h) (hh' : EndsFirst h')
    (heq : h ++ rest = h' ++ rest') : h = h' := by
  rcases List.append_eq_append_iff.mp heq with ⟨q, rfl, -⟩ | ⟨q, rfl, -⟩
  · exact hh'.2 h (List.prefix_append _ _) hh.1
  · exact (hh.2 h' (List.prefix_append _ _) hh'.1).symm

/-! ### The loop of `recvCmd` -/

namespace Transport

/-- A header that is not longer than the loop goes on. -/
theorem scan_of_endsAfter {h : Bytes} {n : ℕ} {r : Byte × Byte} (hh : EndsAfter r.2 h)
    (hn : h.length ≤ n) (rest : Bytes) : scan n r (h ++ rest) = some (h, rest) := by
  induction h generalizing n r with
  | nil => exact hh.elim
  | cons b h ih =>
    cases n with
    | zero => exact absurd hn (Nat.not_succ_le_zero _)
    | succ n =>
      rw [EndsAfter] at hh
      rw [List.cons_append, scan]
      by_cases hb : (r.2, b) = (10, 10)
      · rw [if_pos hb] at hh ⊢
        rw [hh, List.nil_append]
      · rw [if_neg hb] at hh ⊢
        rw [ih hh (Nat.le_of_succ_le_succ hn)]
        rfl

/-- No header ends among the next `n` bytes. -/
def Open (n : ℕ) (a : Byte) (s : Bytes) : Prop :=
  ∀ h rest, s = h ++ rest → EndsAfter a h → n < h.length

theorem Open.cons {n : ℕ} {a b : Byte} {s : Bytes} (hs : Open (n + 1) a (b :: s)) :
    (a, b) ≠ (10, 10) ∧ Open n b s := by
  have hb : (a, b) ≠ (10, 10) := by
    intro hb
    have hlt := hs [b] s rfl (by rw [EndsAfter, if_pos hb])
    rw [List.length_singleton] at hlt
    omega
  refine ⟨hb, fun h rest hsplit hh => ?_⟩
  have hlt := hs (b :: h) rest (by rw [hsplit, List.cons_append]) (by rwa [EndsAfter, if_neg hb])
  rw [List.length_cons] at hlt
  omega

/-- Without a header the loop takes all the bytes it can, and throws where the stream ends. -/
theorem scan_of_open {n : ℕ} {r : Byte × Byte} {s : Bytes} (hs : Open n r.2 s) :
    scan n r s = if n ≤ s.length then some (s.take n, s.drop n) else none := by
  induction n generalizing r s with
  | zero => rfl
  | succ n ih =>
    cases s with
    | nil => rfl
    | cons b s =>
      obtain ⟨hb, hs'⟩ := hs.cons
      have hrest : scan n (r.2, b) s = if n ≤ s.length then some (s.take n, s.drop n) else none :=
        ih hs'
      rw [scan, if_neg hb, hrest, List.length_cons]
      by_cases hn : n ≤ s.length
      · rw [if_pos hn, if_pos (Nat.succ_le_succ hn)]
        rfl
      · rw [if_neg hn, if_neg (fun h => hn (Nat.le_of_succ_le_succ h))]
        rfl

/-- **A header that fits into the buffer** is read, and is handed on up to its first zero. -/
theorem scanHeader_of_endsFirst {h : Bytes} (hh : EndsFirst h) (hfits : h.length < bufferSize)
    (rest : Bytes) : scanHeader (h ++ rest) = some (upToZero h, rest) := by
  have hscan := scan_of_endsAfter (r := (0, 0)) (endsFirst_iff.mp hh) (Nat.le_sub_one_of_lt hfits)
    rest
  rw [scanHeader, hscan]
  rfl

end Transport

/-! ### `recvCmd` -/

namespace ServerClient

variable {τ γ : Type} {t : Transport τ} {holds : Bytes → τ → Prop} {half : τ → γ}

/-- The call of `recvCmd`, if it returns, has taken exactly the next header from the stream `s` and
handed all of it to the parser; if it throws, no header was there that fits into the buffer. -/
def FramesHeader (t : Transport τ) (holds : Bytes → τ → Prop) (s : Bytes) (c : Client τ) : Prop :=
  match (recvCmd t).run c with
  | .ok _ c' => ∃ h rest, s = h ++ rest ∧ EndsFirst h ∧ c'.is.rest = h ∧ holds rest c'.link
  | .error _ _ => ∀ h rest, s = h ++ rest → EndsFirst h → bufferSize ≤ h.length

/-- The next header fits into the buffer and has no zero in it, or the stream is over before
anything that could be one. -/
def Framed (s : Bytes) : Prop :=
  (∃ h rest, s = h ++ rest ∧ EndsFirst h ∧ h.length < bufferSize ∧ 0 ∉ h) ∨
    (s.length < bufferSize - 1 ∧ ∀ h rest, s = h ++ rest → ¬ EndsFirst h)

/-- What `recvCmd` does with the stream it is on. -/
theorem recvCmd_scan (hc : t.Carries holds half) {c : Client τ} {s : Bytes} (h : holds s c.link) :
    match Transport.scanHeader s with
    | some (header, rest) => ∃ l, (recvCmd t).run c
        = .ok () { c with link := l, is := { rest := header } } ∧ holds rest l
    | none => ∃ e c', (recvCmd t).run c = .error e c' := by
  have hrecv := hc.recvHeader (x := c.link) h
  have hclear := EStateM.run_modify (ε := Ex)
    (fun c : Client τ => { c with is := (c.is.ignore bufferSize).clear }) c
  cases hs : Transport.scanHeader s with
  | none =>
    rw [hs] at hrecv
    obtain ⟨e, l, hrun, -⟩ := hrecv
    have hread := onLink_of_error (c := { c with is := (c.is.ignore bufferSize).clear }) hrun
    unfold recvCmd
    rw [Exec.bind_of_ok hclear, Exec.bind_of_error hread]
    exact ⟨e, _, rfl⟩
  | some y =>
    obtain ⟨header, rest⟩ := y
    rw [hs] at hrecv
    obtain ⟨l, hrun, hl, -⟩ := hrecv
    have hread := onLink_of_ok (c := { c with is := (c.is.ignore bufferSize).clear }) hrun
    unfold recvCmd
    rw [Exec.bind_of_ok hclear, Exec.bind_of_ok hread]
    exact ⟨l, rfl, hl⟩

theorem upToZero_eq_iff {h : Bytes} : upToZero h = h ↔ 0 ∉ h := by
  constructor
  · intro heq h0
    have hall := List.takeWhile_eq_self_iff.mp heq 0 h0
    exact of_decide_eq_true hall rfl
  · exact upToZero_of_nonzero

/-- Without a header that fits, the loop of `recvCmd` goes on as long as it can. -/
theorem open_of_unfit {s : Bytes}
    (h : ∀ header rest, s = header ++ rest → EndsFirst header → bufferSize ≤ header.length) :
    Transport.Open (bufferSize - 1) 0 s := by
  intro header rest hsplit hends
  have hle := h header rest hsplit (endsFirst_iff.mpr hends)
  have hb : bufferSize = 4096 := rfl
  omega

theorem scanHeader_of_open {s : Bytes} (hs : Transport.Open (bufferSize - 1) 0 s) :
    Transport.scanHeader s = if bufferSize - 1 ≤ s.length then
      some (upToZero (s.take (bufferSize - 1)), s.drop (bufferSize - 1)) else none := by
  have hscan : Transport.scan (bufferSize - 1) (0, 0) s = _ := Transport.scan_of_open hs
  rw [Transport.scanHeader, hscan]
  split <;> rfl

/-- The next header fits into the buffer. -/
theorem framing_of_fits (hc : t.Carries holds half) {c : Client τ} {s h₀ rest₀ : Bytes}
    (h : holds s c.link) (hs : s = h₀ ++ rest₀) (hends : EndsFirst h₀)
    (hfits : h₀.length < bufferSize) : FramesHeader t holds s c ↔ 0 ∉ h₀ := by
  subst hs
  have hrun := recvCmd_scan hc h
  rw [Transport.scanHeader_of_endsFirst hends hfits] at hrun
  obtain ⟨l, hrun, hl⟩ := hrun
  rw [FramesHeader, hrun]
  constructor
  · rintro ⟨header, rest, hsplit, hends', hread, -⟩
    obtain rfl := EndsFirst.unique hends hends' hsplit
    exact upToZero_eq_iff.mp hread
  · exact fun h0 => ⟨h₀, rest₀, rfl, hends, upToZero_eq_iff.mpr h0, hl⟩

/-- The next header does not fit into the buffer, or is not there. -/
theorem framing_of_unfit (hc : t.Carries holds half) {c : Client τ} {s : Bytes}
    (h : holds s c.link)
    (hunfit : ∀ header rest, s = header ++ rest → EndsFirst header → bufferSize ≤ header.length) :
    FramesHeader t holds s c ↔ s.length < bufferSize - 1 := by
  have hrun := recvCmd_scan hc h
  rw [scanHeader_of_open (open_of_unfit hunfit)] at hrun
  by_cases hlen : bufferSize - 1 ≤ s.length
  · -- the text handed on is shorter than any header could be
    rw [if_pos hlen] at hrun
    obtain ⟨l, hrun, -⟩ := hrun
    rw [FramesHeader, hrun]
    refine iff_of_false ?_ (not_lt.mpr hlen)
    rintro ⟨header, rest, hsplit, hends, hread, -⟩
    have hlong := hunfit header rest hsplit hends
    have hshort : header.length ≤ bufferSize - 1 := by
      rw [← hread]
      exact (List.takeWhile_prefix _).length_le.trans (List.length_take_le _ _)
    have hb : bufferSize = 4096 := rfl
    omega
  · rw [if_neg hlen] at hrun
    obtain ⟨e, c', hrun⟩ := hrun
    rw [FramesHeader, hrun]
    exact iff_of_true hunfit (not_le.mp hlen)

/-- **Where a request ends.**  On every stream, `recvCmd` takes exactly the next header and hands
all of it on, or throws where there is none that fits, if and only if the stream is framed. -/
theorem framing_iff (hc : t.Carries holds half) {c : Client τ} {s : Bytes} (h : holds s c.link) :
    FramesHeader t holds s c ↔ Framed s := by
  by_cases hfit : ∃ header rest, s = header ++ rest ∧ EndsFirst header ∧ header.length < bufferSize
  · obtain ⟨h₀, rest₀, rfl, hends, hfits⟩ := hfit
    rw [framing_of_fits hc h rfl hends hfits]
    constructor
    · exact fun h0 => .inl ⟨h₀, rest₀, rfl, hends, hfits, h0⟩
    · rintro (⟨header, rest, hsplit, hends', -, h0⟩ | ⟨-, hnone⟩)
      · rwa [EndsFirst.unique hends hends' hsplit]
      · exact absurd hends (hnone h₀ rest₀ rfl)
  · have hunfit : ∀ header rest, s = header ++ rest → EndsFirst header →
        bufferSize ≤ header.length := by
      intro header rest hsplit hends
      by_contra hlt
      exact hfit ⟨header, rest, hsplit, hends, not_le.mp hlt⟩
    rw [framing_of_unfit hc h hunfit]
    constructor
    · intro hlen
      refine .inr ⟨hlen, fun header rest hsplit hends => ?_⟩
      have hlong := hunfit header rest hsplit hends
      rw [hsplit, List.length_append] at hlen
      have hb : bufferSize = 4096 := rfl
      omega
    · rintro (⟨header, rest, hsplit, hends, hlt, -⟩ | ⟨hlen, -⟩)
      · exact absurd ⟨header, rest, hsplit, hends, hlt⟩ hfit
      · exact hlen

/-- Two requests: the first one is taken. -/
theorem framing_list :
    FramesHeader .plain (fun s l => l = s) (text "LIST\n\nQUIT\n\n")
      (emptyRoot (text "LIST\n\nQUIT\n\n")) := by
  refine (framing_iff (c := emptyRoot (text "LIST\n\nQUIT\n\n")) plain_carries rfl).mpr (.inl ?_)
  exact ⟨text "LIST\n\n", text "QUIT\n\n", by decide, by decide +kernel, by decide, by decide⟩

/-- A header that is four bytes longer than the buffer. -/
def overlong : Bytes := text "DELE a\n" ++ (List.replicate 4091 97 ++ text "\n\n")

theorem overlong_ends : EndsFirst overlong ∧ overlong.length = bufferSize + 4 := by
  decide +kernel

/-- **A zero cuts the request short**, and a header that does not fit into the buffer is handed on
all the same, without its end. -/
theorem framing_lost :
    (∃ c, (recvCmd .plain).run (emptyRoot (text "DELE a\x00b\n\n")) = .ok () c ∧
      c.is.rest = text "DELE a") ∧
    ¬ FramesHeader .plain (fun s l => l = s) (text "DELE a\x00b\n\n")
      (emptyRoot (text "DELE a\x00b\n\n")) ∧
    ¬ FramesHeader .plain (fun s l => l = s) overlong (emptyRoot overlong) := by
  refine ⟨⟨_, rfl, ?_⟩, ?_, ?_⟩
  · decide +kernel
  · have hends : EndsFirst (text "DELE a\x00b\n\n") := by decide +kernel
    have hframes : FramesHeader .plain (fun s l => l = s) (text "DELE a\x00b\n\n")
        (emptyRoot (text "DELE a\x00b\n\n")) ↔ 0 ∉ text "DELE a\x00b\n\n" :=
      framing_of_fits plain_carries rfl (List.append_nil _).symm hends (by decide)
    rw [hframes]
    decide
  · have hunfit : ∀ header rest, overlong = header ++ rest → EndsFirst header →
        bufferSize ≤ header.length := by
      intro header rest hsplit hends
      have heq : overlong = header :=
        EndsFirst.unique overlong_ends.1 hends ((List.append_nil _).trans hsplit)
      rw [← heq, overlong_ends.2]
      exact Nat.le_add_right _ _
    have hframes : FramesHeader .plain (fun s l => l = s) overlong (emptyRoot overlong) ↔
        overlong.length < bufferSize - 1 := framing_of_unfit plain_carries rfl hunfit
    rw [hframes, overlong_ends.2]
    exact not_lt.mpr ((Nat.sub_le _ _).trans (Nat.le_add_right _ _))

end ServerClient

end Cybrg
