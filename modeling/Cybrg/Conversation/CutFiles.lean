import Cybrg.Conversation.Prompt

/-!
# How a file is cut into packets

`cmd_retr` writes a file into its stream byte by byte.  It sends what is there after the first byte,
then after every `BUFFER_SIZE` bytes, and once more at the end.

* `chunks_count`, `chunks_left` — how many packets the loop sends, and how much it leaves;
* `bodyPackets_length` — the number of packets of a file;
* `Cuts` — a piece of program that sends some packets, with `retrLoop_cuts` and `cmdRetr_cuts`;
* `retr_packets` — the packets behind the header are the file, none of them empty or too long.
-/

namespace Cybrg

open Streams Files

namespace ServerClient

/-! ### Numbers -/

/-- The loop sends a packet at every multiple of `BUFFER_SIZE` that its counter passes. -/
theorem chunks_count (content : Bytes) (count : ℕ) (os : Bytes) :
    (count + (bufferSize - 1)) / bufferSize + (chunks content count os).1.length
      = (count + content.length + (bufferSize - 1)) / bufferSize := by
  have hb : bufferSize = 4096 := rfl
  induction content generalizing count os with
  | nil => rfl
  | cons b content ih =>
    rw [chunks]
    split
    · rename_i hcount
      have hrest := ih (count + 1) []
      rw [List.length_cons, List.length_cons]
      rw [hb] at hcount hrest ⊢
      omega
    · rename_i hcount
      have hrest := ih (count + 1) (os ++ [b])
      rw [List.length_cons]
      rw [hb] at hcount hrest ⊢
      omega

/-- How much waits after `count` bytes: a packet went out behind the first one. -/
def waiting (count : ℕ) : ℕ := if count = 0 then 0 else (count - 1) % bufferSize

theorem waiting_succ (count : ℕ) :
    waiting (count + 1) = if count % bufferSize = 0 then 0 else waiting count + 1 := by
  have hb : bufferSize = 4096 := rfl
  rw [waiting, if_neg (Nat.succ_ne_zero count), Nat.add_sub_cancel]
  cases count with
  | zero => rfl
  | succ k =>
    rw [waiting, if_neg (Nat.succ_ne_zero k), Nat.add_sub_cancel, hb]
    split <;> omega

theorem chunks_left (content : Bytes) {count : ℕ} {os : Bytes} (hos : os.length = waiting count) :
    (chunks content count os).2.length = waiting (count + content.length) := by
  induction content generalizing count os with
  | nil => exact hos
  | cons b content ih =>
    have hnext := waiting_succ count
    rw [chunks, List.length_cons, show count + (content.length + 1) = count + 1 + content.length by omega]
    split
    · rename_i hcount
      rw [if_pos hcount] at hnext
      exact ih hnext.symm
    · rename_i hcount
      rw [if_neg hcount] at hnext
      refine ih ?_
      rw [hnext, List.length_append, hos, List.length_singleton]

theorem packetsOf_length (bs : Bytes) : (packetsOf bs).length = if bs.length = 0 then 0 else 1 := by
  unfold packetsOf
  split
  · rename_i hnil
    rw [hnil]
    rfl
  · rename_i hne
    rw [if_neg fun hlen => hne (List.length_eq_zero_iff.mp hlen)]
    rfl

/-- The number of packets for `n` bytes: one for the first byte, and then full ones. -/
def pieces (n : ℕ) : ℕ := if n = 0 then 0 else 1 + (n - 1 + (bufferSize - 1)) / bufferSize

/-- **The number of packets of a file.** -/
theorem bodyPackets_length (content : Bytes) :
    (bodyPackets content).length = pieces content.length := by
  have hb : bufferSize = 4096 := rfl
  have hcount := chunks_count content 0 []
  have hwaiting : ([] : Bytes).length = waiting 0 := rfl
  have hleft := chunks_left content hwaiting
  rw [Nat.zero_add] at hcount hleft
  rw [bodyPackets, List.length_append, packetsOf_length, hleft, pieces]
  cases content with
  | nil => rfl
  | cons b content =>
    have hn : (b :: content).length = content.length + 1 := rfl
    rw [hn, Nat.zero_add] at hcount
    rw [hn, waiting, if_neg (Nat.succ_ne_zero _), if_neg (Nat.succ_ne_zero _), Nat.add_sub_cancel]
    rw [hb] at hcount ⊢
    split <;> omega

/-! ### What is sent -/

section Cuts

variable {τ : Type} (t : Transport τ)

/-- It hands the packets `ps` to `Crypto::send`, one call after the other, and leaves `os` to be sent; if
it throws, then because one of these calls has thrown. -/
def Cuts (m : EStateM Ex (Client τ) Unit) (c : Client τ) (ps : List Bytes) (os : Bytes) : Prop :=
  match m.run c with
  | .ok _ c' => c'.packets = c.packets ++ ps ∧ c'.os = os ∧
      ∃ ns, (ps.mapM t.send).run c.link = .ok ns c'.link
  | .error e c' => ∃ qs, qs <+: ps ∧ c'.packets = c.packets ++ qs ∧
      (qs.mapM t.send).run c.link = .error e c'.link

variable {t}

/-- More packets are sent where the first ones have been. -/
theorem mapM_send_append {ps qs : List Bytes} {l l' : τ} {ns : List ℤ}
    (h : (ps.mapM t.send).run l = .ok ns l') :
    ((ps ++ qs).mapM t.send).run l = match (qs.mapM t.send).run l' with
      | .ok ms l'' => .ok (ns ++ ms) l''
      | .error e l'' => .error e l'' := by
  rw [List.mapM_append, Exec.bind_of_ok h]
  cases hq : (qs.mapM t.send).run l' with
  | ok ms l'' => exact Exec.bind_of_ok hq
  | error e l'' => exact Exec.bind_of_error hq

theorem mapM_send_begins {ps qs : List Bytes} (hqs : qs <+: ps) {l l' : τ} {e : Ex}
    (h : (qs.mapM t.send).run l = .error e l') : (ps.mapM t.send).run l = .error e l' := by
  obtain ⟨rest, rfl⟩ := hqs
  rw [List.mapM_append]
  exact Exec.bind_of_error h

/-- Two pieces, one after another. -/
theorem Cuts.bind {m : EStateM Ex (Client τ) Unit} {f : Unit → EStateM Ex (Client τ) Unit}
    {c : Client τ} {ps qs : List Bytes} {os os' : Bytes} (hm : Cuts t m c ps os)
    (hf : ∀ c', c'.os = os → Cuts t (f ()) c' qs os') : Cuts t (m >>= f) c (ps ++ qs) os' := by
  unfold Cuts at hm ⊢
  cases hrun : m.run c with
  | error e c' =>
    rw [hrun] at hm
    obtain ⟨us, hus, hpackets, hsend⟩ := hm
    rw [Exec.bind_of_error hrun]
    exact ⟨us, hus.trans (List.prefix_append _ _), hpackets, hsend⟩
  | ok u c' =>
    rw [hrun] at hm
    obtain ⟨hpackets, hos, ns, hsend⟩ := hm
    have hrest := hf c' hos
    unfold Cuts at hrest
    rw [Exec.bind_of_ok hrun]
    cases hnext : (f u).run c' with
    | ok u' c'' =>
      rw [hnext] at hrest
      obtain ⟨hpackets', hos', ms, hsend'⟩ := hrest
      refine ⟨by rw [hpackets', hpackets, List.append_assoc], hos', ns ++ ms, ?_⟩
      rw [mapM_send_append hsend, hsend']
    | error e c'' =>
      rw [hnext] at hrest
      obtain ⟨us, hus, hpackets', hsend'⟩ := hrest
      refine ⟨ps ++ us, (List.prefix_append_right_inj ps).mpr hus, ?_, ?_⟩
      · rw [hpackets', hpackets, List.append_assoc]
      · rw [mapM_send_append hsend, hsend']

/-- **It returns if every call of `Crypto::send` does.** -/
theorem Cuts.returns {m : EStateM Ex (Client τ) Unit} {c : Client τ} {ps : List Bytes} {os : Bytes}
    (h : Cuts t m c ps os) {ns : List ℤ} {l : τ} (hsend : (ps.mapM t.send).run c.link = .ok ns l) :
    ∃ c', m.run c = .ok () c' ∧ c'.link = l ∧ c'.packets = c.packets ++ ps := by
  unfold Cuts at h
  cases hrun : m.run c with
  | ok u c' =>
    rw [hrun] at h
    obtain ⟨hpackets, -, ms, hsent⟩ := h
    rw [hsend] at hsent
    cases hsent
    exact ⟨c', rfl, rfl, hpackets⟩
  | error e c' =>
    rw [hrun] at h
    obtain ⟨qs, hqs, -, herror⟩ := h
    rw [mapM_send_begins hqs herror] at hsend
    cases hsend

theorem write_cuts (bs : Bytes) (c : Client τ) : Cuts t (write bs) c [] (c.os ++ bs) :=
  ⟨(List.append_nil _).symm, rfl, [], rfl⟩

theorem sendCmd_cuts (c : Client τ) : Cuts t (sendCmd t) c (packetsOf c.os) [] := by
  unfold Cuts
  by_cases hnil : c.os = []
  · rw [sendCmd_of_empty t hnil, packetsOf, if_pos hnil]
    exact ⟨(List.append_nil _).symm, hnil, [], rfl⟩
  · rw [sendCmd_run t hnil, packetsOf_of_ne hnil]
    cases hsend : (t.send c.os).run c.link with
    | ok n l => exact ⟨rfl, rfl, [n], Exec.bind_of_ok hsend⟩
    | error e l => exact ⟨[c.os], List.prefix_rfl, rfl, Exec.bind_of_error hsend⟩

/-- **The loop of `cmd_retr`** sends the file in the pieces of `chunks`. -/
theorem retrLoop_cuts (content : Bytes) (count : ℕ) (c : Client τ) :
    Cuts t (retrLoop t content count) c (chunks content count c.os).1
      (chunks content count c.os).2 := by
  induction content generalizing count c with
  | nil => exact ⟨(List.append_nil _).symm, rfl, [], rfl⟩
  | cons b content ih =>
    rw [chunks]
    split
    · rename_i hcount
      have hne : c.os ++ [b] ≠ [] := List.append_ne_nil_of_right_ne_nil _ (List.cons_ne_nil _ _)
      refine (write_cuts [b] c).bind fun c₁ hos => ?_
      rw [sendFull, if_pos hcount]
      have hsend := sendCmd_cuts (t := t) c₁
      rw [hos, packetsOf_of_ne hne] at hsend
      have hrest : ∀ c₂ : Client τ, c₂.os = [] → Cuts t (retrLoop t content (count + 1)) c₂
          (chunks content (count + 1) []).1 (chunks content (count + 1) []).2 := by
        intro c₂ hos₂
        rw [← hos₂]
        exact ih (count + 1) c₂
      exact hsend.bind hrest
    · rename_i hcount
      refine (write_cuts [b] c).bind fun c₁ hos => ?_
      rw [sendFull, if_neg hcount, pure_bind, ← hos]
      exact ih (count + 1) c₁

/-- **`cmd_retr`** sends the header and the packets of what can be read. -/
theorem cmdRetr_cuts {c : Client τ} {node : Node}
    (h : (opened c.host (c.is.word []).1).1 = some node) :
    Cuts t (cmdRetr t) c ((c.os ++ sizeReply ((opened c.host (c.is.word []).1).2.contents node).2) ::
      bodyPackets (readableOf (opened c.host (c.is.word []).1).2 node)) [] := by
  have hrun := cmdRetr_opened t h
  generalize (opened c.host (c.is.word []).1).2 = h₁ at hrun ⊢
  have hne : c.os ++ sizeReply (h₁.contents node).2 ≠ [] :=
    List.append_ne_nil_of_right_ne_nil _ (sizeReply_ne_nil _)
  unfold Cuts
  rw [hrun]
  refine (write_cuts _ { c with is := (c.is.word []).2, host := h₁.limited }).bind fun c₁ hos₁ => ?_
  have hheader := sendCmd_cuts (t := t) c₁
  rw [hos₁, packetsOf_of_ne hne] at hheader
  refine hheader.bind fun c₂ hos₂ => ?_
  have hloop := retrLoop_cuts (t := t) (readableOf h₁ node) 0 c₂
  rw [hos₂] at hloop
  refine hloop.bind fun c₃ hos₃ => ?_
  rw [← hos₃]
  exact sendCmd_cuts c₃

theorem opened_limits (h : Host) (filename : Bytes) : (opened h filename).2.limits = h.limits := by
  unfold opened
  split
  · rfl
  · exact Host.called_limits _ _ _

/-- The lengths of some packets add up to that of their text. -/
theorem sum_of_flatten {ps : List Bytes} {content : Bytes} (h : ps.flatten = content)
    (hlen : content.length < 2 ^ 63) : ((ps.map List.length).sum : ℤ) = toInt64 content.length := by
  have hint : toInt64 content.length = content.length :=
    Int.bmod_eq_of_le (by omega) (by omega)
  rw [hint, ← h, List.length_flatten]

/-- **A file is cut correctly.**  The packets that `cmd_retr` sends behind its header have 1 to
`BUFFER_SIZE` bytes; it throws only where a call of `Crypto::send` throws, and else has sent all of them;
together they are what can be read of the file, in as many packets as `pieces` tells; and if all of it
can be read, they are the file, and their total is the size in the header. -/
theorem retr_packets (t : Transport τ) {c : Client τ} {content : Bytes}
    (h : (opened c.host (c.is.word []).1).1 = some (.file content)) :
    ∃ ps, Cuts t (cmdRetr t) c ((c.os ++ sizeReply (toInt64 content.length)) :: ps) [] ∧
      (∀ ns l, (((c.os ++ sizeReply (toInt64 content.length)) :: ps).mapM t.send).run c.link = .ok ns l →
        ∃ c', (cmdRetr t).run c = .ok () c' ∧ c'.link = l ∧
          c'.packets = c.packets ++ (c.os ++ sizeReply (toInt64 content.length)) :: ps) ∧
      (∀ p ∈ ps, 1 ≤ p.length ∧ p.length ≤ bufferSize) ∧
      ps.flatten = content.take (c.host.limits.headD content.length) ∧
      ps.length = pieces ps.flatten.length ∧
      (content.length ≤ c.host.limits.headD content.length →
        ps.flatten = content ∧ ps.length = pieces content.length ∧
        (content.length < 2 ^ 63 → ((ps.map List.length).sum : ℤ) = toInt64 content.length)) := by
  have hread : readableOf (opened c.host (c.is.word []).1).2 (.file content)
      = content.take (c.host.limits.headD content.length) := by
    rw [← opened_limits c.host (c.is.word []).1]
    rfl
  have hsize : ((opened c.host (c.is.word []).1).2.contents (.file content)).2
      = toInt64 content.length := by rw [Host.contents]
  have hcuts := cmdRetr_cuts (t := t) h
  rw [hread, hsize] at hcuts
  generalize hps : bodyPackets (content.take (c.host.limits.headD content.length)) = ps at hcuts
  have hflat : ps.flatten = content.take (c.host.limits.headD content.length) := by
    rw [← hps]
    exact bodyPackets_flatten _
  have hcount : ps.length = pieces ps.flatten.length := by
    rw [hflat, ← hps]
    exact bodyPackets_length _
  refine ⟨ps, hcuts, fun ns l hsend => hcuts.returns hsend, ?_, hflat, hcount, fun hall => ?_⟩
  · rw [← hps]
    exact bodyPackets_fits _
  · rw [List.take_of_length_le hall] at hflat
    rw [hflat] at hcount
    exact ⟨hflat, hcount, sum_of_flatten hflat⟩

/-- A server that has read the command word of a request for a file of two bytes. -/
def asksForFile : Client Bytes :=
  { oneFile.withLink [] with is := { rest := text " a\n\n" } }

/-- On a string every call returns. -/
theorem plain_sends (qs : List Bytes) (s : Bytes) :
    ∃ ns, (qs.mapM Transport.plain.send).run s = .ok ns s := by
  induction qs with
  | nil => exact ⟨[], rfl⟩
  | cons q qs ih =>
    obtain ⟨ns, hns⟩ := ih
    have hq : (Transport.plain.send q).run s = .ok q.length s := rfl
    refine ⟨(q.length : ℤ) :: ns, ?_⟩
    rw [List.mapM_cons, Exec.bind_of_ok hq, Exec.bind_of_ok hns]
    rfl

/-- Two bytes are two packets, and they are sent. -/
theorem retr_packets_two : ∃ ps, (∃ c', (cmdRetr .plain).run asksForFile = .ok () c' ∧
      c'.packets = sizeReply 2 :: ps) ∧ ps.flatten = text "xy" ∧ ps.length = 2 := by
  have hfile : (opened asksForFile.host (asksForFile.is.word []).1).1 = some (.file (text "xy")) := by
    decide
  obtain ⟨ps, -, hreturns, -, -, -, hall⟩ := retr_packets .plain hfile
  obtain ⟨hflat, hcount, -⟩ := hall (by decide)
  have hsize : toInt64 (text "xy").length = 2 := by decide
  rw [hsize] at hreturns
  obtain ⟨ns, hns⟩ := plain_sends (sizeReply 2 :: ps) asksForFile.link
  obtain ⟨c', hrun, -, hpackets⟩ := hreturns ns _ hns
  exact ⟨ps, ⟨c', hrun, hpackets⟩, hflat, hcount⟩

end Cuts

end ServerClient

end Cybrg
