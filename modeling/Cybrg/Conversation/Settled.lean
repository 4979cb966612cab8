import Cybrg.Conversation.Rounds

/-!
# What the server owes

A server that reads from a string has answered what it has been sent, or waits for the rest of a body.

* `stor_stored`, `stor_waits` — an upload with its body, and with a part of it;
* `Settled` — all that was sent has been answered;
* `Owes` — the packets that the server has sent in the end;
* `Settled.answers`, `Settled.owes_waiting` — the next request.
-/

namespace Cybrg

open Streams Files
open ClientMain (storText)

namespace ServerClient

/-! ### Uploads -/

/-- The object when it has stored the body. -/
def Client.stored (c : Client Unit) (name : Bytes) (size : ℤ) (path : Path) (body : Bytes) :
    Client Unit :=
  { c.storing name size with
    host := (storOpened c.host name).limited.appended path
      (body.take ((storOpened c.host name).limits.headD size.toNat)) }

section

variable {c : Client Unit} (hos : c.os = []) {name : Bytes} (hname : Word name) {size : ℤ}
  (hlo : -2 ^ 63 ≤ size) (hhi : size ≤ maxFileSize)
  (hfits : (storText name size).length < bufferSize) {path : Path}
  (h : destination c.host name = some path) {body : Bytes}

include hos hname hlo hhi hfits h

/-- **An upload with its body.** -/
theorem stor_stored (hbody : body.length = size.toNat) :
    Answers c (storText name size ++ body) [Status.ok.reply] (c.stored name size path body) := by
  refine ⟨fun more => ?_, hos, rfl⟩
  rw [List.append_assoc, stor_accepted hos hname hlo hhi hfits h]
  have hloop := storLoop_run plain_carries path size size.toNat 0
    ((storOpened c.host name).limits.headD size.toNat)
    (c := (c.storing name size).withLink (body ++ more)) (s := body ++ more) rfl (by omega)
  rw [sub_zero, if_pos (by rw [List.length_append]; omega)] at hloop
  obtain ⟨l, hrun, rfl, -⟩ := hloop
  refine (Exec.bind_of_ok hrun).trans ?_
  rw [List.take_left' hbody, List.drop_left' hbody]
  rfl

/-- **An upload with a part of its body**: the server waits for the rest. -/
theorem stor_waits (hbody : body.length < size.toNat) :
    ∃ e d, (iteration .plain).run (c.withLink (storText name size ++ body)) = .error e d ∧
      d.packets = c.packets ++ [Status.ok.reply] := by
  rw [stor_accepted hos hname hlo hhi hfits h]
  have hloop := storLoop_run plain_carries path size size.toNat 0
    ((storOpened c.host name).limits.headD size.toNat)
    (c := (c.storing name size).withLink body) (s := body) rfl (by omega)
  rw [sub_zero, if_neg (by omega)] at hloop
  obtain ⟨e, l, hrun, -⟩ := hloop
  exact ⟨e, _, Exec.bind_of_error hrun, rfl⟩

end

/-! ### Nothing more to read -/

/-- **A server that has read everything waits** for the next request. -/
theorem iteration_of_nil (c : Client Unit) :
    ∃ e d, (iteration .plain).run (c.withLink []) = .error e d ∧ d.packets = c.packets ∧
      d.host = c.host := by
  have hrecv := plain_carries.recvHeader (x := ([] : Bytes)) rfl
  obtain ⟨e, l, hrun, -⟩ := hrecv
  have hcmd : (recvCmd .plain).run (c.withLink []) = .error e (Client.withLink { c with
      is := (c.is.ignore bufferSize).clear } l) := by
    have hlink := onLink_of_error (c := Client.withLink { c with
      is := (c.is.ignore bufferSize).clear } []) hrun
    unfold recvCmd
    rw [Exec.bind_of_ok (EStateM.run_modify _ _)]
    exact Exec.bind_of_error hlink
  exact ⟨e, _, Exec.bind_of_error hcmd, rfl, rfl⟩

/-! ### All that was sent has been answered -/

/-- The server has answered the packets `us` and has become `c`. -/
structure Settled (c₀ : Client Unit) (us : List Bytes) (c : Client Unit) : Prop where
  rounds : ∃ r ≤ us.length, Loop.after .plain r ⟨true, c₀.withLink us.flatten⟩
    = ⟨true, c.withLink []⟩
  os : c.os = []

/-- After the packets `us` the server comes to have sent the packets `ps`, and nothing else. -/
def Owes (c₀ : Client Unit) (us ps : List Bytes) : Prop :=
  ∀ n, us.length + 1 ≤ n → plainPackets c₀ n us.flatten = ps

theorem Settled.new {c₀ : Client Unit} (hos : c₀.os = []) : Settled c₀ [] c₀ :=
  ⟨⟨0, le_refl _, rfl⟩, hos⟩

/-- The state of a loop that ends with an exception in its next round. -/
theorem Loop.after_error {c d : Client Bytes} {e : Ex} (h : (iteration .plain).run c = .error e d)
    (n : ℕ) : Loop.after .plain (n + 1) ⟨true, c⟩ = ⟨false, d⟩ := by
  have hafter : Loop.after .plain (n + 1) ⟨true, c⟩
      = Loop.after .plain n (Loop.step .plain ⟨true, c⟩ ()).1 := rfl
  rw [hafter, Loop.step, if_pos rfl, h]
  exact Loop.after_stopped .plain n d

namespace Settled

variable {c₀ c : Client Unit} {us : List Bytes}

/-- The same rounds, when more has been sent. -/
theorem longer (h : Settled c₀ us c) (more : Bytes) :
    ∃ r ≤ us.length, Loop.after .plain r ⟨true, c₀.withLink (us.flatten ++ more)⟩
      = ⟨true, c.withLink more⟩ := by
  obtain ⟨r, hr, hafter⟩ := h.rounds
  have hbeside : Beside plainPairing more (c₀.withLink us.flatten)
      (c₀.withLink (us.flatten ++ more)) := ⟨⟨rfl, trivial⟩, us.flatten, rfl, rfl⟩
  obtain ⟨d, hd, ⟨hrest, -⟩, s, hs, hs'⟩ := after_follows hbeside hafter
  refine ⟨r, hr, hd.trans ?_⟩
  have hnil : s = [] := Eq.symm hs
  have hlink : d.link = more := by
    rw [hnil] at hs'
    exact hs'
  have hd' : d = c.withLink more := by
    rw [← hlink, ← Client.rest_withLink d, ← hrest]
    rfl
  rw [hd']

/-- **The state in the end**, when the next round throws. -/
theorem ends (h : Settled c₀ us c) {more : Bytes} {e : Ex} {d : Client Bytes}
    (hrun : (iteration .plain).run (c.withLink more) = .error e d) {n : ℕ}
    (hn : us.length + 1 ≤ n) :
    Loop.after .plain n ⟨true, c₀.withLink (us.flatten ++ more)⟩ = ⟨false, d⟩ := by
  obtain ⟨r, hr, hafter⟩ := h.longer more
  obtain ⟨m, rfl⟩ : ∃ m, n = r + (m + 1) := ⟨n - r - 1, by omega⟩
  rw [Loop.after_add, hafter, Loop.after_error hrun]

/-- The server has sent its replies, and its files are as they are. -/
theorem served (h : Settled c₀ us c) {n : ℕ} (hn : us.length + 1 ≤ n) :
    (Loop.after .plain n ⟨true, c₀.withLink us.flatten⟩).client.packets = c.packets ∧
      (Loop.after .plain n ⟨true, c₀.withLink us.flatten⟩).client.host = c.host := by
  obtain ⟨e, d, hrun, hpackets, hhost⟩ := iteration_of_nil c
  have hend := h.ends hrun hn
  rw [List.append_nil] at hend
  rw [hend]
  exact ⟨hpackets, hhost⟩

theorem owes (h : Settled c₀ us c) : Owes c₀ us c.packets := fun _ hn => (h.served hn).1

/-- **The next request is answered.** -/
theorem answers (h : Settled c₀ us c) {vs ps : List Bytes} (hvs : vs ≠ []) {c₁ : Client Unit}
    (hanswers : Answers c vs.flatten ps c₁) : Settled c₀ (us ++ vs) c₁ := by
  obtain ⟨r, hr, hafter⟩ := h.longer vs.flatten
  have hpos := List.length_pos_iff.mpr hvs
  refine ⟨⟨r + 1, ?_, ?_⟩, hanswers.os⟩
  · rw [List.length_append]
    omega
  · have hrun := hanswers.run []
    rw [List.append_nil] at hrun
    rw [List.flatten_append, Loop.after_add, hafter, Loop.after_of_iteration hrun]
    rfl

/-- **The server waits** for the rest of the next request. -/
theorem owes_waiting (h : Settled c₀ us c) {vs : List Bytes} {e : Ex} {d : Client Bytes}
    (hrun : (iteration .plain).run (c.withLink vs.flatten) = .error e d) :
    Owes c₀ (us ++ vs) d.packets := by
  intro n hn
  rw [List.length_append] at hn
  rw [plainPackets, List.flatten_append, h.ends hrun (by omega)]

end Settled

end ServerClient

end Cybrg
