import Cybrg.Client.Main
import Cybrg.Server.Client

/-!
# The sizes of packets

`Crypto::send` encrypts into a buffer of `BUFFER_SIZE` bytes and does not ask how long its argument
is; the bound has to come from the programs.

* `ServerClient.retrLoop_fits` — the flush counter of `cmd_retr`;
* `ServerClient.serve_fits` — a server session whose directory listings fit sends packets that fit;
* `ClientMain.lines_fit` — so does a client whose command texts fit;
* `packet_bound` — both, and what it means for the receiver;
* `long_packets` — a listing and a command that do not fit.
-/

namespace Cybrg

open Octets Streams Files

/-! ### Sizes of replies -/

theorem toInt64_bounds (z : ℤ) : -2 ^ 63 ≤ toInt64 z ∧ toInt64 z ≤ 2 ^ 63 - 1 := by
  have hlo := Int.le_bmod (x := z) (m := 2 ^ 64) (by decide)
  have hhi := Int.bmod_lt (x := z) (m := 2 ^ 64) (by decide)
  unfold toInt64
  omega

theorem toInt64_natAbs (z : ℤ) : (toInt64 z).natAbs < 10 ^ 20 := by
  have h := toInt64_bounds z
  omega

theorem Status.reply_fits (status : Status) : Fits status.reply := by
  cases status <;> decide

theorem sizeReply_fits {size : ℤ} (h : size.natAbs < 10 ^ 20) : Fits (sizeReply size) := by
  have hlen := decimal_length_le (k := 20) (by decide) h
  have hok : (decimal Status.ok.code).length = 3 := by decide
  have hsize : (text "Size: ").length = 6 := by decide
  simp only [Fits, sizeReply, List.length_append, hok, hsize, newline, List.length_singleton,
    bufferSize]
  omega

theorem Host.contents_end_lt (h : Host) (n : Node) : (h.contents n).2.natAbs < 10 ^ 20 := by
  cases n <;> simp only [Host.contents] <;> exact toInt64_natAbs _

theorem Host.contents_end_bounds (h : Host) (n : Node) :
    -2 ^ 63 ≤ (h.contents n).2 ∧ (h.contents n).2 ≤ 2 ^ 63 - 1 := by
  cases n <;> simp only [Host.contents] <;> exact toInt64_bounds _

/-! ### The server -/

namespace ServerClient

variable {τ : Type} (t : Transport τ)

/-- Everything that was given to `Crypto::send` fits. -/
def Bounded (c : Client τ) : Prop := ∀ p ∈ c.packets, Fits p

/-- Between two replies nothing waits to be sent. -/
def Ready (c : Client τ) : Prop := Bounded c ∧ c.os = []

/-- What is sent, and what waits to be sent. -/
def Client.output (c : Client τ) : List Bytes × Bytes := (c.packets, c.os)

/-- Much of the program leaves its output alone. -/
def LeavesOutput {α : Type} (m : EStateM Ex (Client τ) α) : Prop :=
  Exec.Leaves Client.output m

variable {t}

theorem LeavesOutput.ready {α : Type} {m : EStateM Ex (Client τ) α} (h : LeavesOutput m) :
    Exec.Triple Ready m (fun _ => Ready) Bounded := by
  refine (Exec.Triple.of_within (P := Ready) fun c hc => ?_).post (fun _ _ hc => hc) fun c hc =>
    hc.1
  obtain ⟨hpackets, hos⟩ := Prod.mk.inj (h c)
  exact ⟨fun p hp => hc.1 p (hpackets ▸ hp), hos.trans hc.2⟩

theorem onLink_output {α : Type} (m : EStateM Ex τ α) : LeavesOutput (onLink m) :=
  .zoom fun _ _ => rfl

theorem onHost_output {α : Type} (m : EStateM Ex Host α) :
    LeavesOutput (onHost m : EStateM Ex (Client τ) α) :=
  .zoom fun _ _ => rfl

theorem extractWord_output (old : Bytes) :
    LeavesOutput (extractWord old : EStateM Ex (Client τ) Bytes) := fun _ => rfl

theorem extractInt64_output (old : ℤ) :
    LeavesOutput (extractInt64 old : EStateM Ex (Client τ) ℤ) := fun _ => rfl

theorem recvCmd_output : LeavesOutput (recvCmd t) := by
  refine .bind (.modify fun _ => rfl) fun _ => ?_
  exact .bind (onLink_output _) fun _ => .modify fun _ => rfl

theorem onLink_bounded {α : Type} {m : EStateM Ex τ α} :
    Exec.Triple Bounded (onLink m : EStateM Ex (Client τ) α) (fun _ => Bounded) Bounded :=
  .zoom fun _ _ hc => ⟨fun _ => hc, hc⟩

/-- **What is sent fits if what waits does.** -/
theorem sendCmd_fits :
    Exec.Triple (fun c => Bounded c ∧ c.os.length ≤ bufferSize) (sendCmd t) (fun _ => Ready)
      Bounded := by
  intro c hpre
  obtain ⟨hc, hle⟩ := hpre
  unfold sendCmd
  rw [Exec.bind_of_ok (EStateM.run_get c)]
  by_cases hos : c.os.length ≠ 0
  · rw [if_pos hos]
    have hfits : Fits c.os := ⟨Nat.one_le_iff_ne_zero.mpr hos, hle⟩
    have hrest : Exec.Triple Bounded (do
        let _ ← onLink (t.send c.os)
        modify fun c => { c with os := [] }) (fun _ => Ready) Bounded :=
      .bind onLink_bounded fun _ => .modify fun c' hc' => ⟨hc', rfl⟩
    refine hrest { c with packets := c.packets ++ [c.os] } fun p hp => ?_
    rcases List.mem_append.mp hp with hp | hp
    · exact hc p hp
    · rw [List.mem_singleton.mp hp]
      exact hfits
  · rw [if_neg hos]
    exact ⟨hc, rfl⟩

/-- A reply that fits is sent. -/
theorem write_sendCmd_fits {bs : Bytes} (h : bs.length ≤ bufferSize) :
    Exec.Triple Ready (do write bs; sendCmd t) (fun _ => Ready) Bounded := by
  refine .bind (R := fun _ c => Bounded c ∧ c.os.length ≤ bufferSize) (.modify ?_) fun _ =>
    sendCmd_fits
  intro c hpre
  obtain ⟨hc, hos⟩ := hpre
  refine ⟨hc, ?_⟩
  rw [hos, List.nil_append]
  exact h

theorem answer_fits (status : Status) :
    Exec.Triple Ready (answer t status) (fun _ => Ready) Bounded :=
  write_sendCmd_fits status.reply_fits.2

/-! ### `cmd_retr` -/

/-- How many bytes wait in `os` when `count` bytes of the file have been written to it. -/
def held (count : ℕ) : ℕ := if count = 0 then 0 else (count - 1) % bufferSize

theorem held_lt (count : ℕ) : held count < bufferSize := by
  unfold held
  split
  · decide
  · exact Nat.mod_lt _ (by decide)

/-- **The flush counter.**  The first byte goes out alone, and from then on `BUFFER_SIZE` bytes at a
time. -/
theorem sendFull_fits (count : ℕ) :
    Exec.Triple (fun c => Bounded c ∧ c.os.length = held count + 1) (sendFull t count)
      (fun _ c => Bounded c ∧ c.os.length = held (count + 1)) Bounded := by
  have hb : bufferSize = 4096 := rfl
  unfold sendFull
  refine .ite (fun h => ?_) fun h => .pure ?_
  · refine (sendCmd_fits.pre ?_).post ?_ fun _ hc => hc
    · intro c hpre
      obtain ⟨hc, hos⟩ := hpre
      have hlt := held_lt count
      exact ⟨hc, by omega⟩
    · intro _ c hpre
      obtain ⟨hc, hos⟩ := hpre
      refine ⟨hc, ?_⟩
      rw [hos, held, if_neg (Nat.succ_ne_zero count), Nat.add_sub_cancel, h, List.length_nil]
  · intro c hpre
    obtain ⟨hc, hos⟩ := hpre
    refine ⟨hc, ?_⟩
    rw [hos, held, held, if_neg (Nat.succ_ne_zero count), Nat.add_sub_cancel]
    rw [hb] at h ⊢
    split <;> omega

theorem retrLoop_fits (bs : Bytes) (count : ℕ) :
    Exec.Triple (fun c => Bounded c ∧ c.os.length = held count) (retrLoop t bs count)
      (fun _ c => Bounded c ∧ c.os.length ≤ bufferSize) Bounded := by
  induction bs generalizing count with
  | nil => exact .pure fun c hc => ⟨hc.1, hc.2 ▸ (held_lt count).le⟩
  | cons b bs ih =>
    refine .bind (R := fun _ c => Bounded c ∧ c.os.length = held count + 1) (.modify ?_) fun _ =>
      .bind (sendFull_fits count) fun _ => ih (count + 1)
    intro c hpre
    obtain ⟨hc, hos⟩ := hpre
    exact ⟨hc, by simp [hos]⟩

theorem cmdRetr_fits : Exec.Triple Ready (cmdRetr t) (fun _ => Ready) Bounded := by
  apply Exec.Triple.bind (extractWord_output []).ready
  intro filename
  refine .ite (fun _ => answer_fits _) fun _ => ?_
  apply Exec.Triple.bind (onHost_output _).ready
  intro file
  cases file with
  | none => exact answer_fits _
  | some node =>
    apply Exec.Triple.bind (R := fun _ => Ready) (.get fun c hc => hc)
    intro c
    apply Exec.Triple.bind (onHost_output _).ready
    intro readable
    refine .bind (R := fun _ c => Bounded c ∧ c.os.length ≤ bufferSize) (.modify ?_) fun _ => ?_
    · intro c' hpre
      obtain ⟨hc, hos⟩ := hpre
      refine ⟨hc, ?_⟩
      rw [hos, List.nil_append]
      exact (sizeReply_fits (c.host.contents_end_lt node)).2
    · apply Exec.Triple.bind sendCmd_fits
      intro _
      refine .bind ((retrLoop_fits _ 0).pre ?_) fun _ => sendCmd_fits.post (fun _ _ hc => hc)
        fun _ hc => hc
      intro c' hpre
      obtain ⟨hc, hos⟩ := hpre
      exact ⟨hc, by rw [hos]; rfl⟩

/-! ### `cmd_list`, `cmd_stor`, `cmd_dele` -/

/-- The listing of `SERVER_ROOT` fits into a packet. -/
def ListingFits (s : Store) : Prop :=
  ∀ names, s.lists serverRoot = some names → (listing names).length ≤ bufferSize

/-- A listing is that of `SERVER_ROOT`. -/
theorem readDir_fits :
    Exec.Triple (fun c : Client τ => Ready c ∧ ListingFits c.host.store)
      (onHost (Host.readDir serverRoot))
      (fun dd c => Ready c ∧ ∀ names, dd = some names → (listing names).length ≤ bufferSize)
      Bounded := by
  intro c hpre
  obtain ⟨hc, hfits⟩ := hpre
  exact ⟨hc, fun names hnames => hfits names (Host.of_tries hnames)⟩

theorem cmdList_fits :
    Exec.Triple (fun c => Ready c ∧ ListingFits c.host.store) (cmdList t) (fun _ => Ready)
      Bounded := by
  apply Exec.Triple.bind readDir_fits
  intro dd
  cases dd with
  | none => exact (answer_fits _).pre fun c hc => hc.1
  | some names =>
    intro c hpre
    obtain ⟨hc, hnames⟩ := hpre
    have hlen := hnames names rfl
    have hsize : Fits (sizeReply ((listing names).length % 2 ^ 64)) := by
      apply sizeReply_fits
      omega
    have hbody := write_sendCmd_fits (t := t) hlen
    revert hc
    refine Exec.Triple.bind (R := fun _ c => Bounded c ∧ c.os.length ≤ bufferSize) (.modify ?_)
      (fun _ => .bind sendCmd_fits fun _ => hbody) c
    intro c' hpre
    obtain ⟨hc', hos⟩ := hpre
    refine ⟨hc', ?_⟩
    rw [hos, List.nil_append]
    exact hsize.2

theorem cmdDele_fits : Exec.Triple Ready (cmdDele t) (fun _ => Ready) Bounded := by
  apply Exec.Triple.bind (extractWord_output []).ready
  intro filename
  refine .ite (fun _ => answer_fits _) fun _ => ?_
  apply Exec.Triple.bind (onHost_output _).ready
  intro removed
  exact .ite (fun _ => answer_fits _) fun _ => answer_fits _

theorem storLoop_output (path : Path) (size : ℤ) (n : ℕ) (received : ℤ) (writable : ℕ) :
    LeavesOutput (storLoop t path size n received writable) := by
  induction n generalizing received writable with
  | zero => exact .pure _
  | succ n ih =>
    refine .ite ?_ (.pure _)
    apply Exec.Leaves.bind (onLink_output _)
    intro fragment
    exact .bind (onHost_output _) fun _ => ih _ _

theorem cmdStor_fits : Exec.Triple Ready (cmdStor t) (fun _ => Ready) Bounded := by
  apply Exec.Triple.bind (extractWord_output []).ready
  intro filename
  refine .ite (fun _ => answer_fits _) fun _ => ?_
  apply Exec.Triple.bind (extractWord_output []).ready
  intro tag
  apply Exec.Triple.bind (onHost_output _).ready
  intro stale
  apply Exec.Triple.bind (extractInt64_output stale).ready
  intro size
  refine .ite (fun _ => answer_fits _) fun _ => ?_
  refine .ite (fun _ => answer_fits _) fun _ => ?_
  apply Exec.Triple.bind (onHost_output _).ready
  intro file
  cases file with
  | none => exact answer_fits _
  | some path =>
    apply Exec.Triple.bind (answer_fits _)
    intro _
    exact .bind (onHost_output _).ready fun writable => (storLoop_output _ _ _ _ _).ready

/-! ### Sessions -/

/-- A request for a listing finds one that fits. -/
def ListFits (c : Client τ) : Prop := c.cmd = text "LIST" → ListingFits c.host.store

theorem dispatch_fits (cmd : Bytes) :
    Exec.Triple (fun c => Ready c ∧ c.cmd = cmd ∧ ListFits c) (dispatch t cmd) (fun _ => Ready)
      Bounded := by
  unfold dispatch
  refine .ite (fun h => ?_) fun _ => .ite (fun h => ?_) fun _ => .ite (fun h => ?_) fun _ =>
    .ite (fun h => ?_) fun _ => .ite (fun h => ?_) fun _ => ?_
  · refine .bind (.bind (R := fun _ => Ready) (.modify fun c hc => hc.1) fun _ => cmdDele_fits)
      fun _ => .pure fun c hc => hc
  · refine .bind (.bind (R := fun _ c => Ready c ∧ ListingFits c.host.store) (.modify ?_)
      fun _ => cmdList_fits) fun _ => .pure fun c hc => hc
    exact fun c hc => ⟨hc.1, hc.2.2 (hc.2.1.trans h)⟩
  · exact .bind ((answer_fits _).pre fun c hc => hc.1) fun _ => .pure fun c hc => hc
  · refine .bind (.bind (R := fun _ => Ready) (.modify fun c hc => hc.1) fun _ => cmdRetr_fits)
      fun _ => .pure fun c hc => hc
  · refine .bind (.bind (R := fun _ => Ready) (.modify fun c hc => hc.1) fun _ => cmdStor_fits)
      fun _ => .pure fun c hc => hc
  · exact .bind ((answer_fits _).pre fun c hc => hc.1) fun _ => .pure fun c hc => hc

/-- **A server session sends packets that fit**, if every listing it is asked for does. -/
theorem serve_fits {n : ℕ} {c : Client τ} (hc : Ready c)
    (h : Machine.Meets (Loop.step t) (Round t ListFits) ⟨true, c⟩ (List.replicate n ())) :
    Bounded (Exec.endState ((serve t n).run c)) :=
  serve_invariant t (fun _ hc => hc.1) recvCmd_output.ready (fun _ hc => hc) dispatch_fits hc h

end ServerClient

/-! ### The client -/

namespace ClientMain

variable {τ : Type} {t : Transport τ}

/-- Everything that was given to `Crypto::send` fits. -/
def Bounded (g : Globals τ) : Prop := ∀ p ∈ g.packets, Fits p

/-- Much of the program sends nothing. -/
def LeavesPackets {α : Type} (m : EStateM Ex (Globals τ) α) : Prop :=
  Exec.Leaves Globals.packets m

theorem LeavesPackets.bounded {α : Type} {m : EStateM Ex (Globals τ) α} (h : LeavesPackets m) :
    Exec.Triple Bounded m (fun _ => Bounded) Bounded :=
  Exec.Triple.of_within fun g hg p hp => hg p (h g ▸ hp)

theorem onLink_packets {α : Type} (m : EStateM Ex τ α) : LeavesPackets (onLink m) :=
  .zoom fun _ _ => rfl

theorem onHost_packets {α : Type} (m : EStateM Ex Host α) :
    LeavesPackets (onHost m : EStateM Ex (Globals τ) α) :=
  .zoom fun _ _ => rfl

theorem extract_packets {α : Type} (f : IStream → α × IStream) :
    LeavesPackets (extract f : EStateM Ex (Globals τ) α) := fun _ => rfl

theorem cryptoSend_fits {plaintext : Bytes} (h : Fits plaintext) :
    Exec.Triple Bounded (cryptoSend t plaintext) (fun _ => Bounded) Bounded := by
  refine .bind (R := fun _ => Bounded) (.modify ?_) fun _ =>
    .bind (onLink_packets _).bounded fun _ => .pure fun _ hg => hg
  intro g hg p hp
  rcases List.mem_append.mp hp with hp | hp
  · exact hg p hp
  · rw [List.mem_singleton.mp hp]
    exact h

/-- **Fragments fit.** -/
theorem sendLoop_fits (n : ℕ) (file : Bytes) {buffer : Bytes} (hbuffer : buffer.length = bufferSize)
    (remainingBytes : ℤ) :
    Exec.Triple Bounded (sendLoop t n file buffer remainingBytes) (fun _ => Bounded) Bounded := by
  induction n generalizing file buffer remainingBytes with
  | zero => exact .pure fun _ hg => hg
  | succ n ih =>
    refine .ite (fun hpos => ?_) fun _ => .pure fun _ hg => hg
    have hb : bufferSize = 4096 := rfl
    generalize hf : (min remainingBytes bufferSize).toNat = fragment
    have hfragment : 1 ≤ fragment ∧ fragment ≤ bufferSize := by omega
    have hlen : (file.take fragment ++ buffer.drop (file.take fragment).length).length
        = bufferSize := by
      simp only [List.length_append, List.length_drop, List.length_take, hbuffer]
      omega
    refine .bind (cryptoSend_fits ?_) fun _ => ih _ hlen _
    rw [Fits, List.length_take, hlen]
    omega

theorem sendFile_fits (filepath : Bytes) (size : ℤ) :
    Exec.Triple Bounded (sendFile t filepath size) (fun _ => Bounded) Bounded := by
  apply Exec.Triple.bind (onHost_packets _).bounded
  intro file
  cases file with
  | none => exact .pure fun _ hg => hg
  | some node =>
    apply Exec.Triple.bind (R := fun _ => Bounded) (.get fun _ hg => hg)
    intro g
    apply Exec.Triple.bind (onHost_packets _).bounded
    intro readable
    exact sendLoop_fits _ _ (by simp) _

theorem recvResponse_packets : LeavesPackets (recvResponse t) := by
  refine .bind (.modify fun _ => rfl) fun _ => ?_
  exact .bind (onLink_packets _) fun _ => .modify fun _ => rfl

theorem listLoop_packets (msgLen : ℤ) (n : ℕ) (buffer : Bytes) (recvBytes : ℤ) :
    LeavesPackets (listLoop t msgLen n buffer recvBytes) := by
  induction n generalizing buffer recvBytes with
  | zero => exact .pure _
  | succ n ih =>
    refine .ite ?_ (.pure _)
    apply Exec.Leaves.bind (onLink_packets _)
    intro got
    refine .bind (.modify fun _ => rfl) fun _ => ?_
    exact .bind (.modify fun _ => rfl) fun _ => ih _ _

theorem recvList_packets : LeavesPackets (recvList t) := by
  apply Exec.Leaves.bind (onHost_packets _)
  intro stale
  apply Exec.Leaves.bind (extract_packets _)
  intro response
  refine .ite ?_ (.pure _)
  apply Exec.Leaves.bind (extract_packets _)
  intro tag
  refine .ite (.pure _) ?_
  apply Exec.Leaves.bind (onHost_packets _)
  intro stale
  apply Exec.Leaves.bind (extract_packets _)
  intro msgLen
  refine .ite (.pure _) ?_
  exact .bind (.modify fun _ => rfl) fun _ => listLoop_packets _ _ _ _

theorem fileLoop_packets (path : Path) (filesize : ℤ) (n : ℕ) (recvBytes : ℤ) (writable : ℕ) :
    LeavesPackets (fileLoop t path filesize n recvBytes writable) := by
  induction n generalizing recvBytes writable with
  | zero => exact .pure _
  | succ n ih =>
    refine .ite ?_ (.pure _)
    apply Exec.Leaves.bind (onLink_packets _)
    intro got
    exact .bind (onHost_packets _) fun _ => ih _ _

theorem recvFile_packets (filename : Bytes) : LeavesPackets (recvFile t filename) := by
  apply Exec.Leaves.bind (onHost_packets _)
  intro stale
  apply Exec.Leaves.bind (extract_packets _)
  intro response
  refine .ite ?_ (.pure _)
  apply Exec.Leaves.bind (extract_packets _)
  intro tag
  refine .ite (.pure _) ?_
  apply Exec.Leaves.bind (onHost_packets _)
  intro stale
  apply Exec.Leaves.bind (extract_packets _)
  intro filesize
  refine .ite (.pure _) ?_
  refine .bind (.modify fun _ => rfl) fun _ => ?_
  apply Exec.Leaves.bind (onHost_packets _)
  intro file
  cases file with
  | none => exact .pure _
  | some path =>
    exact .bind (onHost_packets _) fun writable => fileLoop_packets _ _ _ _ _

theorem cmdLocalList_packets (path : Bytes) :
    LeavesPackets (cmdLocalList path : EStateM Ex (Globals τ) Unit) := by
  apply Exec.Leaves.bind (onHost_packets _)
  intro dd
  cases dd with
  | none => exact .pure _
  | some names =>
    refine .bind (.mapM (fun name => ?_) names) fun lines =>
      .modify fun _ => rfl
    exact .bind (onHost_packets _) fun _ => .pure _

/-! ### Commands -/

/-- The text of the request that a command makes fits into a packet. -/
structure CommandFits (host : Host) (strCmd arg : Bytes) : Prop where
  get : strCmd = text "get" → (retrText arg).length ≤ bufferSize
  rm : strCmd = text "rm" → (deleText arg).length ≤ bufferSize
  put : strCmd = text "put" →
    ∀ size, Exec.outcome ((checkAndGetFileSize arg).run host) = .ok (some size) →
      (storText (lastComponent arg) size).length ≤ bufferSize

/-- A text with a newline at its end is not empty. -/
theorem fits_of_newline {bs : Bytes} (h : (bs ++ newline).length ≤ bufferSize) :
    Fits (bs ++ newline) :=
  ⟨by simp [newline], h⟩

theorem cmdRetr_fits {filename : Bytes} (h : (retrText filename).length ≤ bufferSize) :
    Exec.Triple Bounded (cmdRetr t filename) (fun _ => Bounded) Bounded := by
  refine .ite (fun _ => .pure fun _ hg => hg) fun _ => ?_
  apply Exec.Triple.bind (cryptoSend_fits (fits_of_newline h))
  intro _
  exact .bind recvResponse_packets.bounded fun _ => (recvFile_packets filename).bounded

theorem cmdDele_fits {filename : Bytes} (h : (deleText filename).length ≤ bufferSize) :
    Exec.Triple Bounded (cmdDele t filename) (fun _ => Bounded) Bounded := by
  refine .ite (fun _ => .pure fun _ hg => hg) fun _ => ?_
  apply Exec.Triple.bind (cryptoSend_fits (fits_of_newline h))
  intro _
  apply Exec.Triple.bind recvResponse_packets.bounded
  intro _
  apply Exec.Triple.bind (onHost_packets _).bounded
  intro _
  exact .bind (extract_packets _).bounded fun _ => .pure fun _ hg => hg

theorem cmdStor_fits {filepath : Bytes} :
    Exec.Triple (fun g => Bounded g ∧
        ∀ size, Exec.outcome ((checkAndGetFileSize filepath).run g.host) = .ok (some size) →
          (storText (lastComponent filepath) size).length ≤ bufferSize)
      (cmdStor t filepath) (fun _ => Bounded) Bounded := by
  refine .ite (fun _ => .pure fun _ hg => hg.1) fun _ => ?_
  refine .bind (R := fun filesize g => Bounded g ∧ ∀ size, filesize = some size →
    (storText (lastComponent filepath) size).length ≤ bufferSize) ?_ fun filesize => ?_
  · intro g hpre
    obtain ⟨hg, hfits⟩ := hpre
    rw [onHost, Exec.run_zoom]
    cases hr : (checkAndGetFileSize filepath).run g.host with
    | ok filesize host' =>
      refine ⟨hg, fun size hsize => hfits size ?_⟩
      rw [hr, hsize]
      rfl
    | error e host' => exact hg
  · cases filesize with
    | none => exact .pure fun _ hg => hg.1
    | some filesize =>
      intro g hpre
      obtain ⟨hg, hfits⟩ := hpre
      revert hg
      have hfit : Fits (storText (lastComponent filepath) filesize) :=
        fits_of_newline (hfits filesize rfl)
      refine Exec.Triple.bind (cryptoSend_fits hfit) (fun _ => ?_) g
      apply Exec.Triple.bind recvResponse_packets.bounded
      intro _
      apply Exec.Triple.bind (onHost_packets _).bounded
      intro _
      apply Exec.Triple.bind (extract_packets _).bounded
      intro _
      exact .ite (fun _ => sendFile_fits _ _) fun _ => .pure fun _ hg => hg

theorem dispatch_fits (strCmd arg : Bytes) :
    Exec.Triple (fun g => Bounded g ∧ CommandFits g.host strCmd arg) (dispatch t strCmd arg)
      (fun _ => Bounded) Bounded := by
  unfold dispatch
  refine .ite (fun h => ?_) fun _ => .ite (fun h => ?_) fun _ => .ite (fun h => ?_) fun _ =>
    .ite (fun h => ?_) fun _ => .ite (fun h => ?_) fun _ => .ite (fun h => ?_) fun _ => ?_
  · refine .bind (R := fun _ => Bounded) ?_ fun _ => .pure fun _ hg => hg
    refine .bind ((cryptoSend_fits (by decide +kernel)).pre fun _ hg => hg.1) fun _ => ?_
    exact recvResponse_packets.bounded
  · exact .bind ((cmdLocalList_packets arg).bounded.pre fun _ hg => hg.1) fun _ =>
      .pure fun _ hg => hg
  · refine .bind (R := fun _ => Bounded) ?_ fun _ => .pure fun _ hg => hg
    refine .bind ((cryptoSend_fits (by decide +kernel)).pre fun _ hg => hg.1) fun _ => ?_
    exact .bind recvResponse_packets.bounded fun _ => recvList_packets.bounded
  · intro g hpre
    obtain ⟨hg, hfits⟩ := hpre
    revert hg
    exact Exec.Triple.bind (cmdRetr_fits (hfits.get h)) (fun _ => .pure fun _ hg => hg) g
  · exact .bind (cmdStor_fits.pre fun g hg => ⟨hg.1, hg.2.put h⟩) fun _ => .pure fun _ hg => hg
  · intro g hpre
    obtain ⟨hg, hfits⟩ := hpre
    revert hg
    exact Exec.Triple.bind (cmdDele_fits (hfits.rm h)) (fun _ => .pure fun _ hg => hg) g
  · exact .pure fun _ hg => hg.1

/-! ### Lines -/

/-- What a line of the user is read into. -/
def lineWords (line : Option Bytes) : Bytes × Bytes :=
  let is : IStream := { rest := line.getD (text "q") }
  ((is.word []).1, ((is.word []).2.word []).1)

/-- The request that the next line makes fits into a packet. -/
def LineFits (p : Prompt τ) (line : Option Bytes) : Prop :=
  p.running = true → CommandFits p.globals.host (lineWords line).1 (lineWords line).2

/-- What `round` reads from a line is a command with its argument. -/
theorem round_fits {host : Host} {line : Option Bytes}
    (h : CommandFits host (lineWords line).1 (lineWords line).2) :
    Exec.Triple (fun g : Globals τ => Bounded g ∧ g.host = host) (round t line) (fun _ => Bounded)
      Bounded := by
  refine .bind (R := fun _ g => Bounded g ∧ g.host = host ∧
    g.is = { rest := line.getD (text "q") }) (.modify fun g hg => ⟨hg.1, hg.2, rfl⟩) fun _ => ?_
  refine .ite (fun _ => .pure fun _ hg => hg.1) fun _ => ?_
  refine .bind (R := fun strCmd g => Bounded g ∧ g.host = host ∧ strCmd = (lineWords line).1 ∧
    (g.is.word []).1 = (lineWords line).2) ?_ fun strCmd => ?_
  · intro g hpre
    obtain ⟨hg, hhost, his⟩ := hpre
    refine ⟨hg, hhost, ?_, ?_⟩
    · rw [his]
      rfl
    · show ((g.is.word []).2.word []).1 = _
      rw [his]
      rfl
  · refine .bind (R := fun arg g => Bounded g ∧ g.host = host ∧ strCmd = (lineWords line).1 ∧
      arg = (lineWords line).2) (fun g hg => hg) fun arg => ?_
    refine (dispatch_fits strCmd arg).pre ?_
    intro g hpre
    obtain ⟨hg, rfl, rfl, rfl⟩ := hpre
    exact ⟨hg, h⟩

/-- **One line.** -/
theorem step_fits {p : Prompt τ} {line : Option Bytes} (hp : Bounded p.globals)
    (h : LineFits p line) : Bounded (Prompt.step t p line).1.globals := by
  obtain ⟨running, g⟩ := p
  cases running with
  | false => exact hp
  | true =>
    rw [Prompt.step, if_pos rfl]
    cases hrun : (round t line).run g with
    | ok more g' => exact (round_fits (h rfl)).of_ok ⟨hp, rfl⟩ hrun
    | error e g' => exact (round_fits (h rfl)).of_error ⟨hp, rfl⟩ hrun

/-- **A client sends packets that fit**, if every request that its user asks for does. -/
theorem lines_fit {g : Globals τ} {lines : List (Option Bytes)} (hg : Bounded g)
    (h : Machine.Meets (Prompt.step t) LineFits ⟨true, g⟩ lines) :
    Bounded (Machine.run (Prompt.step t) ⟨true, g⟩ lines).1.globals :=
  Machine.invariant_run (I := fun p => Bounded p.globals) (fun _ _ hp hf => step_fits hp hf) hg h

end ClientMain

/-! ### Both programs -/

/-- The receiver does not find the header of a packet that fits too long. -/
theorem Fits.verify_ne {plaintext : Bytes} (h : Fits plaintext) (P : Primitives) (o : ByteOrder)
    (authKey : Tag) (n m : UInt32) :
    ((Rocket.new (UInt32.ofNat plaintext.length) n).computehmac P o authKey).verify P o authKey m
      ≠ .error (.exBadProtocol "Rocket::verify(): length too long") := by
  have hb : bufferSize = 4096 := rfl
  have hle := h.2
  intro herr
  unfold Rocket.verify at herr
  split at herr
  · cases herr
  · split at herr
    · rename_i hlong
      simp only [Rocket.computehmac, Rocket.new, UInt32.toNat_ofNat'] at hlong
      omega
    · split at herr <;> cases herr

/-- **Packet size bound.**  A server session sends packets of 1 to `BUFFER_SIZE` bytes if every
directory listing that it is asked for fits into a packet; a client does if the text of every
request that its user asks for fits into a packet; and the receiver accepts the length of such a
packet. -/
theorem packet_bound {τ : Type} (t : Transport τ) :
    (∀ n (c : ServerClient.Client τ), c.packets = [] → c.os = [] →
      Machine.Meets (ServerClient.Loop.step t) (ServerClient.Round t ServerClient.ListFits)
        ⟨true, c⟩ (List.replicate n ()) →
      ∀ p ∈ (Exec.endState ((ServerClient.serve t n).run c)).packets, Fits p) ∧
    (∀ lines (g : ClientMain.Globals τ), g.packets = [] →
      Machine.Meets (ClientMain.Prompt.step t) ClientMain.LineFits ⟨true, g⟩ lines →
      ∀ p ∈ (Machine.run (ClientMain.Prompt.step t) ⟨true, g⟩ lines).1.globals.packets, Fits p) ∧
    ∀ p, Fits p → ∀ P o authKey n m,
      ((Rocket.new (UInt32.ofNat p.length) n).computehmac P o authKey).verify P o authKey m
        ≠ .error (.exBadProtocol "Rocket::verify(): length too long") := by
  refine ⟨fun n c hpackets hos h => ?_, fun lines g hpackets h => ?_, fun p hp => hp.verify_ne⟩
  · refine ServerClient.serve_fits ⟨fun p hp => ?_, hos⟩ h
    rw [hpackets] at hp
    cases hp
  · refine ClientMain.lines_fit (fun p hp => ?_) h
    rw [hpackets] at hp
    cases hp

/-! ### Short and long packets -/

instance (s : Store) : Decidable (ServerClient.ListingFits s) :=
  inferInstanceAs (Decidable (∀ names, s.lists serverRoot = some names →
    (ServerClient.listing names).length ≤ bufferSize))

instance {τ : Type} (c : ServerClient.Client τ) : Decidable (ServerClient.ListFits c) :=
  inferInstanceAs (Decidable (c.cmd = text "LIST" → ServerClient.ListingFits c.host.store))

/-- What is said of a result, if there is one. -/
instance decidableOfOutcome {ε α : Type} (x : Except ε (Option α)) (p : α → Prop) [DecidablePred p] :
    Decidable (∀ a, x = .ok (some a) → p a) :=
  match x with
  | .ok (some a) => decidable_of_iff (p a) (by simp)
  | .ok none => .isTrue (by simp)
  | .error _ => .isTrue (by simp)

instance (host : Host) (strCmd arg : Bytes) :
    Decidable (ClientMain.CommandFits host strCmd arg) :=
  decidable_of_iff ((strCmd = text "get" → (ClientMain.retrText arg).length ≤ bufferSize) ∧
      (strCmd = text "rm" → (ClientMain.deleText arg).length ≤ bufferSize) ∧
      (strCmd = text "put" →
        ∀ size, Exec.outcome ((ClientMain.checkAndGetFileSize arg).run host) = .ok (some size) →
          (ClientMain.storText (ClientMain.lastComponent arg) size).length ≤ bufferSize))
    ⟨fun h => ⟨h.1, h.2.1, h.2.2⟩, fun h => ⟨h.get, h.rm, h.put⟩⟩

instance {τ : Type} (p : ClientMain.Prompt τ) (line : Option Bytes) :
    Decidable (ClientMain.LineFits p line) :=
  inferInstanceAs (Decidable (p.running = true → ClientMain.CommandFits p.globals.host
    (ClientMain.lineWords line).1 (ClientMain.lineWords line).2))

/-- A client object whose peer has sent `stream`, with the given files in `SERVER_ROOT`. -/
def servedFrom (stream : Bytes) (names : List Name)
    (h : (([] : Path) :: serverRootPath :: names.map fun n => serverRootPath ++ [n]).Nodup) :
    ServerClient.Client Bytes where
  link := stream
  host := { store :=
    { entries := ([], .dir) :: (serverRootPath, .dir)
        :: names.map fun n => (serverRootPath ++ [n], .file (text "xy"))
      nodup := by simpa [Function.comp_def] using h } }

/-- A client that will read `stream`. -/
def promptFrom (stream : Bytes) : ClientMain.Globals Bytes where
  link := stream
  host := { store := { entries := [([], .dir), ([text "downloads"], .dir)], nodup := by decide } }

/-- A session with a short listing, a download and a removal. -/
theorem packet_bound_short :
    (∀ p ∈ (Exec.endState ((ServerClient.serve .plain 3).run
        (servedFrom (text "LIST\n\nRETR a\n\nQUIT\n\n") [text "a"] (by decide)))).packets, Fits p) ∧
      ∀ p ∈ (Machine.run (ClientMain.Prompt.step .plain)
        ⟨true, promptFrom (text "200\nSize: 2\n\na\n200\nSize: 2\n\nxy200\n\n")⟩
        [some (text "rls"), some (text "get a"), some (text "rm a"), none]).1.globals.packets,
        Fits p := by
  constructor
  · exact (packet_bound .plain).1 3 _ rfl rfl (by decide +kernel)
  · exact (packet_bound .plain).2.1 _ _ rfl (by decide +kernel)

/-- Twenty names of 255 bytes. -/
def longNames : List Name :=
  (List.range 20).map fun i => UInt8.ofNat (65 + i) :: List.replicate 254 97

/-- **A listing and a command that do not fit**: twenty files with names of 255 bytes, and a file
name of 5000 bytes. -/
theorem long_packets :
    (¬ ∀ p ∈ (Exec.endState ((ServerClient.serve .plain 1).run
        (servedFrom (text "LIST\n\n") longNames (by decide +kernel)))).packets, Fits p) ∧
      ¬ ∀ p ∈ (Machine.run (ClientMain.Prompt.step .plain) ⟨true, promptFrom []⟩
        [some (text "get " ++ List.replicate 5000 97)]).1.globals.packets, Fits p := by
  constructor
  · decide +kernel
  · decide +kernel

end Cybrg
