import Cybrg.Conversation.Reading
import Cybrg.Server.Confinement
import Cybrg.Server.Streaming

/-!
# The loops that read a body

`cmd_stor`, `recv_file` and `recv_list` read a body in fragments, as many bytes at a time as
`Crypto::recv` returns.

* `Asks` — the calls of such a loop: how much each one asks for, and how much it gets;
* `Transport.logged` — a transport that notes its calls;
* `Transport.bodyLoop_calls` — the calls of a loop on a transport that carries a stream;
* `Transport.machineLoop` — the loop with the integers of the machine, and `machineLoop_eq`;
* `body_loops_exact` — the three loops take exactly the body, and write it.
-/

namespace Cybrg

open Files

/-! ### Calls -/

/-- A call of `recv`: the size it asks for, and the number of bytes it gets. -/
abbrev RecvCall := ℕ × ℕ

/-- The calls of a loop that has `received` of `size` bytes: each asks for what is missing, but not
for more than a buffer, and gets at least one byte and not more than that; the last one completes
the body. -/
def Asks (size : ℤ) : ℤ → List RecvCall → Prop
  | received, [] => size ≤ received
  | received, (ask, got) :: calls =>
      received < size ∧ (ask : ℤ) = min (size - received) bufferSize ∧ 1 ≤ got ∧ got ≤ ask ∧
        Asks size (received + got) calls

/-- **The calls of a body get exactly its bytes.** -/
theorem Asks.sum {size received : ℤ} {calls : List RecvCall} (h : Asks size received calls)
    (hle : received ≤ size) : received + ((calls.map Prod.snd).sum : ℕ) = size := by
  induction calls generalizing received with
  | nil =>
    have hend : size ≤ received := h
    simp only [List.map_nil, List.sum_nil]
    omega
  | cons call calls ih =>
    obtain ⟨ask, got⟩ := call
    obtain ⟨hlt, hask, -, hgot, hrest⟩ := h
    have hsum := ih hrest (by omega)
    rw [List.map_cons, List.sum_cons]
    push_cast at hsum ⊢
    omega

namespace Transport

variable {τ γ : Type}

/-- A transport that notes its calls of `recv`. -/
def logged (t : Transport τ) : Transport (τ × List RecvCall) where
  recv size := fun (x, calls) =>
    match (t.recv size).run x with
    | .ok bs x' => .ok bs (x', calls ++ [(size, bs.length)])
    | .error e x' => .error e (x', calls)
  send plaintext := Exec.zoom Prod.fst (fun x s => (x, s.2)) (t.send plaintext)

variable {t : Transport τ} {holds : Bytes → τ → Prop} {half : τ → γ}

theorem logged_run {size : ℕ} {x x' : τ} {bs : Bytes} (h : (t.recv size).run x = .ok bs x')
    (calls : List RecvCall) :
    (t.logged.recv size).run (x, calls) = .ok bs (x', calls ++ [(size, bs.length)]) := by
  show (match (t.recv size).run x with
    | .ok bs x' => EStateM.Result.ok bs (x', calls ++ [(size, bs.length)])
    | .error e x' => .error e (x', calls)) = _
  rw [h]

/-- **The calls of a loop** that reads a body from a stream on which all of it is still to come. -/
theorem bodyLoop_asks (hc : t.Carries holds half) {σ β : Type} {f : σ → τ × List RecvCall}
    {p : τ × List RecvCall → σ → σ} (hput : ∀ s l, f (p l s) = l) {a : β → Bytes → EStateM Ex σ β}
    (hact : ∀ b s got, ∃ b' s', (a b got).run s = .ok b' s' ∧ f s' = f s) (size : ℤ) (n : ℕ)
    (received : ℤ) {b : β} {s : σ} {x : Bytes} (h : holds x (f s).1)
    (hlen : (size - received).toNat ≤ x.length) (hn : (size - received).toNat ≤ n) :
    ∃ s' calls, (Transport.bodyLoop (fun k => Exec.zoom f p (t.logged.recv k)) a size n received
        b).run s = .ok () s' ∧
      (f s').2 = (f s).2 ++ calls ∧ Asks size received calls := by
  induction n generalizing received b s x with
  | zero =>
    refine ⟨s, [], rfl, (List.append_nil _).symm, ?_⟩
    show size ≤ received
    omega
  | succ n ih =>
    rw [Transport.bodyLoop]
    by_cases hlt : received < size
    · have hx : x ≠ [] := by
        rintro rfl
        rw [List.length_nil] at hlen
        omega
      have hb : bufferSize = 4096 := rfl
      obtain ⟨k, l, hpos, hle, hk, hrun, hl, -⟩ := hc.recv h hx
        (n := (min (size - received) bufferSize).toNat) (by omega)
      have htake : (x.take k).length = k := by rw [List.length_take, Nat.min_eq_left hk]
      have hlog := logged_run hrun (f s).2
      rw [htake] at hlog
      have hrecv : (Exec.zoom f p (t.logged.recv (min (size - received) bufferSize).toNat)).run s
          = .ok (x.take k) (p (l, (f s).2 ++ [((min (size - received) bufferSize).toNat, k)]) s) :=
        Exec.zoom_of_ok hlog
      obtain ⟨b₁, s₁, hdone, hget⟩ := hact b
        (p (l, (f s).2 ++ [((min (size - received) bufferSize).toNat, k)]) s) (x.take k)
      rw [hput] at hget
      obtain ⟨s', calls, hrest, hcalls, hasks⟩ := ih (received + k) (b := b₁) (s := s₁)
        (x := x.drop k) (by rw [hget]; exact hl) (by rw [List.length_drop]; omega) (by omega)
      refine ⟨s', ((min (size - received) bufferSize).toNat, k) :: calls, ?_, ?_, ?_⟩
      · rw [if_pos hlt, Exec.bind_of_ok hrecv, Exec.bind_of_ok hdone, htake]
        exact hrest
      · rw [hcalls, hget, List.append_assoc]
        rfl
      · exact ⟨hlt, by omega, hpos, hle, hasks⟩
    · rw [if_neg hlt]
      exact ⟨s, [], rfl, (List.append_nil _).symm, not_lt.mp hlt⟩

/-- A whole body, when no call has been noted yet. -/
theorem bodyLoop_calls (hc : t.Carries holds half) {σ β : Type} {f : σ → τ × List RecvCall}
    {p : τ × List RecvCall → σ → σ} (hput : ∀ s l, f (p l s) = l) {a : β → Bytes → EStateM Ex σ β}
    (hact : ∀ b s got, ∃ b' s', (a b got).run s = .ok b' s' ∧ f s' = f s) (size : ℤ) (b : β) {s : σ}
    {x : Bytes} {l : τ} (hs : f s = (l, [])) (h : holds x l) (hlen : size.toNat ≤ x.length) :
    ∃ s', (Transport.bodyLoop (fun k => Exec.zoom f p (t.logged.recv k)) a size size.toNat 0 b).run s
        = .ok () s' ∧ Asks size 0 (f s').2 := by
  obtain ⟨s', calls, hrun, hcalls, hasks⟩ := bodyLoop_asks hc hput hact size size.toNat 0 (b := b)
    (s := s) (x := x) (by rw [hs]; exact h) (by rwa [sub_zero]) (by rw [sub_zero])
  rw [hs] at hcalls
  have hnoted : (f s').2 = calls := hcalls
  exact ⟨s', hrun, hnoted ▸ hasks⟩

/-! ### Integers of the machine -/

/-- A number as an `int` holds it. -/
def toInt32 (z : ℤ) : ℤ := Int.bmod z (2 ^ 32)

theorem toInt64_of_bounds {z : ℤ} (hlo : 0 ≤ z) (hhi : z < 2 ^ 63) : toInt64 z = z :=
  Int.bmod_eq_of_le (by omega) (by omega)

theorem toInt32_of_bounds {z : ℤ} (hlo : 0 ≤ z) (hhi : z ≤ bufferSize) : toInt32 z = z := by
  have hb : bufferSize = 4096 := rfl
  exact Int.bmod_eq_of_le (by omega) (by omega)

/-- `(remaining > BUFFER_SIZE) ? BUFFER_SIZE : remaining`, as an `int`. -/
def fragmentSize (remaining : ℤ) : ℤ :=
  toInt32 (if bufferSize < remaining then bufferSize else remaining)

theorem fragmentSize_eq {remaining : ℤ} (h : 0 ≤ remaining) :
    fragmentSize remaining = min remaining bufferSize := by
  have hb : bufferSize = 4096 := rfl
  unfold fragmentSize
  split
  · rw [toInt32_of_bounds (by omega) le_rfl]
    omega
  · rw [toInt32_of_bounds h (by omega)]
    omega

/-- The loop as the machine computes it: `size` and `received` are of type `int64_t`, and what `recv` is
given and returns is of type `int`. -/
def machineLoop {σ β : Type} (recv : ℕ → EStateM Ex σ Bytes) (act : β → Bytes → EStateM Ex σ β)
    (size : ℤ) : ℕ → ℤ → β → EStateM Ex σ Unit
  | 0, _, _ => return ()
  | n + 1, received, b =>
      if received < size then do
        let remaining := toInt64 (size - received)
        let fragment ← recv (fragmentSize remaining).toNat
        let b ← act b fragment
        machineLoop recv act size n (toInt64 (received + toInt32 fragment.length)) b
      else return ()

/-- **Nothing wraps around**: the loop of the machine does what the loop does. -/
theorem machineLoop_eq (hc : t.Carries holds half) {σ β : Type} {f : σ → τ} {p : τ → σ → σ}
    (hput : ∀ s l, f (p l s) = l) {a : β → Bytes → EStateM Ex σ β}
    (hact : ∀ b s got, ∃ b' s', (a b got).run s = .ok b' s' ∧ f s' = f s) {size : ℤ}
    (hsize : size < 2 ^ 63) (n : ℕ) {received : ℤ} (h0 : 0 ≤ received) {b : β} {s : σ} {x : Bytes}
    (h : holds x (f s)) :
    (machineLoop (fun k => Exec.zoom f p (t.recv k)) a size n received b).run s
      = (Transport.bodyLoop (fun k => Exec.zoom f p (t.recv k)) a size n received b).run s := by
  induction n generalizing received b s x with
  | zero => rfl
  | succ n ih =>
    rw [machineLoop, Transport.bodyLoop]
    by_cases hlt : received < size
    · have hb : bufferSize = 4096 := rfl
      have hask : 0 < (min (size - received) bufferSize).toNat := by omega
      rw [if_pos hlt, if_pos hlt, toInt64_of_bounds (by omega) (by omega)]
      dsimp only
      rw [fragmentSize_eq (by omega)]
      by_cases hx : x = []
      · subst hx
        obtain ⟨e, l, hrun, -⟩ := hc.ended h hask
        have hrecv : (Exec.zoom f p (t.recv (min (size - received) bufferSize).toNat)).run s
            = .error e (p l s) :=
          Exec.zoom_of_error hrun
        rw [Exec.bind_of_error hrecv, Exec.bind_of_error hrecv]
      · obtain ⟨k, l, -, hle, hk, hrun, hl, -⟩ := hc.recv h hx hask
        have hrecv : (Exec.zoom f p (t.recv (min (size - received) bufferSize).toNat)).run s
            = .ok (x.take k) (p l s) :=
          Exec.zoom_of_ok hrun
        have htake : (x.take k).length = k := by rw [List.length_take, Nat.min_eq_left hk]
        obtain ⟨b₁, s₁, hdone, hget⟩ := hact b (p l s) (x.take k)
        rw [hput] at hget
        rw [Exec.bind_of_ok hrecv, Exec.bind_of_ok hrecv, Exec.bind_of_ok hdone,
          Exec.bind_of_ok hdone, htake, toInt32_of_bounds (by omega) (by omega),
          toInt64_of_bounds (by omega) (by omega)]
        exact ih (by omega) (x := x.drop k) (by rw [hget]; exact hl)
    · rw [if_neg hlt, if_neg hlt]

end Transport

/-! ### The loops of the programs -/

/-- What a loop writes to the file that was opened for a body of `size` bytes, which the stream `s`
begins with: as much of them as the file takes. -/
structure Writes (h : Host) (path : Path) (size : ℤ) (writable : ℕ) (s written : Bytes) : Prop where
  begins : written <+: s.take size.toNat
  all : size.toNat ≤ writable → written = s.take size.toNat
  nothing : size ≤ 0 → written = []
  file : ∀ old : Store, h.store = old.truncate path → (∀ reads, old.get path ≠ some (.special reads)) →
    (h.appended path written).store = old.set path (.file written)

theorem writes_take (h : Host) (path : Path) (size : ℤ) (writable : ℕ) (s : Bytes) :
    Writes h path size writable s ((s.take size.toNat).take writable) := by
  refine ⟨List.take_prefix _ _, fun hall => ?_, fun hle => ?_, fun old hold hspecial => ?_⟩
  · rw [List.take_take, Nat.min_eq_right hall]
  · rw [Int.toNat_of_nonpos hle, List.take_zero, List.take_nil]
  · show h.store.append path _ = _
    rw [hold, Store.append_truncate hspecial]

section Loops

variable {τ γ : Type} {t : Transport τ} {holds : Bytes → τ → Prop} {half : τ → γ}

/-- The loop of `cmd_stor` takes the body that the stream `s` begins with, and nothing behind it. -/
structure StorExact (t : Transport τ) (holds : Bytes → τ → Prop) (path : Path) (size : ℤ)
    (writable : ℕ) (c : ServerClient.Client τ) (s : Bytes) : Prop where
  run : ∃ l written, (ServerClient.storLoop t path size size.toNat 0 writable).run c
      = .ok () { c with link := l, host := c.host.appended path written } ∧
    holds (s.drop size.toNat) l ∧ Writes c.host path size writable s written
  calls : ∃ c', (ServerClient.storLoop t.logged path size size.toNat 0 writable).run
      (c.withLink (c.link, [])) = .ok () c' ∧ Asks size 0 c'.link.2
  machine : (Transport.machineLoop (ServerClient.recvBodyFragment t) (ServerClient.keep path) size
      size.toNat 0 writable).run c
    = (ServerClient.storLoop t path size size.toNat 0 writable).run c

/-- The loop of `recv_file`. -/
structure FileExact (t : Transport τ) (holds : Bytes → τ → Prop) (path : Path) (size : ℤ)
    (writable : ℕ) (g : ClientMain.Globals τ) (s : Bytes) : Prop where
  run : ∃ l written, (ClientMain.fileLoop t path size size.toNat 0 writable).run g
      = .ok () { g with link := l, host := g.host.appended path written } ∧
    holds (s.drop size.toNat) l ∧ Writes g.host path size writable s written
  calls : ∃ g', (ClientMain.fileLoop t.logged path size size.toNat 0 writable).run
      { g with link := (g.link, []) } = .ok () g' ∧ Asks size 0 g'.link.2
  machine : (Transport.machineLoop (ClientMain.recvFragment t) (ClientMain.keep path) size
      size.toNat 0 writable).run g
    = (ClientMain.fileLoop t path size size.toNat 0 writable).run g

/-- The loop of `recv_list`, which writes no file. -/
structure ListExact (t : Transport τ) (holds : Bytes → τ → Prop) (size : ℤ) (buffer : Bytes)
    (g : ClientMain.Globals τ) (s : Bytes) : Prop where
  run : ∃ g', (ClientMain.listLoop t size size.toNat buffer 0).run g = .ok () g' ∧
    holds (s.drop size.toNat) g'.link ∧ g'.host = g.host
  calls : ∃ g', (ClientMain.listLoop t.logged size size.toNat buffer 0).run
      { g with link := (g.link, []) } = .ok () g' ∧ Asks size 0 g'.link.2
  machine : (Transport.machineLoop (ClientMain.recvFragment t) ClientMain.printFragment size
      size.toNat 0 buffer).run g
    = (ClientMain.listLoop t size size.toNat buffer 0).run g

theorem storLoop_exact (hc : t.Carries holds half) (path : Path) {size : ℤ} (hsize : size < 2 ^ 63)
    (writable : ℕ) {c : ServerClient.Client τ} {s : Bytes} (h : holds s c.link)
    (hlen : size.toNat ≤ s.length) : StorExact t holds path size writable c s := by
  have hkeep : ∀ {τ : Type} (w : ℕ) (c : ServerClient.Client τ) (got : Bytes), ∃ w' c',
      (ServerClient.keep path w got).run c = .ok w' c' ∧ c'.link = c.link :=
    fun w c got => ⟨_, _, rfl, rfl⟩
  constructor
  · have hrun := ServerClient.storLoop_run hc path size size.toNat 0 writable h (by omega)
    rw [sub_zero, if_pos hlen] at hrun
    obtain ⟨l, hrun, hl, -⟩ := hrun
    exact ⟨l, _, hrun, hl, writes_take _ _ _ _ _⟩
  · rw [ServerClient.storLoop_eq]
    exact Transport.bodyLoop_calls hc (f := ServerClient.Client.link)
      (p := fun l c => { c with link := l }) (fun _ _ => rfl) hkeep size writable rfl h hlen
  · rw [ServerClient.storLoop_eq]
    exact Transport.machineLoop_eq hc (f := ServerClient.Client.link)
      (p := fun l c => { c with link := l }) (fun _ _ => rfl) hkeep hsize size.toNat le_rfl h

theorem fileLoop_exact (hc : t.Carries holds half) (path : Path) {size : ℤ} (hsize : size < 2 ^ 63)
    (writable : ℕ) {g : ClientMain.Globals τ} {s : Bytes} (h : holds s g.link)
    (hlen : size.toNat ≤ s.length) : FileExact t holds path size writable g s := by
  have hkeep : ∀ {τ : Type} (w : ℕ) (g : ClientMain.Globals τ) (got : Bytes), ∃ w' g',
      (ClientMain.keep path w got).run g = .ok w' g' ∧ g'.link = g.link :=
    fun w g got => ⟨_, _, rfl, rfl⟩
  constructor
  · have hrun := ClientMain.fileLoop_run hc path size writable h
    rw [if_pos hlen] at hrun
    obtain ⟨l, hrun, hl, -⟩ := hrun
    exact ⟨l, _, hrun, hl, writes_take _ _ _ _ _⟩
  · rw [ClientMain.fileLoop_eq]
    exact Transport.bodyLoop_calls hc (f := ClientMain.Globals.link)
      (p := fun l g => { g with link := l }) (fun _ _ => rfl) hkeep size writable rfl h hlen
  · rw [ClientMain.fileLoop_eq]
    exact Transport.machineLoop_eq hc (f := ClientMain.Globals.link)
      (p := fun l g => { g with link := l }) (fun _ _ => rfl) hkeep hsize size.toNat le_rfl h

theorem listLoop_exact (hc : t.Carries holds half) {size : ℤ} (hsize : size < 2 ^ 63) (buffer : Bytes)
    {g : ClientMain.Globals τ} {s : Bytes} (h : holds s g.link) (hlen : size.toNat ≤ s.length) :
    ListExact t holds size buffer g s := by
  have hprint : ∀ {τ : Type} (b : Bytes) (g : ClientMain.Globals τ) (got : Bytes), ∃ b' g',
      (ClientMain.printFragment b got).run g = .ok b' g' ∧ g'.link = g.link :=
    fun b g got => ⟨_, _, rfl, rfl⟩
  constructor
  · have hrun := ClientMain.listLoop_run hc size size.toNat buffer 0 h (by omega)
    rw [sub_zero, if_pos hlen] at hrun
    obtain ⟨g', hrun, hhost, -, hl, -⟩ := hrun
    exact ⟨g', hrun, hl, hhost⟩
  · rw [ClientMain.listLoop_eq]
    exact Transport.bodyLoop_calls hc (f := ClientMain.Globals.link)
      (p := fun l g => { g with link := l }) (fun _ _ => rfl) hprint size buffer rfl h hlen
  · rw [ClientMain.listLoop_eq]
    exact Transport.machineLoop_eq hc (f := ClientMain.Globals.link)
      (p := fun l g => { g with link := l }) (fun _ _ => rfl) hprint hsize size.toNat le_rfl h

/-- **The loops take exactly the body.**  Whatever a transport returns of the stream it carries, each
loop that is to read a body of an announced size returns as soon as it has read this many bytes, asks
for no byte behind them, and writes them to its file. -/
theorem body_loops_exact (hc : t.Carries holds half) :
    (∀ (path : Path) (size : ℤ) (writable : ℕ) (c : ServerClient.Client τ) (s : Bytes),
      -2 ^ 63 ≤ size → size ≤ maxFileSize → holds s c.link → size.toNat ≤ s.length →
        StorExact t holds path size writable c s) ∧
    (∀ (path : Path) (size : ℤ) (writable : ℕ) (g : ClientMain.Globals τ) (s : Bytes),
      0 ≤ size → size < 2 ^ 63 → holds s g.link → size.toNat ≤ s.length →
        FileExact t holds path size writable g s) ∧
    ∀ (size : ℤ) (buffer : Bytes) (g : ClientMain.Globals τ) (s : Bytes),
      0 ≤ size → size < 2 ^ 63 → holds s g.link → size.toNat ≤ s.length →
        ListExact t holds size buffer g s := by
  have hmax : maxFileSize < 2 ^ 63 := by decide
  refine ⟨fun path size writable c s _ hhi h hlen => ?_, fun path size writable g s _ hhi h hlen => ?_,
    fun size buffer g s _ hhi h hlen => ?_⟩
  · exact storLoop_exact hc path (lt_of_le_of_lt hhi hmax) writable h hlen
  · exact fileLoop_exact hc path hhi writable h hlen
  · exact listLoop_exact hc hhi buffer h hlen

end Loops

/-- An upload of three bytes, with a request behind it. -/
theorem body_loops_upload :
    StorExact .plain (fun s l => l = s) [text "a"] 3 3 (ServerClient.emptyRoot (text "xyzLIST\n\n"))
      (text "xyzLIST\n\n") :=
  (body_loops_exact plain_carries).1 [text "a"] 3 3 _ _ (by decide) (by decide) rfl (by decide)

end Cybrg
