import Cybrg.Common.Protocol
import Cybrg.Library.Exec

/-!
# The TCP connection

`Connection` wraps the socket calls.  The peer and the network are data of the model: the bytes
that still arrive before the peer closes (`incoming`) and the values that the next `::send`
calls return (`sendRets`).  What the program hands to the network is collected in `outgoing`.

* `Connection.send`, `Connection.recv` — `Connection::send(const char*, int)` and
  `Connection::recv(char*, int)`, which throw on a return value of zero or less;
* `Connection.sendString`, `Connection.recvString` — the overloads on `string&`, with a length
  in network order in front.  The receiving one does not look at the counts, so bytes that never
  arrived are read from uninitialised memory.
-/

namespace Cybrg

open Octets

/-- A connected socket and what will happen on it. -/
structure Connection where
  /-- What the peer still sends before it closes. -/
  incoming : Bytes := []
  /-- What `::send` has taken, in order. -/
  outgoing : Bytes := []
  /-- What the next calls of `::send` return; a call past the end takes everything. -/
  sendRets : List ℤ := []
  deriving DecidableEq, Repr

namespace Connection

/-- The value that the next `::send` of `len` bytes returns: never more than `len`. -/
def nextSendRet (c : Connection) (len : ℕ) : ℤ :=
  min (c.sendRets.headD len) len

/-- The connection after that `::send`. -/
def afterSend (c : Connection) (buffer : Bytes) : Connection :=
  { c with
    outgoing := c.outgoing ++ buffer.take (c.nextSendRet buffer.length).toNat
    sendRets := c.sendRets.tail }

/-- The connection after all of `buffer` has been handed over. -/
def put (c : Connection) (buffer : Bytes) : Connection :=
  { c with outgoing := c.outgoing ++ buffer }

@[simp] theorem put_put (c : Connection) (a b : Bytes) : (c.put a).put b = c.put (a ++ b) := by
  simp [put]

/-- The connection after the network has taken what was handed over. -/
def taken (c : Connection) : Connection := { c with outgoing := [] }

theorem taken_put {c : Connection} (h : c.outgoing = []) (a : Bytes) : (c.put a).taken = c := by
  cases c
  cases h
  rfl

theorem put_outgoing {c : Connection} (h : c.outgoing = []) (a : Bytes) :
    (c.put a).outgoing = a := by
  rw [put, h, List.nil_append]

/-- `Connection::send(const char*, int)`. -/
def send (buffer : Bytes) : EStateM Ex Connection ℤ := do
  let c ← get
  let ret := c.nextSendRet buffer.length
  modify fun c => c.afterSend buffer
  Exec.require (0 < ret) (.exSend "can not send()")
  return ret

/-- `Connection::recv(char*, int)`: with `MSG_WAITALL` the call returns fewer bytes than it was
asked for only when the peer has closed. -/
def recv (len : ℕ) : EStateM Ex Connection Bytes := do
  let c ← get
  let buffer := c.incoming.take len
  modify fun c => { c with incoming := c.incoming.drop len }
  Exec.require (0 < buffer.length) (.exRecv "can not recv()")
  return buffer

/-- `Connection::send(string&)`. -/
def sendString (buffer : Bytes) : EStateM Ex Connection ℤ := do
  let ret1 ← send (bigEndian (UInt32.ofNat buffer.length))
  let ret2 ← send buffer
  return ret1 + ret2

/-- Bytes of memory that a read of `n` bytes finds where only `bs` was written: `stale` is what
the rest of that memory happens to hold. -/
def readOver (stale : ℕ → Byte) (bs : Bytes) (n : ℕ) : Bytes :=
  bs.take n ++ (List.range (n - bs.length)).map stale

/-- `Connection::recv(string&)`.  `size` and `tmp_buffer` are not initialised; `stale 0` and
`stale 1` are what they hold before the call. -/
def recvString (stale : Memory) : EStateM Ex Connection Bytes := do
  let received ← recv 4
  let size := (ofBigEndian (readOver (stale 0) received 4)).toNat
  Exec.require (size ≤ bufferSize) (.exTooBig "string too big")
  let tmpBuffer ← recv size
  return readOver (stale 1) tmpBuffer size

/-! ### What the calls do -/

theorem recv_run (c : Connection) (len : ℕ) :
    (recv len).run c =
      if 0 < (c.incoming.take len).length
      then .ok (c.incoming.take len) { c with incoming := c.incoming.drop len }
      else .error (.exRecv "can not recv()") { c with incoming := c.incoming.drop len } := by
  simp only [recv, EStateM.run_bind, EStateM.run_get, EStateM.run_modify, Exec.run_require]
  by_cases h : 0 < (c.incoming.take len).length
  · simp only [if_pos h, EStateM.run_pure]
  · simp only [if_neg h]

/-- **What `recv` returns is what arrived first**, and it is removed from the stream. -/
theorem recv_ok {c c' : Connection} {len : ℕ} {bs : Bytes} (h : (recv len).run c = .ok bs c') :
    bs = c.incoming.take len ∧ bs ≠ [] ∧ c' = { c with incoming := c.incoming.drop len } := by
  rw [recv_run] at h
  split at h
  · rename_i hl
    cases h
    exact ⟨rfl, List.length_pos_iff.mp hl, rfl⟩
  · cases h

theorem recv_error {c c' : Connection} {len : ℕ} {x : Ex} (h : (recv len).run c = .error x c') :
    x = .exRecv "can not recv()" := by
  rw [recv_run] at h
  split at h
  · cases h
  · cases h
    rfl

/-- A read of bytes that are all there. -/
theorem recv_append {c : Connection} {bs rest : Bytes} (h : c.incoming = bs ++ rest)
    (hpos : bs ≠ []) :
    (recv bs.length).run c = .ok bs { c with incoming := rest } := by
  rw [recv_run, h, List.take_left, List.drop_left, if_pos (List.length_pos_iff.mpr hpos)]

theorem send_run (c : Connection) (buffer : Bytes) :
    (send buffer).run c =
      if 0 < c.nextSendRet buffer.length
      then .ok (c.nextSendRet buffer.length) (c.afterSend buffer)
      else .error (.exSend "can not send()") (c.afterSend buffer) := by
  simp only [send, EStateM.run_bind, EStateM.run_get, EStateM.run_modify, Exec.run_require]
  by_cases h : 0 < c.nextSendRet buffer.length
  · simp only [if_pos h, EStateM.run_pure]
  · simp only [if_neg h]

theorem send_error {c c' : Connection} {buffer : Bytes} {x : Ex}
    (h : (send buffer).run c = .error x c') : x = .exSend "can not send()" := by
  rw [send_run] at h
  split at h
  · cases h
  · cases h
    rfl

/-- A socket that takes everything takes a non-empty buffer whole. -/
theorem send_lossless {c : Connection} {buffer : Bytes} (h : c.sendRets = [])
    (hpos : buffer ≠ []) : (send buffer).run c = .ok buffer.length (c.put buffer) := by
  have hret : c.nextSendRet buffer.length = buffer.length := by
    simp [nextSendRet, h]
  have hlen : 0 < (buffer.length : ℤ) := by
    have := List.length_pos_iff.mpr hpos
    omega
  rw [send_run, hret, if_pos hlen]
  simp [afterSend, put, hret, h]

/-- A socket that takes everything takes a framed string whole. -/
theorem sendString_lossless {c : Connection} {buffer : Bytes} (h : c.sendRets = [])
    (hpos : buffer ≠ []) : ∃ n, (sendString buffer).run c = .ok n (c.put (frame buffer)) := by
  have hlen : bigEndian (UInt32.ofNat buffer.length) ≠ [] := by simp [bigEndian]
  refine ⟨(bigEndian (UInt32.ofNat buffer.length)).length + buffer.length, ?_⟩
  unfold sendString
  have hput := send_lossless (c := c.put (bigEndian (UInt32.ofNat buffer.length))) h hpos
  rw [put_put] at hput
  rw [Exec.bind_of_ok (send_lossless h hlen), Exec.bind_of_ok hput]
  rfl

/-- **A framed string that is there is received**, whatever the variables held before. -/
theorem recvString_frame {c : Connection} {buffer rest : Bytes} (stale : Memory)
    (h : c.incoming = frame buffer ++ rest) (hpos : buffer ≠ [])
    (hle : buffer.length ≤ bufferSize) :
    (recvString stale).run c = .ok buffer { c with incoming := rest } := by
  have hb : bufferSize = 4096 := rfl
  have hlen : bigEndian (UInt32.ofNat buffer.length) ≠ [] := by simp [bigEndian]
  have hfirst : c.incoming = bigEndian (UInt32.ofNat buffer.length) ++ (buffer ++ rest) := by
    rw [h, frame, List.append_assoc]
  have h₁ := recv_append hfirst hlen
  rw [bigEndian_length] at h₁
  have hover : ∀ {bs : Bytes} {n : ℕ} (junk : ℕ → Byte), bs.length = n →
      readOver junk bs n = bs := by
    intro bs n junk hn
    subst hn
    rw [readOver, Nat.sub_self, List.range_zero, List.map_nil, List.append_nil, List.take_length]
  have hsize : (ofBigEndian (readOver (stale 0) (bigEndian (UInt32.ofNat buffer.length)) 4)).toNat
      = buffer.length := by
    rw [hover _ (bigEndian_length _), ofBigEndian_bigEndian, UInt32.toNat_ofNat',
      Nat.mod_eq_of_lt (by omega)]
  unfold recvString
  rw [Exec.bind_of_ok h₁]
  dsimp only
  rw [hsize, Exec.bind_of_ok (Exec.run_require_of_true hle),
    Exec.bind_of_ok (recv_append rfl hpos)]
  dsimp only
  rw [hover _ rfl]
  rfl

/-- Sending only writes to the sending side. -/
theorem send_incoming (buffer : Bytes) :
    Exec.Leaves Connection.incoming (send buffer) := by
  intro c
  rw [send_run]
  split <;> rfl

end Connection

end Cybrg
