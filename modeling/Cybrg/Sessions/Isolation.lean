import Cybrg.Common.SecureLayer
import Cybrg.Library.Machine
import Mathlib.Logic.Function.Basic

/-!
# Several sessions in one process

The server runs one `Crypto` object for each client, all in one process, and `Crypto::recv`
keeps its unread plaintext in `static` variables: one buffer for all objects.  This file models
the process and follows the bytes across objects:

* `Process.step` — a session starts, sends, receives or ends; a `recv` works on the session of
  its object and on the buffer of the process;
* `OwnBuffer` — at a `recv` the buffer is empty, or holds the rest of a packet that the same
  object decrypted;
* `isolation` — under `OwnBuffer` every object sees what it would see alone, and nothing but
  plaintext of its own verified packets;
* `unread_bytes_cross` — without it, plaintext of one session is returned by another.

The two-run part goes through `Process.Like`, which relates the process to the one that runs a
single object; the provenance part through the invariant `Process.Sound`.
-/

namespace Cybrg

open Octets

/-! ### The process -/

/-- A `Crypto` object: not built yet, in use, or deleted. -/
inductive Slot where
  | unborn
  | live (s : Session)
  | gone (s : Session)

/-- A server process. -/
structure Process where
  /-- The `static` locals of `Crypto::recv`. -/
  buf : RecvBuffer := {}
  slots : ℕ → Slot := fun _ => .unborn
  /-- The object whose call last found the buffer empty.  The program does not know it. -/
  owner : Option ℕ := none

/-- What can happen to an object. -/
inductive Op where
  | start (k : SessionKeys) (conn : Connection)
  | send (plaintext : Bytes)
  | recv (size : ℕ)
  | finish

structure Event where
  obj : ℕ
  op : Op

/-- What a call of `recv` on an object gave its caller. -/
structure Return where
  obj : ℕ
  result : Except Ex Bytes
  deriving DecidableEq

namespace Process

def set (p : Process) (obj : ℕ) (slot : Slot) : Process :=
  { p with slots := Function.update p.slots obj slot }

@[simp] theorem set_slots_self (p : Process) (obj : ℕ) (slot : Slot) :
    (p.set obj slot).slots obj = slot := by
  simp [set]

theorem set_slots_ne (p : Process) {obj i : ℕ} (slot : Slot) (h : i ≠ obj) :
    (p.set obj slot).slots i = p.slots i := by
  simp [set, h]

@[simp] theorem set_buf (p : Process) (obj : ℕ) (slot : Slot) : (p.set obj slot).buf = p.buf := rfl

@[simp] theorem set_owner (p : Process) (obj : ℕ) (slot : Slot) :
    (p.set obj slot).owner = p.owner := rfl

/-- The process after a `recv` on `obj` has left its session and the buffer as in `e`. -/
def afterRecv (p : Process) (obj : ℕ) (e : Endpoint) : Process where
  buf := e.buf
  slots := Function.update p.slots obj (.live e.session)
  owner := if p.buf.remaining = 0 then some obj else p.owner

@[simp] theorem afterRecv_buf (p : Process) (obj : ℕ) (e : Endpoint) :
    (p.afterRecv obj e).buf = e.buf := rfl

@[simp] theorem afterRecv_slots_self (p : Process) (obj : ℕ) (e : Endpoint) :
    (p.afterRecv obj e).slots obj = .live e.session := by
  simp [afterRecv]

/-- Under the condition on the buffer, the bytes in it belong to the object after the call. -/
theorem afterRecv_owner {p : Process} {obj : ℕ} (h : p.buf.remaining = 0 ∨ p.owner = some obj)
    (e : Endpoint) : (p.afterRecv obj e).owner = some obj := by
  simp only [afterRecv]
  split
  · rfl
  · rename_i hb
    exact h.resolve_left hb

theorem afterRecv_slots_ne (p : Process) {obj i : ℕ} (e : Endpoint) (h : i ≠ obj) :
    (p.afterRecv obj e).slots i = p.slots i := by
  simp [afterRecv, h]

/-- One event.  Events on objects that are not there have no effect. -/
def step (P : Primitives) (o : ByteOrder) (p : Process) (e : Event) : Process × List Return :=
  match e.op, p.slots e.obj with
  | .start k conn, .unborn => (p.set e.obj (.live (Session.new k conn)), [])
  | .send plaintext, .live s =>
      (p.set e.obj (.live (Exec.endState ((Crypto.send P o plaintext).run s))), [])
  | .recv size, .live s =>
      let r := (Crypto.recv P o size).run ⟨s, p.buf⟩
      (p.afterRecv e.obj (Exec.endState r), [⟨e.obj, Exec.outcome r⟩])
  | .finish, .live s => (p.set e.obj (.gone s), [])
  | _, _ => (p, [])

/-- A run of a fresh process. -/
abbrev run (P : Primitives) (o : ByteOrder) (es : List Event) : Process × List Return :=
  Machine.run (step P o) {} es

/-- A `recv` that does not find another object's bytes in the buffer. -/
def OwnBuffer (p : Process) (e : Event) : Prop :=
  match e.op with
  | .recv _ => p.buf.remaining = 0 ∨ p.owner = some e.obj
  | _ => True

instance (p : Process) (e : Event) : Decidable (p.OwnBuffer e) := by
  unfold OwnBuffer
  split <;> infer_instance

/-- The bytes that the calls on an object returned. -/
def returned (obj : ℕ) (out : List Return) : Bytes :=
  (out.filter (·.obj = obj)).flatMap fun r => returnedBytes r.result

/-- The session of an object that has been built. -/
def session? (p : Process) (obj : ℕ) : Option Session :=
  match p.slots obj with
  | .unborn => none
  | .live s | .gone s => some s

end Process

/-! ### A call depends only on the unread bytes -/

/-- The same session, and buffers that hold the same unread bytes. -/
structure Endpoint.Like (e f : Endpoint) : Prop where
  session : e.session = f.session
  remaining : e.buf.remaining = f.buf.remaining
  unread : e.buf.unread = f.buf.unread

theorem RecvBuffer.remaining_advance (b : RecvBuffer) (size : ℕ) :
    (b.advance size).remaining = b.remaining - size := by
  simp only [advance, count]
  split <;> omega

/-- **Two calls from like endpoints end alike**: stale bytes of the array do not matter. -/
theorem Crypto.recv_agree {P : Primitives} {o : ByteOrder} {e f : Endpoint} (h : e.Like f)
    (size : ℕ) :
    Exec.Agree Endpoint.Like ((Crypto.recv P o size).run e) ((Crypto.recv P o size).run f) := by
  obtain ⟨s, b⟩ := e
  obtain ⟨t, d⟩ := f
  obtain ⟨hs, hr, hu⟩ := h
  simp only at hs hr hu
  subst hs
  have hends := Crypto.recv_cases P o size ⟨s, b⟩
  generalize (Crypto.recv P o size).run ⟨s, b⟩ = r at hends ⊢
  cases hends with
  | unread hb =>
    have hd : d.remaining ≠ 0 := hr ▸ hb
    rw [Crypto.recv_unread size hd]
    simp only [hu]
    refine .ok ⟨rfl, ?_, ?_⟩
    · simp only [RecvBuffer.remaining_advance, hr]
    · simp only [RecvBuffer.unread_advance, hu]
  | rejected hb hx =>
    have hd : d.remaining = 0 := hr ▸ hb
    have hfeed := Crypto.feed_of_error (e := ⟨s, d⟩) hx
    rw [Crypto.recv_empty size hd, Exec.bind_of_error hfeed]
    exact .error ⟨rfl, hr, hu⟩
  | accepted hb he hin hseq =>
    have hd : d.remaining = 0 := hr ▸ hb
    rw [Crypto.recv_of_expected (e := ⟨s, d⟩) size hd he hin hseq]
    refine .ok ⟨rfl, ?_, ?_⟩
    · simp only [RecvBuffer.remaining_advance, Crypto.accept, RecvBuffer.fill]
    · simp only [RecvBuffer.unread_advance, Crypto.accept, RecvBuffer.unread_fill]
  | wrapped hb he hin hseq =>
    have hd : d.remaining = 0 := hr ▸ hb
    have hfeed := Crypto.feed_of_ok (e := ⟨s, d⟩) (Crypto.receivePacket_of_expected he hin)
    rw [if_neg (by simpa using hseq)] at hfeed
    rw [Crypto.recv_empty size hd, Exec.bind_of_error hfeed]
    refine .error ⟨rfl, rfl, ?_⟩
    simp only [Crypto.accept, RecvBuffer.unread_fill]

/-! ### The process and the process of one object -/

namespace Process

variable {P : Primitives} {o : ByteOrder}

/-- `t` has the same object `obj` as `p`, and its buffer holds what `p`'s holds for it. -/
structure LikeAt (obj : ℕ) (p t : Process) : Prop where
  slot : p.slots obj = t.slots obj
  mine : p.owner = some obj →
    p.buf.remaining = t.buf.remaining ∧ p.buf.unread = t.buf.unread
  other : p.owner ≠ some obj → t.buf.remaining = 0

theorem LikeAt.initial (obj : ℕ) : LikeAt obj {} {} :=
  ⟨rfl, fun _ => ⟨rfl, rfl⟩, fun _ => rfl⟩

/-- Writing the same slot on both sides. -/
theorem LikeAt.set {obj : ℕ} {p t : Process} (h : LikeAt obj p t) (slot : Slot) :
    LikeAt obj (p.set obj slot) (t.set obj slot) :=
  ⟨by simp, by simpa using h.mine, by simpa using h.other⟩

/-- Writing another slot on one side. -/
theorem LikeAt.set_ne {obj i : ℕ} {p t : Process} (h : LikeAt obj p t) (slot : Slot)
    (hi : obj ≠ i) : LikeAt obj (p.set i slot) t :=
  ⟨(p.set_slots_ne slot hi).trans h.slot, by simpa using h.mine, by simpa using h.other⟩

/-- Where the buffer may be read by `obj`, both processes hold the same bytes in it. -/
theorem LikeAt.endpoints {obj : ℕ} {p t : Process} (h : LikeAt obj p t)
    (hC : p.buf.remaining = 0 ∨ p.owner = some obj) (s : Session) :
    Endpoint.Like ⟨s, p.buf⟩ ⟨s, t.buf⟩ := by
  by_cases ho : p.owner = some obj
  · exact ⟨rfl, (h.mine ho).1, (h.mine ho).2⟩
  · have hp : p.buf.remaining = 0 := hC.resolve_right ho
    have ht : t.buf.remaining = 0 := h.other ho
    exact ⟨rfl, hp.trans ht.symm,
      (RecvBuffer.unread_of_empty hp).trans (RecvBuffer.unread_of_empty ht).symm⟩

/-- A `recv` on `obj` in both processes. -/
theorem LikeAt.afterRecv {obj : ℕ} {p t : Process} (hC : p.buf.remaining = 0 ∨ p.owner = some obj)
    {e f : Endpoint} (h : e.Like f) : LikeAt obj (p.afterRecv obj e) (t.afterRecv obj f) := by
  refine ⟨?_, fun _ => ⟨h.remaining, h.unread⟩, fun hne => absurd (afterRecv_owner hC e) hne⟩
  rw [afterRecv_slots_self, afterRecv_slots_self, h.session]

/-- A `recv` on another object. -/
theorem LikeAt.afterRecv_ne {obj i : ℕ} {p t : Process} (h : LikeAt obj p t) (hi : obj ≠ i)
    (hC : p.buf.remaining = 0 ∨ p.owner = some i) (e : Endpoint) :
    LikeAt obj (p.afterRecv i e) t := by
  have hne : some i ≠ some obj := fun heq => hi (Option.some.inj heq).symm
  have ht : t.buf.remaining = 0 := by
    by_cases hp : p.owner = some obj
    · have hempty : p.buf.remaining = 0 := hC.resolve_right (hp ▸ hne.symm)
      exact (h.mine hp).1.symm.trans hempty
    · exact h.other hp
  exact ⟨(p.afterRecv_slots_ne e hi).trans h.slot,
    fun heq => absurd ((afterRecv_owner hC e).symm.trans heq) hne, fun _ => ht⟩

/-- An event on `obj` itself: both processes make it, with the same result. -/
theorem LikeAt.step_self {obj : ℕ} {p t : Process} (h : LikeAt obj p t) {e : Event}
    (hC : p.OwnBuffer e) (he : e.obj = obj) :
    LikeAt obj (step P o p e).1 (step P o t e).1 ∧ (step P o p e).2 = (step P o t e).2 := by
  obtain ⟨i, op⟩ := e
  simp only at he
  subst he
  have hslot := h.slot
  cases hs : t.slots i with
  | unborn =>
    rw [hs] at hslot
    cases op <;> simp only [step, hslot, hs, and_true]
    case start k conn => exact h.set _
    all_goals exact h
  | gone s =>
    rw [hs] at hslot
    cases op <;> simp only [step, hslot, hs, and_true] <;> exact h
  | live s =>
    rw [hs] at hslot
    cases op with
    | start k conn => simpa only [step, hslot, hs, and_true] using h
    | send plaintext => simpa only [step, hslot, hs, and_true] using h.set _
    | finish => simpa only [step, hslot, hs, and_true] using h.set _
    | recv size =>
      have hagree := Crypto.recv_agree (P := P) (o := o) (h.endpoints hC s) size
      simp only [step, hslot, hs]
      generalize (Crypto.recv P o size).run ⟨s, p.buf⟩ = r at hagree ⊢
      generalize (Crypto.recv P o size).run ⟨s, t.buf⟩ = q at hagree ⊢
      cases hagree with
      | ok hl => exact ⟨LikeAt.afterRecv hC hl, rfl⟩
      | error hl => exact ⟨LikeAt.afterRecv hC hl, rfl⟩

/-- An event returns something only to its own object. -/
theorem step_obj (p : Process) (e : Event) : ∀ r ∈ (step P o p e).2, r.obj = e.obj := by
  intro r hr
  unfold step at hr
  split at hr
  case h_3 => rw [List.mem_singleton.mp hr]
  all_goals cases hr

/-- An event on another object: only the process makes it. -/
theorem LikeAt.step_other {obj : ℕ} {p t : Process} (h : LikeAt obj p t) {e : Event}
    (hC : p.OwnBuffer e) (he : e.obj ≠ obj) : LikeAt obj (step P o p e).1 t := by
  obtain ⟨i, op⟩ := e
  simp only at he
  cases hs : p.slots i with
  | unborn =>
    cases op <;> simp only [step, hs]
    case start k conn => exact h.set_ne _ (Ne.symm he)
    all_goals exact h
  | gone s =>
    cases op <;> simp only [step, hs] <;> exact h
  | live s =>
    cases op with
    | start k conn => simpa only [step, hs] using h
    | send plaintext => simpa only [step, hs] using h.set_ne _ (Ne.symm he)
    | finish => simpa only [step, hs] using h.set_ne _ (Ne.symm he)
    | recv size => simpa only [step, hs] using h.afterRecv_ne (Ne.symm he) hC _

/-- **A run and the run of one object agree on what that object sees.** -/
theorem run_alone {es : List Event} (h : Machine.Meets (step P o) OwnBuffer {} es) (obj : ℕ) :
    (run P o es).2.filter (·.obj = obj) = (run P o (es.filter (·.obj = obj))).2 := by
  refine (Machine.run_filter (R := LikeAt obj) ?_ ?_ (LikeAt.initial obj) h).2
  · intro p t e hR hC he
    have hobj : e.obj = obj := by simpa using he
    obtain ⟨hlike, hout⟩ := hR.step_self (P := P) (o := o) hC hobj
    refine ⟨hlike, ?_⟩
    rw [← hout, List.filter_eq_self]
    intro r hr
    simpa using (step_obj p e r hr).trans hobj
  · intro p t e hR hC he
    have hobj : e.obj ≠ obj := by simpa using he
    refine ⟨hR.step_other hC hobj, ?_⟩
    rw [List.filter_eq_nil_iff]
    intro r hr
    simpa [step_obj p e r hr] using hobj

/-! ### Where the returned bytes come from -/

/-- What the buffer still holds for an object. -/
def pending (p : Process) (obj : ℕ) : Bytes :=
  if p.owner = some obj then p.buf.unread else []

/-- The plaintext of the packets that a session has accepted. -/
def plaintexts (s : Session) : Bytes := s.hist.accepted.flatMap (·.plaintext)

/-- Every packet that a session has accepted verified under its authentication key. -/
def AllVerified (P : Primitives) (o : ByteOrder) (s : Session) : Prop :=
  ∀ a ∈ s.hist.accepted, a.packet.Verified P o s.crypto.authKey

theorem AllVerified.of_eq {P : Primitives} {o : ByteOrder} {s s' : Session}
    (h : AllVerified P o s) (hkey : s'.crypto.authKey = s.crypto.authKey)
    (hacc : s'.hist.accepted = s.hist.accepted) : AllVerified P o s' := by
  intro a ha
  rw [hacc] at ha
  rw [hkey]
  exact h a ha

/-- What an object returned, followed by what the buffer still holds for it, is the plaintext of
the packets it accepted. -/
def Sound (P : Primitives) (o : ByteOrder) (obj : ℕ) (p : Process) (out : List Return) : Prop :=
  match p.session? obj with
  | none => returned obj out ++ p.pending obj = []
  | some s => returned obj out ++ p.pending obj = plaintexts s ∧ AllVerified P o s

theorem returned_append (obj : ℕ) (out new : List Return) :
    returned obj (out ++ new) = returned obj out ++ returned obj new := by
  simp [returned]

theorem returned_ne {obj : ℕ} {out : List Return} (h : ∀ r ∈ out, r.obj ≠ obj) :
    returned obj out = [] := by
  have hnil : out.filter (·.obj = obj) = [] := by
    rw [List.filter_eq_nil_iff]
    intro r hr
    simpa using h r hr
  rw [returned, hnil, List.flatMap_nil]

theorem returned_single (obj : ℕ) (r : Except Ex Bytes) :
    returned obj [⟨obj, r⟩] = returnedBytes r := by
  simp [returned]

/-- **A call of `recv` loses and invents nothing**: if what was returned before and what was
unread made up the plaintext of the accepted packets, they do so after the call. -/
theorem recv_conserves (size : ℕ) {e : Endpoint} {done : Bytes}
    (hd : done ++ e.buf.unread = plaintexts e.session) (hv : AllVerified P o e.session) :
    done ++ returnedBytes (Exec.outcome ((Crypto.recv P o size).run e))
        ++ (Exec.endState ((Crypto.recv P o size).run e)).buf.unread
      = plaintexts (Exec.endState ((Crypto.recv P o size).run e)).session ∧
    AllVerified P o (Exec.endState ((Crypto.recv P o size).run e)).session := by
  have hends := Crypto.recv_cases P o size e
  generalize (Crypto.recv P o size).run e = r at hends ⊢
  -- an accepted packet starts from an empty buffer
  have hempty : e.buf.remaining = 0 → done = plaintexts e.session := by
    intro hb
    rwa [RecvBuffer.unread_of_empty hb, List.append_nil] at hd
  have hall : ∀ {p : Packet} {rest : Bytes}, Crypto.Expected P o e.session.crypto.authKey
      e.session.crypto.sequenceNumberI p →
      AllVerified P o (Crypto.accept P o e p rest).session := by
    intro p rest he a ha
    rcases List.mem_append.mp ha with ha | ha
    · exact hv a ha
    · rw [List.mem_singleton.mp ha]
      exact he.verified
  cases hends with
  | unread hb =>
    refine ⟨?_, hv⟩
    simp only [returnedBytes, Exec.outcome_ok, Exec.endState_ok, RecvBuffer.unread_advance,
      List.append_assoc, List.take_append_drop]
    exact hd
  | @rejected hb x s hx =>
    have hheld := Crypto.receivePacket_held.of_error hx
    simp only [Crypto.held, Prod.mk.injEq] at hheld
    obtain ⟨-, -, hkey, -, -, hacc, -, -⟩ := hheld
    refine ⟨?_, ?_⟩
    · simp only [returnedBytes, Exec.outcome_error, Exec.endState_error, List.append_nil,
        plaintexts, hacc]
      exact hd
    · exact hv.of_eq hkey hacc
  | accepted hb he hin hseq =>
    refine ⟨?_, hall he⟩
    simp only [returnedBytes, Exec.outcome_ok, Exec.endState_ok, RecvBuffer.unread_advance,
      Crypto.accept, RecvBuffer.unread_fill, List.append_assoc, List.take_append_drop, hempty hb,
      plaintexts, List.flatMap_append, List.flatMap_cons, List.flatMap_nil, List.append_nil]
  | wrapped hb he hin hseq =>
    refine ⟨?_, hall he⟩
    simp only [returnedBytes, Exec.outcome_error, Exec.endState_error, Crypto.accept,
      RecvBuffer.unread_fill, List.append_nil, hempty hb, plaintexts, List.flatMap_append,
      List.flatMap_cons, List.flatMap_nil]

/-- An event that gives the object nothing and changes neither its session nor its bytes. -/
theorem Sound.of_eq {obj : ℕ} {p q : Process} {out new : List Return} (h : Sound P o obj p out)
    (hs : q.session? obj = p.session? obj) (hp : q.pending obj = p.pending obj)
    (hr : returned obj new = []) : Sound P o obj q (out ++ new) := by
  unfold Sound at h ⊢
  rwa [hs, hp, returned_append, hr, List.append_nil]

/-- An event on another object leaves the bytes of this one where they are. -/
theorem Sound.step_other {obj : ℕ} {p : Process} {out : List Return} (h : Sound P o obj p out)
    {e : Event} (hC : p.OwnBuffer e) (he : e.obj ≠ obj) :
    Sound P o obj (step P o p e).1 (out ++ (step P o p e).2) := by
  have hr : returned obj (step P o p e).2 = [] :=
    returned_ne fun r hr => by rw [step_obj p e r hr]; exact he
  obtain ⟨i, op⟩ := e
  simp only at he
  have hset : ∀ slot, (p.set i slot).session? obj = p.session? obj := fun slot => by
    simp only [session?, p.set_slots_ne slot (Ne.symm he)]
  refine h.of_eq ?_ ?_ hr
  · unfold step
    split
    case h_3 => simp only [session?, p.afterRecv_slots_ne _ (Ne.symm he)]
    case h_5 => rfl
    all_goals exact hset _
  · unfold step
    split
    case h_3 size s hop hslot =>
      simp only at hop
      subst hop
      have hne : ¬ some i = some obj := fun heq => he (Option.some.inj heq)
      rw [pending, if_neg (by rw [afterRecv_owner hC]; exact hne), pending]
      split
      · rename_i ho
        have hb : p.buf.remaining = 0 := hC.resolve_right (by rw [ho]; exact Ne.symm hne)
        exact (RecvBuffer.unread_of_empty hb).symm
      · rfl
    all_goals rfl

/-- An event on the object itself. -/
theorem Sound.step_self {p : Process} {out : List Return} {e : Event}
    (h : Sound P o e.obj p out) (hC : p.OwnBuffer e) :
    Sound P o e.obj (step P o p e).1 (out ++ (step P o p e).2) := by
  obtain ⟨i, op⟩ := e
  have hrest : ∀ q : Process, q = p → Sound P o i q (out ++ []) := by
    rintro q rfl
    exact h.of_eq rfl rfl rfl
  unfold Sound session? at h
  cases hs : p.slots i with
  | unborn =>
    rw [hs] at h
    cases op <;> simp only [step, hs]
    case start k conn =>
      unfold Sound session?
      rw [set_slots_self, List.append_nil]
      exact ⟨h, fun a ha => absurd ha List.not_mem_nil⟩
    all_goals exact hrest p rfl
  | gone s =>
    cases op <;> simp only [step, hs] <;> exact hrest p rfl
  | live s =>
    rw [hs] at h
    obtain ⟨hd, hv⟩ := h
    cases op with
    | start k conn =>
      simp only [step, hs]
      exact hrest p rfl
    | finish =>
      simp only [step, hs]
      unfold Sound session?
      rw [set_slots_self, List.append_nil]
      exact ⟨hd, hv⟩
    | send plaintext =>
      obtain ⟨c, -, hend⟩ := Crypto.send_cases P o plaintext s
      simp only [step, hs]
      unfold Sound session?
      rw [set_slots_self, List.append_nil, hend]
      exact ⟨hd, hv⟩
    | recv size =>
      have hpend : p.pending i = p.buf.unread := by
        unfold pending
        split
        · rfl
        · rename_i ho
          exact (RecvBuffer.unread_of_empty (hC.resolve_right ho)).symm
      have hafter : ∀ e, (p.afterRecv i e).pending i = e.buf.unread := fun e => by
        rw [pending, if_pos (afterRecv_owner hC e), afterRecv_buf]
      rw [hpend] at hd
      have hcons := recv_conserves (P := P) (o := o) size (e := ⟨s, p.buf⟩) hd hv
      simp only [step, hs]
      unfold Sound session?
      rw [afterRecv_slots_self, returned_append, returned_single, hafter]
      exact hcons

/-- **The bytes of an object are plaintext of its own packets**, in every state of a run. -/
theorem sound_run {es : List Event} (h : Machine.Meets (step P o) OwnBuffer {} es) (obj : ℕ) :
    Sound P o obj (run P o es).1 (run P o es).2 := by
  have hinit : Sound P o obj {} [] := rfl
  refine Machine.invariant_trace ?_ hinit h
  intro p out e hJ hC
  by_cases he : e.obj = obj
  · subst he
    exact hJ.step_self hC
  · exact hJ.step_other hC he

end Process

/-! ### Isolation -/

/-- **Isolation.**  In every run in which each `recv` finds the buffer empty or filled by its own
object, the calls on an object return what they return when the events of the other objects are
left out; and the bytes they return are a prefix of the plaintext of packets that the object
accepted, each verified under the object's own authentication key. -/
theorem isolation (P : Primitives) (o : ByteOrder) (es : List Event)
    (h : Machine.Meets (Process.step P o) Process.OwnBuffer {} es) (obj : ℕ) :
    (Process.run P o es).2.filter (·.obj = obj)
        = (Process.run P o (es.filter (·.obj = obj))).2 ∧
      match (Process.run P o es).1.session? obj with
      | none => Process.returned obj (Process.run P o es).2 = []
      | some s =>
          Process.returned obj (Process.run P o es).2 <+: s.hist.accepted.flatMap (·.plaintext) ∧
            ∀ a ∈ s.hist.accepted, a.packet.Verified P o s.crypto.authKey := by
  refine ⟨Process.run_alone h obj, ?_⟩
  have hsound := Process.sound_run h obj
  unfold Process.Sound at hsound
  cases hs : (Process.run P o es).1.session? obj with
  | none =>
    rw [hs] at hsound
    exact (List.append_eq_nil_iff.mp hsound).1
  | some s =>
    rw [hs] at hsound
    exact ⟨⟨_, hsound.1⟩, hsound.2⟩

/-- One session receives a packet of two bytes, reads the first one and ends; then another
session begins and reads a byte. -/
def leftoverRun : List Event :=
  [⟨0, .start (.sample 1) { incoming := (Crypto.packetOf .sample .little
      (Crypto.new (.sample 1)) [7, 9]).wire }⟩,
    ⟨0, .recv 1⟩, ⟨0, .finish⟩, ⟨1, .start (.sample 2) {}⟩, ⟨1, .recv 1⟩]

/-- The second session returns the byte that the first one left behind, although it accepted no
packet; alone it would have thrown. -/
theorem unread_bytes_cross :
    (Process.run .sample .little leftoverRun).2.filter (·.obj = 1)
        ≠ (Process.run .sample .little (leftoverRun.filter (·.obj = 1))).2 ∧
      Process.returned 1 (Process.run .sample .little leftoverRun).2 = [9] ∧
      ((Process.run .sample .little leftoverRun).1.session? 1).map (·.hist.accepted)
        = some [] := by
  decide +kernel

/-- The same sessions, the first one reading its packet to the end. -/
def drainedRun : List Event :=
  [⟨0, .start (.sample 1) { incoming := (Crypto.packetOf .sample .little
      (Crypto.new (.sample 1)) [7, 9]).wire }⟩,
    ⟨1, .start (.sample 2) { incoming := (Crypto.packetOf .sample .little
      (Crypto.new (.sample 2)) [5]).wire }⟩,
    ⟨0, .recv 1⟩, ⟨0, .recv 1⟩, ⟨0, .finish⟩, ⟨1, .recv 8⟩]

theorem isolation_drained :
    Process.returned 1 (Process.run .sample .little drainedRun).2 = [5] ∧
      (Process.run .sample .little drainedRun).2.filter (·.obj = 1)
        = (Process.run .sample .little (drainedRun.filter (·.obj = 1))).2 :=
  ⟨by decide +kernel, (isolation .sample .little drainedRun (by decide +kernel) 1).1⟩

end Cybrg
