import Cybrg.Handshake.ServerSide
import Cybrg.Library.Machine
import Mathlib.Logic.Function.Basic

/-!
# Many handshakes and a network attacker

Any number of client runs and any number of server runs, with everything they read chosen by the
attacker.  A run takes part in two steps: a client sends its first message and later reads the
second one; a server answers a first message and later reads the third one.  Between two
steps of a run anything may happen elsewhere.

* `Setup` — who the runs are; `World.step` — the steps;
* `Setup.Trusted` — what is assumed of certificates and envelopes: a certificate that a client
  accepts carries the server's key, and an envelope that opens gives back what was put in;
* `World.IdealSignatures` — what is assumed of signatures: a text was found signed under the key
  of the server or of an honest client only if its holder has signed it;
* `World.Honest` — the invariant: a server run has signed nothing but the text of its offer, and a
  client run nothing but the server's nonce of a second message that it has accepted.
-/

namespace Cybrg

open Octets

variable {C K S : Type}

/-! ### The world -/

/-- The honest parties. -/
structure Setup (C K S : Type) where
  ssl : Openssl C K S
  /-- Who the client run `i` acts for. -/
  client : ℕ → CertManager C S
  /-- The public key of that client. -/
  clientKey : ℕ → K
  server : CertManager C S
  serverKey : K

/-- How far a run has come. -/
inductive Stage (α : Type) where
  | idle
  | waiting (a : α)
  | returned (a : α) (keys : Keys)
  | stopped
  deriving DecidableEq

structure ClientRun (C K : Type) where
  stage : Stage Nonce := .idle
  party : ClientMain.Run C K := {}

structure ServerRun (C K : Type) where
  stage : Stage (ServerClient.Offer C K) := .idle
  party : ServerClient.Run C K := {}

structure World (C K : Type) where
  clients : ℕ → ClientRun C K := fun _ => {}
  servers : ℕ → ServerRun C K := fun _ => {}

namespace World

/-- A step of a run.  `bs` is what the attacker lets it read, `mem` what lies in memory that it
reads and did not write, `sendRets` what its socket calls return. -/
inductive Event where
  | sendM1 (i : ℕ) (coins : ClientMain.Coins) (sendRets : List ℤ)
  | offer (j : ℕ) (bs : Bytes) (mem : Memory) (coins : ServerClient.Coins) (sendRets : List ℤ)
  | finish (i : ℕ) (bs : Bytes) (mem : Memory) (coins : ClientMain.Coins)
  | recvM3 (j : ℕ) (bs : Bytes) (mem : Memory)

/-- Where a run is after a program that ended in `r`. -/
def stageOf {α β σ : Type} (next : β → Stage α) : EStateM.Result Ex σ β → Stage α
  | .ok b _ => next b
  | .error _ _ => .stopped

def setClient (w : World C K) (i : ℕ) (r : ClientRun C K) : World C K :=
  { w with clients := Function.update w.clients i r }

def setServer (w : World C K) (j : ℕ) (r : ServerRun C K) : World C K :=
  { w with servers := Function.update w.servers j r }

@[simp] theorem setClient_self (w : World C K) (i : ℕ) (r : ClientRun C K) :
    (w.setClient i r).clients i = r := by
  simp [setClient]

@[simp] theorem setServer_self (w : World C K) (j : ℕ) (r : ServerRun C K) :
    (w.setServer j r).servers j = r := by
  simp [setServer]

theorem setClient_ne (w : World C K) {i k : ℕ} (r : ClientRun C K) (h : k ≠ i) :
    (w.setClient i r).clients k = w.clients k := by
  simp [setClient, h]

theorem setServer_ne (w : World C K) {j k : ℕ} (r : ServerRun C K) (h : k ≠ j) :
    (w.setServer j r).servers k = w.servers k := by
  simp [setServer, h]

variable (s : Setup C K S)

/-- One step; a run that is not where the step begins does nothing.  All there is to observe is in
the state. -/
def step (w : World C K) : Event → World C K × List Empty
  | .sendM1 i coins sendRets =>
      match (w.clients i).stage with
      | .idle =>
          let r := (ClientMain.sendM1 s.ssl (s.client i) coins).run { conn := { sendRets } }
          (w.setClient i ⟨stageOf .waiting r, Exec.endState r⟩, [])
      | _ => (w, [])
  | .offer j bs mem coins sendRets =>
      match (w.servers j).stage with
      | .idle =>
          let r := (ServerClient.offer s.ssl s.server mem coins).run
            { conn := { incoming := bs, sendRets } }
          (w.setServer j ⟨stageOf .waiting r, Exec.endState r⟩, [])
      | _ => (w, [])
  | .finish i bs mem coins =>
      match (w.clients i).stage with
      | .waiting nonceClient =>
          let r := (ClientMain.finish s.ssl (s.client i) mem coins nonceClient).run
            ((w.clients i).party.deliver bs)
          (w.setClient i ⟨stageOf (.returned nonceClient) r, Exec.endState r⟩, [])
      | _ => (w, [])
  | .recvM3 j bs mem =>
      match (w.servers j).stage with
      | .waiting f =>
          let r := (ServerClient.recvM3 s.ssl mem f).run ((w.servers j).party.deliver bs)
          (w.setServer j ⟨stageOf (.returned f) r, Exec.endState r⟩, [])
      | _ => (w, [])

/-- A run of the world, from the beginning. -/
abbrev run (es : List Event) : World C K := (Machine.run (step s) {} es).1

end World

/-! ### Assumptions -/

/-- What is assumed of certificates and envelopes. -/
structure Setup.Trusted (s : Setup C K S) : Prop where
  /-- A certificate that a client accepts as the server's carries the server's key. -/
  serverCert : ∀ i cert key, (s.client i).verifyCert cert = .ok () →
    s.ssl.x509GetPubkey cert = some key → key = s.serverKey
  /-- Opening an envelope with its encrypted key, its payload and its vector gives back the text
  that was sealed, if it gives anything. -/
  opens : ∀ coins key text e privKey plaintext, s.ssl.evpSeal coins key text = some e →
    s.ssl.evpOpen privKey e.ek e.payload e.iv = some plaintext → plaintext = text

namespace World

/-- A key and a text that were found to belong together: if the key is the server's or an honest
client's, then a run of its holder has signed the text. -/
def Signed (s : Setup C K S) (w : World C K) (x : K × Bytes) : Prop :=
  (x.1 = s.serverKey → ∃ j, x.2 ∈ (w.servers j).party.signed) ∧
    ((∃ a, x.1 = s.clientKey a) → ∃ i, s.clientKey i = x.1 ∧ x.2 ∈ (w.clients i).party.signed)

/-- **Ideal signatures.** -/
def IdealSignatures (s : Setup C K S) (w : World C K) : Prop :=
  (∀ i, ∀ x ∈ (w.clients i).party.verified, w.Signed s x) ∧
    ∀ j, ∀ x ∈ (w.servers j).party.verified, w.Signed s x

variable {s : Setup C K S}

theorem IdealSignatures.initial : IdealSignatures s {} := by
  constructor
  · intro _ x hx
    cases hx
  · intro _ x hx
    cases hx

/-! ### What honest runs sign -/

/-- A server run has signed nothing but the text of its offer, and returns the keys of its offer
only. -/
structure HonestServer (s : Setup C K S) (r : ServerRun C K) : Prop where
  idle : r.stage = .idle → r.party.record = ([], [], none)
  waiting : ∀ f, r.stage = .waiting f → r.party.view = some f
  returned : ∀ f keys, r.stage = .returned f keys → r.party.view = some f ∧ f.keys = keys ∧
    (f.clientPublicKey, f.nonceServer.toList) ∈ r.party.verified
  signed : ∀ text ∈ r.party.signed, ∃ f, r.party.view = some f ∧ f.text = text
  made : ∀ f, r.party.view = some f → ServerClient.Made s.ssl s.server f

/-- A client run has signed nothing but the server's nonce of a second message that it has
accepted, and returns the keys of that message only. -/
structure HonestClient (s : Setup C K S) (i : ℕ) (r : ClientRun C K) : Prop where
  idle : r.stage = .idle → r.party.record = ([], [], none)
  waiting : ∀ n, r.stage = .waiting n → r.party.record = ([], [], none)
  returned : ∀ n keys, r.stage = .returned n keys →
    ∃ v, r.party.view = some v ∧ v.nonceClient = n ∧ v.keys = keys
  signed : ∀ text ∈ r.party.signed, ∃ v, r.party.view = some v ∧ v.m2.nonceServer.toList = text
  accepted : ∀ v, r.party.view = some v → ∃ key mem,
    ClientMain.Checked s.ssl (s.client i) v.m2 v.nonceClient key ∧
      ClientMain.Opened s.ssl (s.client i) mem v.m2 v.keys ∧
      (key, v.m2.text v.nonceClient) ∈ r.party.verified

/-- All runs are honest. -/
structure Honest (s : Setup C K S) (w : World C K) : Prop where
  servers : ∀ j, HonestServer s (w.servers j)
  clients : ∀ i, HonestClient s i (w.clients i)

/-- A server run with an empty record is honest. -/
theorem HonestServer.of_empty {r : ServerRun C K} (h : r.party.record = ([], [], none))
    (hwait : ∀ f, r.stage ≠ .waiting f) (hret : ∀ a keys, r.stage ≠ .returned a keys) :
    HonestServer s r := by
  have hparts := h
  simp only [Party.record, Prod.mk.injEq] at hparts
  obtain ⟨-, hsigned, hview⟩ := hparts
  refine ⟨fun _ => h, fun f hf => absurd hf (hwait f), fun a k hk => absurd hk (hret a k), ?_, ?_⟩
  · intro text ht
    rw [hsigned] at ht
    cases ht
  · intro f hf
    rw [hview] at hf
    cases hf

/-- A server run that has made its offer is honest. -/
theorem HonestServer.of_offer {r : ServerRun C K} {f : ServerClient.Offer C K}
    (hm : ServerClient.Made s.ssl s.server f) (h : r.party.record = ([], [f.text], some f))
    (hidle : r.stage ≠ .idle) (hwait : ∀ g, r.stage = .waiting g → g = f)
    (hret : ∀ a keys, r.stage ≠ .returned a keys) : HonestServer s r := by
  simp only [Party.record, Prod.mk.injEq] at h
  obtain ⟨-, hsigned, hview⟩ := h
  refine ⟨fun hs => absurd hs hidle, ?_, fun a k hk => absurd hk (hret a k), ?_, ?_⟩
  · intro g hg
    rw [hview, hwait g hg]
  · intro text ht
    rw [hsigned, List.mem_singleton] at ht
    exact ⟨f, hview, ht.symm⟩
  · intro g hg
    rw [hview] at hg
    cases hg
    exact hm

/-- A server run that goes on with its offer and signs nothing more stays honest. -/
theorem HonestServer.confirmed {r r' : ServerRun C K} {f : ServerClient.Offer C K}
    (h : HonestServer s r) (hf : r.stage = .waiting f) (hsigned : r'.party.signed = r.party.signed)
    (hview : r'.party.view = r.party.view) (hidle : r'.stage ≠ .idle)
    (hwait : ∀ g, r'.stage ≠ .waiting g)
    (hret : ∀ g keys, r'.stage = .returned g keys → g = f ∧ f.keys = keys ∧
      (f.clientPublicKey, f.nonceServer.toList) ∈ r'.party.verified) : HonestServer s r' := by
  refine ⟨fun hs => absurd hs hidle, fun g hg => absurd hg (hwait g), ?_, ?_, ?_⟩
  · intro g keys hk
    obtain ⟨rfl, hkeys, hver⟩ := hret g keys hk
    exact ⟨hview.trans (h.waiting g hf), hkeys, hver⟩
  · intro text ht
    rw [hview]
    exact h.signed text (hsigned ▸ ht)
  · intro g hg
    exact h.made g (hview.symm.trans hg)

/-- A client run that has accepted nothing is honest. -/
theorem HonestClient.of_unsettled {i : ℕ} {r : ClientRun C K} {verified : List (K × Bytes)}
    (h : r.party.record = (verified, [], none))
    (hidle : r.stage = .idle → verified = []) (hwait : ∀ n, r.stage = .waiting n → verified = [])
    (hret : ∀ a keys, r.stage ≠ .returned a keys) : HonestClient s i r := by
  have hparts := h
  simp only [Party.record, Prod.mk.injEq] at hparts
  obtain ⟨-, hsigned, hview⟩ := hparts
  refine ⟨?_, ?_, fun a k hk => absurd hk (hret a k), ?_, ?_⟩
  · intro hs
    rw [h, hidle hs]
  · intro n hs
    rw [h, hwait n hs]
  · intro text ht
    rw [hsigned] at ht
    cases ht
  · intro v hv
    rw [hview] at hv
    cases hv

/-- `offer` leaves an honest run behind. -/
theorem HonestServer.offer (mem : Memory) (coins : ServerClient.Coins) (conn : Connection) :
    HonestServer s
      ⟨stageOf .waiting ((ServerClient.offer s.ssl s.server mem coins).run { conn := conn }),
        Exec.endState ((ServerClient.offer s.ssl s.server mem coins).run { conn := conn })⟩ := by
  have hends : ServerClient.OfferEnds s.ssl s.server _ _ :=
    ServerClient.offer_ends mem coins { conn := conn }
  revert hends
  generalize (ServerClient.offer s.ssl s.server mem coins).run { conn := conn } = r
  intro hends
  cases hends with
  | early h => exact .of_empty h (fun f hf => by cases hf) (fun _ k hk => by cases hk)
  | unsent hm h =>
    exact .of_offer hm h (fun hs => by cases hs) (fun g hg => by cases hg)
      (fun _ k hk => by cases hk)
  | done hm h =>
    exact .of_offer hm h (fun hs => by cases hs) (fun g hg => by cases hg; rfl)
      (fun _ k hk => by cases hk)

/-- `recvM3` leaves an honest run behind. -/
theorem HonestServer.recvM3 {r : ServerRun C K} {f : ServerClient.Offer C K}
    (h : HonestServer s r) (hf : r.stage = .waiting f) (mem : Memory) (bs : Bytes) :
    HonestServer s
      ⟨stageOf (.returned f) ((ServerClient.recvM3 s.ssl mem f).run (r.party.deliver bs)),
        Exec.endState ((ServerClient.recvM3 s.ssl mem f).run (r.party.deliver bs))⟩ := by
  rcases @ServerClient.recvM3_ends C K S s.ssl mem f (r.party.deliver bs) with
    ⟨e, p', hrun, hrec⟩ | ⟨p', signature, hrun, -, hrec⟩
  · rw [hrun]
    simp only [Party.record, Prod.mk.injEq] at hrec
    obtain ⟨-, hsigned, hvw⟩ := hrec
    exact h.confirmed hf hsigned hvw (fun hs => by cases hs) (fun g hg => by cases hg)
      (fun _ keys hk => by cases hk)
  · rw [hrun]
    simp only [Party.record, Prod.mk.injEq] at hrec
    obtain ⟨hverified, hsigned, hvw⟩ := hrec
    refine h.confirmed hf hsigned hvw (fun hs => by cases hs) (fun g hg => by cases hg) ?_
    intro g keys hk
    cases hk
    exact ⟨rfl, rfl, by simp [hverified]⟩

/-- `sendM1` leaves the record empty. -/
theorem sendM1_record (i : ℕ) (coins : ClientMain.Coins) :
    Exec.Leaves Party.record
      (ClientMain.sendM1 s.ssl (s.client i) coins) := by
  apply Exec.Leaves.bind (.ofExcept _)
  intro _
  apply Exec.Leaves.bind (Party.onConn_record _)
  intro _
  apply Exec.Leaves.bind (.ofExcept _)
  intro _
  exact .bind (Party.onConn_record _) fun _ => .pure _

/-- `sendM1` leaves an honest run behind. -/
theorem HonestClient.sendM1 (i : ℕ) (coins : ClientMain.Coins) (conn : Connection) :
    HonestClient s i
      ⟨stageOf .waiting ((ClientMain.sendM1 s.ssl (s.client i) coins).run { conn := conn }),
        Exec.endState
          ((ClientMain.sendM1 s.ssl (s.client i) coins).run { conn := conn })⟩ := by
  refine .of_unsettled (sendM1_record i coins { conn := conn }) (fun _ => rfl) (fun _ _ => rfl) ?_
  intro _ keys hk
  revert hk
  cases (ClientMain.sendM1 s.ssl (s.client i) coins).run { conn := conn } <;> intro hk <;> cases hk

/-- A client run that has accepted a second message is honest, whether or not it has signed the
server's nonce. -/
theorem HonestClient.of_accepted {i : ℕ} {r : ClientRun C K} {n : Nonce} {m : ClientMain.M2 C}
    {key : K} {keys : Keys} {mem : Memory} {signed : List Bytes}
    (hc : ClientMain.Checked s.ssl (s.client i) m n key)
    (ho : ClientMain.Opened s.ssl (s.client i) mem m keys)
    (h : r.party.record = ([(key, m.text n)], signed, some ⟨n, m, keys⟩))
    (hsigned : ∀ text ∈ signed, m.nonceServer.toList = text) (hidle : r.stage ≠ .idle)
    (hwait : ∀ n, r.stage ≠ .waiting n)
    (hret : ∀ n' k, r.stage = .returned n' k → n = n' ∧ keys = k) :
    HonestClient s i r := by
  simp only [Party.record, Prod.mk.injEq] at h
  obtain ⟨hver, hsig, hview⟩ := h
  refine ⟨fun hs => absurd hs hidle, fun n' hn => absurd hn (hwait n'), ?_, ?_, ?_⟩
  · intro n' k hk
    exact ⟨_, hview, hret n' k hk⟩
  · intro text ht
    rw [hsig] at ht
    exact ⟨_, hview, hsigned text ht⟩
  · intro v hv
    rw [hview] at hv
    cases hv
    exact ⟨key, mem, hc, ho, by simp [hver]⟩

/-- `finish` leaves an honest run behind. -/
theorem HonestClient.finish {i : ℕ} {r : ClientRun C K} {n : Nonce} (h : HonestClient s i r)
    (hn : r.stage = .waiting n) (mem : Memory) (coins : ClientMain.Coins) (bs : Bytes) :
    HonestClient s i
      ⟨stageOf (.returned n)
          ((ClientMain.finish s.ssl (s.client i) mem coins n).run (r.party.deliver bs)),
        Exec.endState
          ((ClientMain.finish s.ssl (s.client i) mem coins n).run (r.party.deliver bs))⟩ := by
  have hends : ClientMain.FinishEnds s.ssl (s.client i) mem n (r.party.deliver bs) _ :=
    ClientMain.finish_ends mem coins n (r.party.deliver bs)
  have hrec : (r.party.deliver bs).record = ([], [], none) := h.waiting n hn
  simp only [Party.record, Prod.mk.injEq] at hrec
  obtain ⟨hver, hsig, hview⟩ := hrec
  revert hends
  generalize (ClientMain.finish s.ssl (s.client i) mem coins n).run (r.party.deliver bs) = e
  intro hends
  cases hends with
  | early hr =>
    refine .of_unsettled (hr.trans ?_) (fun _ => rfl) (fun _ _ => rfl)
      (fun _ keys hk => by cases hk)
    rw [Party.record, hver, hsig, hview]
  | unopened hc hr =>
    rw [hver, hsig, hview] at hr
    exact .of_unsettled hr (fun hs => by cases hs) (fun _ hs => by cases hs)
      (fun _ keys hk => by cases hk)
  | unsigned hm hc ho hr =>
    rw [hver, hsig] at hr
    exact .of_accepted hc ho hr (fun text ht => by cases ht) (fun hs => by cases hs)
      (fun _ hs => by cases hs) (fun _ k hk => by cases hk)
  | unsent hm hc ho hr =>
    rw [hver, hsig] at hr
    exact .of_accepted hc ho hr (fun text ht => (List.mem_singleton.mp ht).symm)
      (fun hs => by cases hs) (fun _ hs => by cases hs) (fun _ k hk => by cases hk)
  | done hm hc ho hr =>
    rw [hver, hsig] at hr
    exact .of_accepted hc ho hr (fun text ht => (List.mem_singleton.mp ht).symm)
      (fun hs => by cases hs) (fun _ hs => by cases hs)
      (fun _ k hk => by cases hk; exact ⟨rfl, rfl⟩)

/-! ### The invariant -/

theorem Honest.initial : Honest s {} :=
  ⟨fun _ => .of_empty rfl (fun f hf => by cases hf) (fun _ k hk => by cases hk),
    fun _ => .of_unsettled rfl (fun _ => rfl) (fun _ _ => rfl) (fun _ k hk => by cases hk)⟩

theorem Honest.setClient {w : World C K} (h : Honest s w) {i : ℕ} {r : ClientRun C K}
    (hr : HonestClient s i r) : Honest s (w.setClient i r) := by
  refine ⟨h.servers, fun k => ?_⟩
  by_cases hk : k = i
  · subst hk
    rw [setClient_self]
    exact hr
  · rw [setClient_ne w r hk]
    exact h.clients k

theorem Honest.setServer {w : World C K} (h : Honest s w) {j : ℕ} {r : ServerRun C K}
    (hr : HonestServer s r) : Honest s (w.setServer j r) := by
  refine ⟨fun k => ?_, h.clients⟩
  by_cases hk : k = j
  · subst hk
    rw [setServer_self]
    exact hr
  · rw [setServer_ne w r hk]
    exact h.servers k

/-- **Every step keeps the runs honest.** -/
theorem Honest.step {w : World C K} (h : Honest s w) (e : Event) : Honest s (step s w e).1 := by
  cases e with
  | sendM1 i coins sendRets =>
    simp only [World.step]
    split
    · exact h.setClient (.sendM1 i coins _)
    · exact h
  | offer j bs mem coins sendRets =>
    simp only [World.step]
    split
    · exact h.setServer (.offer mem coins _)
    · exact h
  | finish i bs mem coins =>
    simp only [World.step]
    split
    · rename_i n hn
      exact h.setClient ((h.clients i).finish hn mem coins bs)
    · exact h
  | recvM3 j bs mem =>
    simp only [World.step]
    split
    · rename_i f hf
      exact h.setServer ((h.servers j).recvM3 hf mem bs)
    · exact h

/-- **All runs of the world are honest.** -/
theorem honest_run (es : List Event) : Honest s (run s es) :=
  Machine.invariant_run (C := fun _ _ => True) (fun _ e h _ => h.step e) Honest.initial
    (Machine.meets_true es)

/-! ### A small instance -/

end World

/-- An OpenSSL in which certificates and keys are single bytes, a signature shows the key and the
text, and an envelope shows the key that opens it. -/
def Openssl.plain : Openssl Byte Byte Byte where
  d2iX509 buffer := buffer.head?
  i2dX509 cert := some [cert]
  x509GetPubkey cert := some cert
  ctxNew := true
  evpVerifyInit := 1
  evpVerifyUpdate := 1
  evpVerifyFinal key text signature := if signature = key :: text then 1 else 0
  evpSign _ privKey text := some (privKey :: text)
  evpSeal _ key text :=
    if h : text.length < 2 ^ 31 then
      some ⟨[key], text, .replicate 16 5, by simp, h⟩
    else none
  evpOpen privKey ek payload _ := if ek = [privKey] then some payload else none

/-- One client with key 1, which acts in every client run, and a server with key 7. -/
def Setup.plain : Setup Byte Byte Byte where
  ssl := .plain
  client _ := ⟨1, 1, fun cert => if cert = 7 then .ok () else .error (.exCertificate "")⟩
  clientKey _ := 1
  server := ⟨7, 7, fun cert => if cert = 1 then .ok () else .error (.exCertificate "")⟩
  serverKey := 7

theorem Setup.plain_trusted : Setup.plain.Trusted := by
  constructor
  · intro i cert key hcert hkey
    cases hkey
    by_contra hne
    rw [show (Setup.plain.client i).verifyCert cert = .error (.exCertificate "") from if_neg hne]
      at hcert
    cases hcert
  · intro coins key text e privKey plaintext he ho
    simp only [Setup.plain, Openssl.plain] at he ho
    split at he
    · cases he
      split at ho
      · exact (Option.some.inj ho).symm
      · cases ho
    · cases he

namespace World

/-- The run that a step belongs to. -/
def Event.index : Event → ℕ
  | .sendM1 i _ _ => i
  | .offer j _ _ _ _ => j
  | .finish i _ _ _ => i
  | .recvM3 j _ _ => j

/-- Runs from number `n` on have not begun. -/
def Quiet (n : ℕ) (w : World C K) : Prop := ∀ k, n ≤ k → w.clients k = {} ∧ w.servers k = {}

theorem Quiet.setClient {n : ℕ} {w : World C K} (h : Quiet n w) {i : ℕ} (hi : i < n)
    (r : ClientRun C K) : Quiet n (w.setClient i r) := by
  intro k hk
  rw [setClient_ne w r (by omega)]
  exact h k hk

theorem Quiet.setServer {n : ℕ} {w : World C K} (h : Quiet n w) {j : ℕ} (hj : j < n)
    (r : ServerRun C K) : Quiet n (w.setServer j r) := by
  intro k hk
  rw [setServer_ne w r (by omega)]
  exact h k hk

theorem Quiet.step {n : ℕ} {w : World C K} (h : Quiet n w) {e : Event} (he : e.index < n) :
    Quiet n (World.step s w e).1 := by
  cases e with
  | sendM1 i coins sendRets =>
    simp only [World.step]
    split
    · exact h.setClient he _
    · exact h
  | offer j bs mem coins sendRets =>
    simp only [World.step]
    split
    · exact h.setServer he _
    · exact h
  | finish i bs mem coins =>
    simp only [World.step]
    split
    · exact h.setClient he _
    · exact h
  | recvM3 j bs mem =>
    simp only [World.step]
    split
    · exact h.setServer he _
    · exact h

theorem quiet_run {n : ℕ} {es : List Event}
    (h : Machine.Meets (World.step s) (fun _ e => e.index < n) {} es) : Quiet n (run s es) :=
  Machine.invariant_run (fun _ _ hq he => hq.step he) (fun _ _ => ⟨rfl, rfl⟩) h

/-- A signer of a text is among the first `n` runs of the small instance. -/
def FoundBelow (n : ℕ) (w : World Byte Byte) (x : Byte × Bytes) : Prop :=
  (x.1 = 7 → ∃ j < n, x.2 ∈ (w.servers j).party.signed) ∧
    (x.1 = 1 → ∃ i < n, x.2 ∈ (w.clients i).party.signed)

instance (n : ℕ) (w : World Byte Byte) (x : Byte × Bytes) : Decidable (FoundBelow n w x) :=
  inferInstanceAs (Decidable ((x.1 = 7 → ∃ j < n, x.2 ∈ (w.servers j).party.signed) ∧
    (x.1 = 1 → ∃ i < n, x.2 ∈ (w.clients i).party.signed)))

/-- Ideal signatures of the small instance, looked up in the first `n` runs. -/
def IdealBelow (n : ℕ) (w : World Byte Byte) : Prop :=
  (∀ i < n, ∀ x ∈ (w.clients i).party.verified, FoundBelow n w x) ∧
    ∀ j < n, ∀ x ∈ (w.servers j).party.verified, FoundBelow n w x

instance (n : ℕ) (w : World Byte Byte) : Decidable (IdealBelow n w) :=
  inferInstanceAs (Decidable ((∀ i < n, ∀ x ∈ (w.clients i).party.verified, FoundBelow n w x) ∧
    ∀ j < n, ∀ x ∈ (w.servers j).party.verified, FoundBelow n w x))

theorem IdealBelow.ideal {n : ℕ} {w : World Byte Byte} (h : IdealBelow n w) (hq : Quiet n w) :
    IdealSignatures .plain w := by
  have hfound : ∀ x, FoundBelow n w x → Signed .plain w x := by
    intro x hpre
    obtain ⟨hserver, hclient⟩ := hpre
    constructor
    · intro hx
      obtain ⟨j, -, hj⟩ := hserver hx
      exact ⟨j, hj⟩
    · intro hpre
      obtain ⟨a, ha⟩ := hpre
      obtain ⟨i, -, hi⟩ := hclient ha
      exact ⟨i, ha.symm, hi⟩
  constructor
  · intro i x hx
    rcases Nat.lt_or_ge i n with hi | hi
    · exact hfound x (h.1 i hi x hx)
    · rw [(hq i hi).1] at hx
      cases hx
  · intro j x hx
    rcases Nat.lt_or_ge j n with hj | hj
    · exact hfound x (h.2 j hj x hx)
    · rw [(hq j hj).2] at hx
      cases hx

/-- Ideal signatures of a run of the small instance can be checked. -/
theorem meets_ideal {n : ℕ} {es : List Event}
    (h : Machine.Meets (step .plain)
      (fun w e => e.index < n ∧ IdealBelow n (step .plain w e).1) {} es) :
    Machine.Meets (step .plain) (fun w e => IdealSignatures .plain (step .plain w e).1) {} es := by
  refine Machine.meets_of_invariant (I := Quiet n) ?_ ?_ h
  · intro w e hq hpre
    obtain ⟨he, hb⟩ := hpre
    exact ⟨hq.step he, hb.ideal (hq.step he)⟩
  · exact fun _ _ => ⟨rfl, rfl⟩

/-! ### Messages of the small instance -/

/-- The client's choices. -/
def plainClientCoins : ClientMain.Coins := ⟨.ok (.replicate 4 3), 0⟩

/-- The server's choices; `b` tells server runs apart. -/
def plainServerCoins (b : Byte) : ServerClient.Coins :=
  ⟨.ok (.replicate 16 b), .ok (.replicate 32 b), .ok (.replicate 16 b), .ok (.replicate 4 b),
    0, 0, 0⟩

/-- The first message of the client. -/
def plainM1 : Bytes := frame [1] ++ frame [3, 3, 3, 3]

/-- A second message: keys, vectors and iv of the server run `b`, but for the vector of the second
seal, the iv and the server's nonce as they arrive. -/
def plainM2 (b : Byte) (vector iv nonceServer : Bytes) : Bytes :=
  let sl (len : ℕ) (vector : Bytes) : Bytes :=
    frame [1] ++ frame (List.replicate len b) ++ frame vector
  let sessionKeySeal := sl 16 (List.replicate 16 5)
  let authKeySeal := sl 32 (List.replicate 16 5)
  let text := sessionKeySeal ++ authKeySeal ++ List.replicate 16 b ++ [3, 3, 3, 3]
  frame [7] ++ frame sessionKeySeal ++ frame (sl 32 vector) ++ frame iv ++ frame (7 :: text)
    ++ frame nonceServer

end World

end Cybrg
