import Cybrg.Handshake.KeyAgreement

/-!
# What a server knows when its handshake returns

The third message is the server's nonce, signed by the client.  The nonce travels outside the
signed part of the second message, so a client signs whatever nonce the attacker puts there.

* `World.server_confirmation` — a client run has accepted a second message of some server run,
  and with it, as the server's nonce, the nonce of this one;
* `World.answers_other_run` — the two server runs may differ, and then the keys do.
-/

namespace Cybrg

open Octets

variable {C K S : Type}

namespace World

variable {s : Setup C K S} {w : World C K}

/-- A text that was found signed under an honest client's key is the server's nonce of a second
message that a run of this client has accepted. -/
theorem signed_by_client (hw : Honest s w) (hideal : IdealSignatures s w) {j a : ℕ} {key : K}
    {text : Bytes} (hv : (key, text) ∈ (w.servers j).party.verified) (ha : key = s.clientKey a) :
    ∃ i v, s.clientKey i = key ∧ (w.clients i).party.view = some v ∧
      v.m2.nonceServer.toList = text ∧ text ∈ (w.clients i).party.signed := by
  obtain ⟨i, hi, hsigned⟩ := (hideal.2 j _ hv).2 ⟨a, ha⟩
  obtain ⟨v, hview, htext⟩ := (hw.clients i).signed text hsigned
  exact ⟨i, v, hi, hview, htext, hsigned⟩

/-- **Server-side confirmation.**  When a server's handshake returns keys for the key of an honest
client, a run of this client has accepted a second message that some server run made for its
nonce, has read this run's nonce as the server's and has signed it.  If the message was well
sealed, the client holds the keys of the server run that made it. -/
theorem server_confirmation (ht : s.Trusted) {es : List Event}
    (hes : Machine.Meets (step s) (fun w e => IdealSignatures s (step s w e).1) {} es) {j a : ℕ}
    {f : ServerClient.Offer C K} {keys : Keys}
    (hret : ((run s es).servers j).stage = .returned f keys)
    (ha : f.clientPublicKey = s.clientKey a) :
    ∃ i v, s.clientKey i = f.clientPublicKey ∧ ((run s es).clients i).party.view = some v ∧
      v.m2.nonceServer = f.nonceServer ∧
      f.nonceServer.toList ∈ ((run s es).clients i).party.signed ∧
      ∃ j' f', ((run s es).servers j').party.view = some f' ∧ f'.text = v.m2.text v.nonceClient ∧
        (v.m2.WellSealed → f'.nonceClient = v.nonceClient ∧ f'.keys = v.keys) := by
  have hw := honest_run (s := s) es
  have hideal : IdealSignatures s (run s es) :=
    Machine.invariant_run (fun _ _ _ h => h) IdealSignatures.initial hes
  obtain ⟨-, -, hver⟩ := (hw.servers j).returned f keys hret
  obtain ⟨i, v, hi, hview, hnonce, hsigned⟩ := signed_by_client hw hideal hver ha
  obtain ⟨key, mem, hc, ho, hv⟩ := (hw.clients i).accepted v hview
  obtain ⟨j', f', hf', htext⟩ := accepted_signed ht hw hideal hc hv
  exact ⟨i, v, hi, hview, Subtype.ext hnonce, hsigned, j', f', hf', htext, fun hwell =>
    keys_eq_of_text ht hc ho ((hw.servers j').made f' hf') hwell htext⟩

/-- The third message of the client, for a server's nonce. -/
def plainM3 (nonceServer : Bytes) : Bytes := frame (1 :: nonceServer)

/-- `honestRun` with its third message. -/
def confirmedRun : List Event := honestRun ++ [.recvM3 0 (plainM3 [9, 9, 9, 9]) fun _ _ => 0]

/-- The offer of the server run `j` in a run of the small instance, if it has returned keys. -/
def returnedOffer (es : List Event) (j : ℕ) : Option (ServerClient.Offer Byte Byte × Keys) :=
  match ((run .plain es).servers j).stage with
  | .returned f keys => some (f, keys)
  | _ => none

theorem returned_of_offer {es : List Event} {j : ℕ} {x : ServerClient.Offer Byte Byte × Keys}
    (h : returnedOffer es j = some x) : ((run .plain es).servers j).stage = .returned x.1 x.2 := by
  unfold returnedOffer at h
  split at h
  · cases h
    assumption
  · cases h

/-- The confirmation of `confirmedRun`. -/
theorem server_confirmation_honest :
    ∃ i v, ((run .plain confirmedRun).clients i).party.view = some v ∧
      v.m2.nonceServer = .replicate 4 9 := by
  have hmeets : Machine.Meets (step .plain)
      (fun w e => IdealSignatures .plain (step .plain w e).1) {} confirmedRun := by
    apply meets_ideal (n := 1)
    decide +kernel
  have hsome : ((returnedOffer confirmedRun 0).map fun x =>
      (x.1.clientPublicKey, x.1.nonceServer)) = some (1, .replicate 4 9) := by
    decide +kernel
  obtain ⟨⟨f, keys⟩, hf, hx⟩ := Option.map_eq_some_iff.mp hsome
  obtain ⟨hkey, hnonce⟩ := Prod.mk.inj hx
  obtain ⟨i, v, -, hview, hv, -⟩ := server_confirmation Setup.plain_trusted hmeets (a := 0)
    (returned_of_offer hf) hkey
  exact ⟨i, v, hview, hv.trans hnonce⟩

/-- The attacker gives the client's first message to two server runs, and to the client the second
message of the one with the nonce of the other. -/
def mixedRun : List Event :=
  [.sendM1 0 plainClientCoins [], .offer 0 plainM1 (fun _ _ => 0) (plainServerCoins 9) [],
    .offer 1 plainM1 (fun _ _ => 0) (plainServerCoins 8) [],
    .finish 0 (plainM2 9 (List.replicate 16 5) (List.replicate 16 9) [8, 8, 8, 8])
      (fun _ _ => 0) plainClientCoins,
    .recvM3 1 (plainM3 [8, 8, 8, 8]) fun _ _ => 0]

/-- **A server's handshake can return keys that no client has.** -/
theorem answers_other_run :
    Setup.plain.Trusted ∧
      Machine.Meets (step .plain) (fun w e => IdealSignatures .plain (step .plain w e).1) {}
        mixedRun ∧
      (∃ f, ((run .plain mixedRun).servers 1).stage = .returned f
          ⟨List.replicate 16 8, List.replicate 32 8, List.replicate 16 8⟩ ∧
        f.clientPublicKey = Setup.plain.clientKey 0) ∧
      ¬ ∃ i v, ((run .plain mixedRun).clients i).party.view = some v ∧
        v.keys.sessionKey = List.replicate 16 8 ∧ v.keys.authKey = List.replicate 32 8 := by
  refine ⟨Setup.plain_trusted, meets_ideal (n := 2) ?_, ?_, ?_⟩
  · decide +kernel
  · have hsome : ((returnedOffer mixedRun 1).map fun x => (x.1.clientPublicKey, x.2)) =
        some (1, ⟨List.replicate 16 8, List.replicate 32 8, List.replicate 16 8⟩) := by
      decide +kernel
    obtain ⟨⟨f, keys⟩, hf, hx⟩ := Option.map_eq_some_iff.mp hsome
    obtain ⟨hkey, rfl⟩ := Prod.mk.inj hx
    exact ⟨f, returned_of_offer hf, hkey⟩
  · intro hpre
    obtain ⟨i, v, hview, hkey, -⟩ := hpre
    have hfirst : ∀ i < 2, (((run .plain mixedRun).clients i).party.view.map fun v =>
        v.keys.sessionKey) ≠ some (List.replicate 16 8) := by
      decide +kernel
    rcases Nat.lt_or_ge i 2 with hi | hi
    · apply hfirst i hi
      rw [hview, Option.map_some, hkey]
    · have hquiet : Quiet 2 (run .plain mixedRun) := by
        apply quiet_run
        decide +kernel
      rw [(hquiet i hi).1] at hview
      cases hview

end World

end Cybrg
