import Cybrg.Handshake.KeyAgreement

/-!
# The second message belongs to the run that accepts it

The string that the server signs ends in the nonce that it was offered.  A nonce has four bytes,
so however the pieces in front of it are cut, two such strings with different nonces differ.

* `nonce_of_text` — the nonce of a signed string;
* `offer_view` — the signature of an offer was computed over the text of the offer;
* `Setup.SoundSignatures` — a signature of the server verifies, and verifies for one text only;
* `World.freshness` — the signature that a client has accepted was computed by a server run that
  was offered the nonce of this client run, and by no run that was offered another.
-/

namespace Cybrg

open Octets

variable {C K S : Type}

/-- **The nonce of a signed string** is its end, whatever the other pieces are. -/
theorem nonce_of_text {s a s' a' : RSASeal} {iv iv' : Bytes} {n n' : Nonce}
    (h : signedText s a iv n = signedText s' a' iv' n') : n = n' := by
  simp only [signedText] at h
  obtain ⟨-, hn⟩ := List.append_inj' h (by rw [n.toList_length, n'.toList_length])
  exact Subtype.ext hn

/-! ### The signature of an offer -/

namespace ServerClient

variable {ssl : Openssl C K S} {cm : CertManager C S}

/-- The offer was signed by this program. -/
def SignedOffer (ssl : Openssl C K S) (cm : CertManager C S) (f : Offer C K) : Prop :=
  ∃ coins, ssl.evpSign coins cm.privKey f.text = some f.signature

theorem makeM2_view {coins : Coins} {cert : C} {nonceClient : Nonce} {p p' : Run C K}
    {f : Offer C K} (h : (makeM2 ssl cm coins cert nonceClient).run p = .ok f p') :
    p'.view = some f ∧ SignedOffer ssl cm f := by
  obtain ⟨sessionKey, _, -, h₁⟩ := Exec.bind_ok h
  obtain ⟨authKey, _, -, h₂⟩ := Exec.bind_ok h₁
  obtain ⟨iv, _, -, h₃⟩ := Exec.bind_ok h₂
  obtain ⟨nonceServer, _, -, h₄⟩ := Exec.bind_ok h₃
  obtain ⟨key, _, -, h₅⟩ := Exec.bind_ok h₄
  obtain ⟨sealed, _, -, h₆⟩ := Exec.bind_ok h₅
  obtain ⟨sealed', _, -, h₇⟩ := Exec.bind_ok h₆
  obtain ⟨text, _, htext, h₈⟩ := Exec.bind_ok h₇
  obtain ⟨signature, _, hsign, h₉⟩ := Exec.bind_ok h₈
  obtain rfl := whatToSign_ok (Exec.ofExcept_ok htext).1
  cases h₉
  exact ⟨rfl, coins.sign, (RSACrypto.sign_ok hsign).1⟩

/-- **What `offer` leaves as the view of a run** is an offer with its signature. -/
theorem offer_view {mem : Memory} {coins : Coins} {p : Run C K} (hp : p.view = none)
    {f : Offer C K}
    (h : (Exec.endState ((offer ssl cm mem coins).run p)).view = some f) :
    SignedOffer ssl cm f := by
  unfold offer at h
  cases hm : (recvM1 ssl cm mem).run p with
  | error e p₁ =>
    have hview := congrArg (fun x => x.2.2) ((recvM1_record mem).of_error hm)
    rw [Exec.bind_of_error hm] at h
    cases (hview.trans hp).symm.trans h
  | ok m1 p₁ =>
    have hview := congrArg (fun x => x.2.2) ((recvM1_record mem).of_ok hm)
    rw [Exec.bind_of_ok hm] at h
    cases hmake : (makeM2 ssl cm coins m1.1 m1.2).run p₁ with
    | error e p₂ =>
      rw [Exec.bind_of_error hmake] at h
      rcases @makeM2_ends C K S ssl cm coins m1.1 m1.2 (recvM1_ok hm) p₁ with
        ⟨e', hrun⟩ | ⟨f', p', hrun, -, -⟩
      · cases hmake.symm.trans hrun
        cases (hview.trans hp).symm.trans h
      · cases hmake.symm.trans hrun
    | ok g p₂ =>
      obtain ⟨hg, hsigned⟩ := makeM2_view hmake
      rw [Exec.bind_of_ok hmake] at h
      have hkept : (Exec.endState ((sendM2 ssl cm g >>= fun _ => pure g).run p₂)).view
          = some g := by
        have hleaves : Exec.Leaves Party.record (sendM2 ssl cm g >>= fun _ => pure g) :=
          .bind (sendM2_record g) fun _ => .pure _
        exact (congrArg (fun x => x.2.2) (hleaves p₂)).trans hg
      cases hkept.symm.trans h
      exact hsigned

end ServerClient

/-! ### Signatures -/

/-- A signature that the server computes verifies under its key, and what verifies under its key
does so for one text only. -/
structure Setup.SoundSignatures (s : Setup C K S) : Prop where
  correct : ∀ coins text signature, s.ssl.evpSign coins s.server.privKey text = some signature →
    RSACrypto.passes s.ssl text signature s.serverKey
  binding : ∀ signature text text', RSACrypto.passes s.ssl text signature s.serverKey →
    RSACrypto.passes s.ssl text' signature s.serverKey → text = text'

namespace World

variable {s : Setup C K S} {w : World C K}

/-- All offers were signed by server runs. -/
def OffersSigned (s : Setup C K S) (w : World C K) : Prop :=
  ∀ j f, (w.servers j).party.view = some f → ServerClient.SignedOffer s.ssl s.server f

theorem OffersSigned.setServer (h : OffersSigned s w) {j : ℕ} {r : ServerRun C K}
    (hr : ∀ f, r.party.view = some f → ServerClient.SignedOffer s.ssl s.server f) :
    OffersSigned s (w.setServer j r) := by
  intro k f hf
  by_cases hk : k = j
  · subst hk
    rw [setServer_self] at hf
    exact hr f hf
  · rw [setServer_ne w r hk] at hf
    exact h k f hf

theorem OffersSigned.step (h : OffersSigned s w) (e : Event) :
    OffersSigned s (World.step s w e).1 := by
  cases e with
  | sendM1 i coins sendRets =>
    simp only [World.step]
    split <;> exact h
  | offer j bs mem coins sendRets =>
    simp only [World.step]
    split
    · exact h.setServer fun f hf => ServerClient.offer_view rfl hf
    · exact h
  | finish i bs mem coins =>
    simp only [World.step]
    split <;> exact h
  | recvM3 j bs mem =>
    simp only [World.step]
    split
    · rename_i f hf
      refine h.setServer fun g hg => h j g ?_
      have hkept : ∀ p : ServerClient.Run C K, (Exec.endState
          ((ServerClient.recvM3 s.ssl mem f).run p)).view = p.view := by
        intro p
        rcases @ServerClient.recvM3_ends C K S s.ssl mem f p with
          ⟨e, p', hrun, hrec⟩ | ⟨p', signature, hrun, -, hrec⟩
        · rw [hrun]
          exact congrArg (fun x => x.2.2) hrec
        · rw [hrun]
          exact congrArg (fun x => x.2.2) hrec
      exact (hkept ((w.servers j).party.deliver bs)).symm.trans hg
    · exact h

theorem offersSigned_run (es : List Event) : OffersSigned s (run s es) :=
  Machine.invariant_run (C := fun _ _ => True) (fun _ e h _ => h.step e)
    (fun _ f hf => by cases hf) (Machine.meets_true es)

/-- **An accepted second message is fresh.**  The text that a client run has found signed was
signed by a server run that was offered this run's nonce; no offer for another nonce has this
text. -/
theorem accepted_fresh (ht : s.Trusted) (hw : Honest s w) (hideal : IdealSignatures s w) {i : ℕ}
    {v : ClientMain.View C} (hview : (w.clients i).party.view = some v) :
    RSACrypto.passes s.ssl (v.m2.text v.nonceClient) v.m2.signature s.serverKey ∧
      ∃ j f, (w.servers j).party.view = some f ∧ f.text = v.m2.text v.nonceClient ∧
        f.nonceClient = v.nonceClient := by
  obtain ⟨key, mem, hc, -, hv⟩ := (hw.clients i).accepted v hview
  have hkey : key = s.serverKey := ht.serverCert i _ key hc.certified hc.publicKey
  obtain ⟨j, f, hf, htext⟩ := accepted_signed ht hw hideal hc hv
  exact ⟨hkey ▸ hc.passes, j, f, hf, htext, nonce_of_text htext⟩

/-- **Freshness of the second message.**  The signature that a client's handshake has accepted when
it returns was computed by a server run that was offered the nonce of this client run.  With
signatures that bind their text, no signature that was computed for another nonce, or that a
client run with another nonce has accepted, is the same. -/
theorem freshness (ht : s.Trusted) {es : List Event}
    (hes : Machine.Meets (step s) (fun w e => IdealSignatures s (step s w e).1) {} es)
    {i : ℕ} {n : Nonce} {keys : Keys}
    (hret : ((run s es).clients i).stage = .returned n keys) :
    ∃ v, ((run s es).clients i).party.view = some v ∧ v.nonceClient = n ∧
      (∃ j f, ((run s es).servers j).party.view = some f ∧ f.nonceClient = n ∧
        f.text = v.m2.text n ∧ ServerClient.SignedOffer s.ssl s.server f) ∧
      (∀ j f, ((run s es).servers j).party.view = some f → f.nonceClient ≠ n →
        f.text ≠ v.m2.text n ∧ (s.SoundSignatures → f.signature ≠ v.m2.signature)) ∧
      ∀ k v', ((run s es).clients k).party.view = some v' → v'.nonceClient ≠ n →
        v'.m2.text v'.nonceClient ≠ v.m2.text n ∧
          (s.SoundSignatures → v'.m2.signature ≠ v.m2.signature) := by
  have hw := honest_run (s := s) es
  have hoffers := offersSigned_run (s := s) es
  have hideal : IdealSignatures s (run s es) :=
    Machine.invariant_run (fun _ _ _ h => h) IdealSignatures.initial hes
  generalize run s es = w at hret hw hoffers hideal
  obtain ⟨v, hview, rfl, -⟩ := (hw.clients i).returned n keys hret
  obtain ⟨hpasses, j, f, hf, htext, hnonce⟩ := accepted_fresh ht hw hideal hview
  refine ⟨v, hview, rfl, ⟨j, f, hf, hnonce, htext, hoffers j f hf⟩, ?_, ?_⟩
  · intro j' f' hf' hne
    have hdiff : f'.text ≠ v.m2.text v.nonceClient := fun h => hne (nonce_of_text h)
    refine ⟨hdiff, fun hsound hsig => hdiff ?_⟩
    obtain ⟨coins, hsign⟩ := hoffers j' f' hf'
    exact hsound.binding _ _ _ (hsig ▸ hsound.correct coins _ _ hsign) hpasses
  · intro k v' hview' hne
    have hdiff : v'.m2.text v'.nonceClient ≠ v.m2.text v.nonceClient := fun h =>
      hne (nonce_of_text h)
    refine ⟨hdiff, fun hsound hsig => hdiff ?_⟩
    obtain ⟨hpasses', -⟩ := accepted_fresh ht hw hideal hview'
    exact hsound.binding _ _ _ (hsig ▸ hpasses') hpasses

/-- The signatures of the small instance show their text. -/
theorem plain_soundSignatures : Setup.plain.SoundSignatures := by
  have hiff : ∀ text signature, RSACrypto.passes Setup.plain.ssl text signature
      Setup.plain.serverKey → signature = 7 :: text := by
    intro text signature h
    by_contra hne
    exact h.2.2 (if_neg hne)
  refine ⟨?_, fun signature text text' h h' => ?_⟩
  · intro coins text signature h
    cases h
    refine ⟨by decide, by decide, ?_⟩
    show (if 7 :: text = 7 :: text then (1 : ℤ) else 0) ≠ 0
    simp
  · exact (List.cons.inj ((hiff _ _ h).symm.trans (hiff _ _ h'))).2

/-- The freshness of `honestRun`. -/
theorem freshness_honest :
    Setup.plain.SoundSignatures ∧ ∃ v j f,
      ((run .plain honestRun).clients 0).party.view = some v ∧
      ((run .plain honestRun).servers j).party.view = some f ∧
      f.nonceClient = .replicate 4 3 ∧ f.text = v.m2.text (.replicate 4 3) := by
  have hmeets : Machine.Meets (step .plain)
      (fun w e => IdealSignatures .plain (step .plain w e).1) {} honestRun := by
    apply meets_ideal (n := 1)
    decide +kernel
  have hret : ((run .plain honestRun).clients 0).stage = .returned (.replicate 4 3)
      ⟨List.replicate 16 9, List.replicate 32 9, List.replicate 16 9⟩ := by
    decide +kernel
  obtain ⟨v, hview, -, ⟨j, f, hf, hnonce, htext, -⟩, -⟩ :=
    freshness Setup.plain_trusted hmeets hret
  exact ⟨plain_soundSignatures, v, j, f, hview, hf, hnonce, htext⟩

end World

end Cybrg
