import Cybrg.Handshake.World

/-!
# What a client knows when its handshake returns

The server signs one string, in which the two seals, the iv and the client's nonce follow each
other; the client puts this string together again from pieces that the attacker has cut.

* `signedText_inj` — the string determines its pieces if the vectors of the seals have their
  proper length;
* `World.view_agrees` — with such a second message a client holds the keys of a server run that
  was offered its nonce;
* `World.client_agreement` — so it is in every run in which the seals that clients read have
  vectors of the proper length.

`RSASeal::str` writes `AES128_KEY_LEN` in front of the vector whatever its length is, and nothing
checks that length; `World.short_iv_accepted` is a run in which the attacker has moved the first
byte of the session's iv into the second seal.
-/

namespace Cybrg

open Octets

variable {C K S : Type}

/-- **The signed string determines its pieces**, if the vectors of all seals have the length that
is written in front of them. -/
theorem signedText_inj {s a s' a' : RSASeal} {iv iv' : Bytes} {n n' : Nonce} (hs : s.Writable)
    (ha : a.Writable) (hs' : s'.Writable) (ha' : a'.Writable) (hsiv : s.iv.length = aes128KeyLen)
    (haiv : a.iv.length = aes128KeyLen) (hsiv' : s'.iv.length = aes128KeyLen)
    (haiv' : a'.iv.length = aes128KeyLen) (h : signedText s a iv n = signedText s' a' iv' n') :
    s = s' ∧ a = a' ∧ iv = iv' ∧ n = n' := by
  simp only [signedText, List.append_assoc] at h
  obtain ⟨hseal, h₁⟩ := RSASeal.encode_append_inj hs hs' hsiv hsiv' h
  obtain ⟨hseal', h₂⟩ := RSASeal.encode_append_inj ha ha' haiv haiv' h₁
  -- the nonce has four bytes, so the iv is everything in front of them
  obtain ⟨hiv, hn⟩ := List.append_inj' h₂ (by rw [n.toList_length, n'.toList_length])
  exact ⟨hseal, hseal', hiv, Subtype.ext hn⟩

/-- The vectors of both seals have the length that `RSASeal::str` writes. -/
def ClientMain.M2.WellSealed (m : ClientMain.M2 C) : Prop :=
  m.encryptedSessionKeySeal.iv.length = aes128KeyLen ∧
    m.encryptedAuthKeySeal.iv.length = aes128KeyLen

instance (m : ClientMain.M2 C) : Decidable m.WellSealed :=
  inferInstanceAs (Decidable (m.encryptedSessionKeySeal.iv.length = aes128KeyLen ∧
    m.encryptedAuthKeySeal.iv.length = aes128KeyLen))

/-- A seal that opens gives back what was sealed. -/
theorem Setup.Trusted.decrypt_encrypt {s : Setup C K S} (ht : s.Trusted) {coins : ℕ}
    {text plaintext : Bytes} {key : K} {privKey : S} {junk : ℕ → Byte} {sl : RSASeal}
    (he : RSACrypto.encrypt s.ssl coins text key = .ok sl)
    (hd : RSACrypto.decrypt s.ssl junk privKey sl = .ok plaintext) : plaintext = text := by
  obtain ⟨e, hseal, rfl⟩ := RSACrypto.encrypt_ok he
  have hopen := RSACrypto.decrypt_ok hd
  simp only [RSACrypto.readOver_iv] at hopen
  exact ht.opens coins key text e privKey plaintext hseal hopen

namespace World

variable {s : Setup C K S} {w : World C K}

/-- A client that has accepted a second message has the text of some server run's offer. -/
theorem accepted_signed (ht : s.Trusted) (hw : Honest s w) (hideal : IdealSignatures s w) {i : ℕ}
    {m : ClientMain.M2 C} {n : Nonce} {key : K}
    (hc : ClientMain.Checked s.ssl (s.client i) m n key)
    (hv : (key, m.text n) ∈ (w.clients i).party.verified) :
    ∃ j f, (w.servers j).party.view = some f ∧ f.text = m.text n := by
  have hkey : key = s.serverKey := ht.serverCert i _ key hc.certified hc.publicKey
  obtain ⟨j, hsigned⟩ := (hideal.1 i _ hv).1 hkey
  obtain ⟨f, hf, htext⟩ := (hw.servers j).signed _ hsigned
  exact ⟨j, f, hf, htext⟩

/-- **The keys of an accepted second message are those of the offer with its text**, if the
message is well sealed. -/
theorem keys_eq_of_text (ht : s.Trusted) {i : ℕ} {m : ClientMain.M2 C} {n : Nonce} {key : K}
    {keys : Keys} {mem : Memory} {f : ServerClient.Offer C K}
    (hc : ClientMain.Checked s.ssl (s.client i) m n key)
    (ho : ClientMain.Opened s.ssl (s.client i) mem m keys)
    (hm : ServerClient.Made s.ssl s.server f) (hwell : m.WellSealed)
    (htext : f.text = m.text n) : f.nonceClient = n ∧ f.keys = keys := by
  obtain ⟨_, hes⟩ := hm.sessionKey
  obtain ⟨_, hea⟩ := hm.authKey
  obtain ⟨hws, hivs⟩ := RSACrypto.encrypt_writable hes
  obtain ⟨hwa, hiva⟩ := RSACrypto.encrypt_writable hea
  obtain ⟨hs, ha, hiv, hn⟩ := signedText_inj hws hwa hc.sessionKeyWritable hc.authKeyWritable
    hivs hiva hwell.1 hwell.2 htext
  rw [hs] at hes
  rw [ha] at hea
  have hsession : keys.sessionKey = f.sessionKey.toList := ht.decrypt_encrypt hes ho.sessionKey
  have hauth : keys.authKey = f.authKey.toList := ht.decrypt_encrypt hea ho.authKey
  refine ⟨hn, ?_⟩
  obtain ⟨sessionKey, authKey, iv⟩ := keys
  have hivk := ho.iv
  simp only at hsession hauth hivk
  rw [ServerClient.Offer.keys, hsession, hauth, hivk, hiv]

/-- **A well-sealed second message that was accepted is a server run's**: this run was offered the
client's nonce and chose the keys. -/
theorem view_agrees (ht : s.Trusted) (hw : Honest s w) (hideal : IdealSignatures s w) {i : ℕ}
    {v : ClientMain.View C} (hview : (w.clients i).party.view = some v)
    (hwell : v.m2.WellSealed) :
    ∃ j f, (w.servers j).party.view = some f ∧ f.nonceClient = v.nonceClient ∧
      f.keys = v.keys := by
  obtain ⟨key, mem, hc, ho, hv⟩ := (hw.clients i).accepted v hview
  obtain ⟨j, f, hf, htext⟩ := accepted_signed ht hw hideal hc hv
  exact ⟨j, f, hf, keys_eq_of_text ht hc ho ((hw.servers j).made f hf) hwell htext⟩

/-! ### Runs -/

/-- The seals that a client reads have vectors of the proper length. -/
def SealsWhole (s : Setup C K S) (w : World C K) : Event → Prop
  | .finish i bs mem _ => ∀ n m, (w.clients i).stage = .waiting n →
      ClientMain.Received s.ssl (s.client i) mem ((w.clients i).party.deliver bs) m → m.WellSealed
  | _ => True

instance (s : Setup C K S) (w : World C K) (e : Event) : Decidable (SealsWhole s w e) :=
  match e with
  | .finish i bs mem _ =>
      match hs : (w.clients i).stage with
      | .waiting n =>
          match hr : (ClientMain.recvM2 s.ssl (s.client i) mem).run
              ((w.clients i).party.deliver bs) with
          | .ok m p => decidable_of_iff m.WellSealed
              ⟨fun h _ _ _ ⟨_, hm⟩ => (EStateM.Result.ok.inj (hr.symm.trans hm)).1 ▸ h,
                fun h => h n m hs ⟨p, hr⟩⟩
          | .error _ _ => .isTrue fun _ _ _ ⟨_, hm⟩ => nomatch hr.symm.trans hm
      | .idle | .returned _ _ | .stopped => .isTrue fun _ _ h => nomatch hs.symm.trans h
  | .sendM1 _ _ _ | .offer _ _ _ _ _ | .recvM3 _ _ _ => .isTrue trivial

/-- Everything that clients have accepted is well sealed. -/
def ViewsWellSealed (w : World C K) : Prop :=
  ∀ i v, (w.clients i).party.view = some v → v.m2.WellSealed

theorem ViewsWellSealed.setClient (h : ViewsWellSealed w) {i : ℕ} {r : ClientRun C K}
    (hr : ∀ v, r.party.view = some v → v.m2.WellSealed) : ViewsWellSealed (w.setClient i r) := by
  intro k v hv
  by_cases hk : k = i
  · subst hk
    rw [setClient_self] at hv
    exact hr v hv
  · rw [setClient_ne w r hk] at hv
    exact h k v hv

/-- What `finish` accepts is what it has received. -/
theorem received_of_finish {i : ℕ} {p : ClientMain.Run C K} {mem : Memory}
    {coins : ClientMain.Coins} {n : Nonce} {v : ClientMain.View C} (hp : p.view = none)
    (hv : (Exec.endState ((ClientMain.finish s.ssl (s.client i) mem coins n).run p)).view
      = some v) :
    ClientMain.Received s.ssl (s.client i) mem p v.m2 := by
  have hends : ClientMain.FinishEnds s.ssl (s.client i) mem n p _ :=
    ClientMain.finish_ends mem coins n p
  revert hends hv
  generalize (ClientMain.finish s.ssl (s.client i) mem coins n).run p = r
  intro hv hends
  cases hends with
  | early hr =>
    have hnone : _ = none := (congrArg (fun x => x.2.2) hr).trans hp
    cases hnone.symm.trans hv
  | unopened hc hr =>
    have hnone : _ = none := (congrArg (fun x => x.2.2) hr).trans hp
    cases hnone.symm.trans hv
  | unsigned hm hc ho hr =>
    cases (congrArg (fun x => x.2.2) hr).symm.trans hv
    exact hm
  | unsent hm hc ho hr =>
    cases (congrArg (fun x => x.2.2) hr).symm.trans hv
    exact hm
  | done hm hc ho hr =>
    cases (congrArg (fun x => x.2.2) hr).symm.trans hv
    exact hm

/-- The step lemma: well-sealed input leaves well-sealed views. -/
theorem ViewsWellSealed.step (hw : Honest s w) (h : ViewsWellSealed w) {e : Event}
    (he : SealsWhole s w e) : ViewsWellSealed (World.step s w e).1 := by
  cases e with
  | sendM1 i coins sendRets =>
    simp only [World.step]
    split
    · refine h.setClient fun v hv => ?_
      have hrec := sendM1_record (s := s) i coins { conn := { sendRets } }
      cases (congrArg (fun x => x.2.2) hrec).symm.trans hv
    · exact h
  | offer j bs mem coins sendRets =>
    simp only [World.step]
    split <;> exact h
  | finish i bs mem coins =>
    simp only [World.step]
    split
    · rename_i n hn
      refine h.setClient fun v hv => he n v.m2 hn (received_of_finish ?_ hv)
      exact congrArg (fun x => x.2.2) ((hw.clients i).waiting n hn)
    · exact h
  | recvM3 j bs mem =>
    simp only [World.step]
    split <;> exact h

/-- **Client-side key agreement.**  In every run in which signatures are ideal and the seals that
clients read have vectors of the proper length, the keys that a client's handshake returns were
chosen by a server run that was offered this client run's nonce. -/
theorem client_agreement (ht : s.Trusted) {es : List Event}
    (hes : Machine.Meets (step s)
      (fun w e => IdealSignatures s (step s w e).1 ∧ SealsWhole s w e) {} es)
    {i : ℕ} {n : Nonce} {keys : Keys}
    (hret : ((run s es).clients i).stage = .returned n keys) :
    ∃ j f, ((run s es).servers j).party.view = some f ∧ f.nonceClient = n ∧ f.keys = keys := by
  have hinv : Honest s (run s es) ∧ IdealSignatures s (run s es) ∧ ViewsWellSealed (run s es) := by
    refine Machine.invariant_run
      (I := fun w => Honest s w ∧ IdealSignatures s w ∧ ViewsWellSealed w) ?_ ?_ hes
    · rintro w e ⟨hw, -, hwell⟩ ⟨hideal, hwhole⟩
      exact ⟨hw.step e, hideal, hwell.step hw hwhole⟩
    · refine ⟨Honest.initial, IdealSignatures.initial, fun _ v hv => ?_⟩
      cases hv
  obtain ⟨hw, hideal, hwell⟩ := hinv
  obtain ⟨v, hview, rfl, rfl⟩ := (hw.clients i).returned n keys hret
  exact view_agrees ht hw hideal hview (hwell i v hview)

/-! ### Two runs of the small instance -/

/-- Nobody touches the messages. -/
def honestRun : List Event :=
  [.sendM1 0 plainClientCoins [], .offer 0 plainM1 (fun _ _ => 0) (plainServerCoins 9) [],
    .finish 0 (plainM2 9 (List.replicate 16 5) (List.replicate 16 9) [9, 9, 9, 9])
      (fun _ _ => 0) plainClientCoins]

/-- The agreement of `honestRun`. -/
theorem client_agreement_honest :
    ∃ j f, ((run .plain honestRun).servers j).party.view = some f ∧
      f.nonceClient = .replicate 4 3 ∧
      f.keys = ⟨List.replicate 16 9, List.replicate 32 9, List.replicate 16 9⟩ := by
  have hmeets : Machine.Meets (step .plain)
      (fun w e => IdealSignatures .plain (step .plain w e).1 ∧ SealsWhole .plain w e) {}
      honestRun := by
    refine Machine.meets_and (meets_ideal (n := 1) ?_) ?_
    · decide +kernel
    · decide +kernel
  have hret : ((run .plain honestRun).clients 0).stage = .returned (.replicate 4 3)
      ⟨List.replicate 16 9, List.replicate 32 9, List.replicate 16 9⟩ := by
    decide +kernel
  exact client_agreement Setup.plain_trusted hmeets hret

/-- The attacker moves the first byte of the iv to the end of the second seal. -/
def shortIvRun : List Event :=
  [.sendM1 0 plainClientCoins [], .offer 0 plainM1 (fun _ _ => 0) (plainServerCoins 9) [],
    .finish 0 (plainM2 9 (List.replicate 16 5 ++ [9]) (List.replicate 15 9) [9, 9, 9, 9])
      (fun _ _ => 0) plainClientCoins]

/-- **A client can be made to return an iv that no server run has chosen.**  Signatures are ideal
and seals as well, but the signed string was cut elsewhere. -/
theorem short_iv_accepted :
    Setup.plain.Trusted ∧
      Machine.Meets (step .plain) (fun w e => IdealSignatures .plain (step .plain w e).1) {}
        shortIvRun ∧
      ((run .plain shortIvRun).clients 0).stage = .returned (.replicate 4 3)
        ⟨List.replicate 16 9, List.replicate 32 9, List.replicate 15 9⟩ ∧
      ¬ ∃ j f, ((run .plain shortIvRun).servers j).party.view = some f ∧
        f.nonceClient = .replicate 4 3 ∧
        f.keys = ⟨List.replicate 16 9, List.replicate 32 9, List.replicate 15 9⟩ := by
  refine ⟨Setup.plain_trusted, meets_ideal (n := 1) ?_, ?_, ?_⟩
  · decide +kernel
  · decide +kernel
  · intro hpre
    obtain ⟨j, f, -, -, hkeys⟩ := hpre
    -- a server run always chooses an iv of 16 bytes
    have hiv : f.iv.toList = List.replicate 15 9 := congrArg Keys.iv hkeys
    have hlen := congrArg List.length hiv
    rw [f.iv.toList_length, List.length_replicate] at hlen
    cases hlen

end World

end Cybrg
