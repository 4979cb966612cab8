import Cybrg.Library.TwoRuns
import Cybrg.Server.Authentication
import Cybrg.Server.Frame

/-!
# Whom the server trusts

`Server::Server` reads the list of the authorised clients and builds a `CertManager` from files in its
working directory; the sessions that follow work on files below `SERVER_ROOT` in this directory.

* `CertManager.new`, `Server.new` — the constructors, as they read their files;
* `Server.trusted` — these files;
* `Apart` — no request leads to one of them;
* `trust_survives` — after any sessions, one after another, the server starts as it did before;
* `only_listed` — a session that changes a file is that of a client who was listed before them all.
-/

namespace Cybrg

open Octets Streams Files

variable {C R S : Type}

/-! ### Files that are read at the start -/

/-- What can be read of a path. -/
def bytesAt (s : Store) (path : Bytes) : Option Bytes :=
  (s.reads path).map fun x => match x.2 with
    | .file content => content
    | .special reads => reads
    | .dir | .link _ => []

namespace Host

/-- Open a file and read it to its end, or as far as it can be read; and whether it was read to its
end. -/
def fread (path : Bytes) : EStateM Ex Host (Option (Bytes × Bool)) := do
  let file ← openIn path
  match file with
  | none => return none
  | some node =>
      let h ← get
      let content := (h.contents node).1
      let readable ← limit content.length
      return some (content.take readable, content.length ≤ readable)

/-- Go on with a value, or throw where it is missing. -/
def need {α : Type} (x : Option α) (e : Ex) : EStateM Ex Host α :=
  match x with
  | some a => return a
  | none => throw e

end Host

/-- What `PEM_read_*` make of a file, and what the calls on a new `X509_STORE` return.  `C`, `R` and `S`
are the types of certificates, revocation lists and private keys. -/
structure Pem (C R S : Type) where
  readX509 : Bytes → Option C
  readX509Crl : Bytes → Option R
  readPrivateKey : Bytes → Option S
  storeNew : Bool
  addCert : C → ℤ
  addCrl : R → ℤ
  /-- The store with this certificate and this list, for `X509_V_FLAG_CRL_CHECK`. -/
  store : C → R → X509Store C

variable (pem : Pem C R S)

/-- `CERT_PATH` and `KEY_PATH`. -/
def certPath : Bytes := text "cert/"

/-- `RSAKey::fromUserName`. -/
def RSAKey.fromUserName (username : Bytes) : EStateM Ex Host S := do
  let file ← Host.fread (certPath ++ username ++ text "_key.pem")
  let content ← Host.need file (.exCertificate "RSAKey::fromUserName(): cannot open private key")
  Host.need (pem.readPrivateKey content.1)
    (.exCertificate "RSAKey::fromUserName(): can not read my private key")

/-- `CertManager::CertManager`. -/
def CertManager.new (username : Bytes) (authPeersList : List Bytes) :
    EStateM Ex Host (CertManager C S) := do
  let file ← Host.fread (certPath ++ text "TrustedCA_cert.pem")
  let content ← Host.need file
    (.exCertificate "CertManager::CertManager(): cannot open TrustedCA_cert.open")
  let caCert ← Host.need (pem.readX509 content.1)
    (.exCertificate "CertManager::CertManager(): cannot read CA_cert")
  let file ← Host.fread (certPath ++ text "TrustedCA_crl.pem")
  let content ← Host.need file
    (.exCertificate "CertManager::CertManager(): cannot open TrustedCA_crl.pem")
  let crl ← Host.need (pem.readX509Crl content.1)
    (.exCertificate "CertManager::CertManager(): cannot read crl")
  Exec.require (pem.storeNew = true)
    (.exCertificate "CertManager::CertManager(): cannot create the store")
  Exec.require (pem.addCert caCert = 1)
    (.exCertificate "CertManager::CertManager(): cannot add CA_cert to store")
  Exec.require (pem.addCrl crl = 1)
    (.exCertificate "CertManager::CertManager(): cannot add crl to store")
  let file ← Host.fread (certPath ++ username ++ text "_cert.pem")
  let content ← Host.need file (.exCertificate "can not open PEM file: certificate")
  let cert ← Host.need (pem.readX509 content.1) (.exCertificate "can not parse PEM certificate")
  let privKey ← RSAKey.fromUserName pem username
  return (pem.store caCert crl).manager authPeersList cert privKey

namespace Server

/-- `nameList`. -/
def nameList : Bytes := text "conf/authorized_clients.txt"

/-- `while (getline(in, clientName)) authClientList.push_back(clientName);`.  On a file that could not
be opened the first call fails, and where a file cannot be read on, the call that comes there does. -/
def authClientList (file : Option (Bytes × Bool)) : List Bytes :=
  match file with
  | none => []
  | some (content, complete) =>
      let content := if complete then content else content.rdropWhile (· ≠ 10)
      IStream.readLines 10 (content.length + 2) { rest := content } []

/-- `Server::Server`, when `bind` and `listen` have succeeded. -/
def new : EStateM Ex Host (CertManager C S) := do
  let file ← Host.fread nameList
  CertManager.new pem (text "server") (authClientList file)

/-- The files that it reads. -/
def trusted : List Bytes :=
  [nameList, certPath ++ text "TrustedCA_cert.pem", certPath ++ text "TrustedCA_crl.pem",
    certPath ++ text "server_cert.pem", certPath ++ text "server_key.pem"]

example : authClientList (some (text "alice\nbruk\n\ncarol", true)) =
    [text "alice", text "bruk", [], text "carol"] := by decide

example : authClientList (some (text "alice\nbru", false)) = [text "alice"] := by decide

/-! ### The same start -/

/-- Two systems that decide the same, and on which the trusted files are the same. -/
structure Like (h h' : Host) : Prop where
  faults : h.faults = h'.faults
  limits : h.limits = h'.limits
  reads : ∀ path ∈ trusted, h.store.reads path = h'.store.reads path

/-- A part of the start goes the same way on both. -/
def SameWay {α : Type} (m : EStateM Ex Host α) : Prop :=
  ∀ h h', Like h h' → Exec.Agree Like (m.run h) (m.run h')

namespace SameWay

variable {α β : Type}

theorem pure (a : α) : SameWay (Pure.pure a) := fun _ _ h => .ok h

theorem bind {m : EStateM Ex Host α} {f : α → EStateM Ex Host β} (hm : SameWay m)
    (hf : ∀ a, SameWay (f a)) : SameWay (m >>= f) :=
  fun h h' hlike => Exec.Agree.bind (hm h h' hlike) fun a t t' _ ht => hf a t t' ht

theorem need (x : Option α) (e : Ex) : SameWay (Host.need x e) := by
  cases x with
  | none => exact fun _ _ h => .error h
  | some a => exact .pure a

theorem require (p : Prop) [Decidable p] (e : Ex) : SameWay (Exec.require p e) := by
  intro h h' hlike
  rw [Exec.run_require, Exec.run_require]
  split
  · exact .ok hlike
  · exact .error hlike

/-- **A trusted file is read the same on both.** -/
theorem fread {path : Bytes} (hpath : path ∈ trusted) : SameWay (Host.fread path) := by
  refine .bind ?_ fun file => ?_
  · intro h h' hlike
    have htries : h.tries (h.store.reads path) = h'.tries (h'.store.reads path) := by
      rw [Host.tries, Host.tries, hlike.faults, hlike.reads path hpath]
    rw [Host.run_openIn, Host.run_openIn, htries]
    refine .ok ⟨?_, ?_, ?_⟩
    · rw [Host.called_faults, Host.called_faults, hlike.faults]
    · rw [Host.called_limits, Host.called_limits, hlike.limits]
    · cases h'.tries (h'.store.reads path) with
      | none => exact hlike.reads
      | some x => exact hlike.reads
  · cases file with
    | none => exact .pure none
    | some node =>
      intro h h' hlike
      have hcontent : (h.contents node).1 = (h'.contents node).1 := by
        cases node <;> rfl
      show Exec.Agree Like
        (.ok (some ((h.contents node).1.take (h.limits.headD (h.contents node).1.length),
          decide ((h.contents node).1.length ≤ h.limits.headD (h.contents node).1.length))) h.limited)
        (.ok (some ((h'.contents node).1.take (h'.limits.headD (h'.contents node).1.length),
          decide ((h'.contents node).1.length ≤ h'.limits.headD (h'.contents node).1.length)))
            h'.limited)
      rw [hcontent, hlike.limits]
      exact .ok ⟨hlike.faults, congrArg List.tail hlike.limits, hlike.reads⟩

end SameWay

/-- **The server starts the same way** where its files are the same. -/
theorem new_sameWay : SameWay (new pem) := by
  refine .bind (.fread (by decide)) fun file => ?_
  refine .bind (.fread (by decide)) fun file => .bind (.need _ _) fun content => ?_
  refine .bind (.need _ _) fun caCert => ?_
  refine .bind (.fread (by decide)) fun file => .bind (.need _ _) fun content => ?_
  refine .bind (.need _ _) fun crl => ?_
  refine .bind (.require _ _) fun _ => .bind (.require _ _) fun _ => ?_
  refine .bind (.require _ _) fun _ => ?_
  refine .bind (.fread (by decide)) fun file => .bind (.need _ _) fun content => ?_
  refine .bind (.need _ _) fun cert => .bind ?_ fun privKey => .pure _
  exact .bind (.fread (by decide)) fun file => .bind (.need _ _) fun content => .need _ _

end Server

/-! ### Sessions between two starts -/

/-- A session: the object on its connection, with what its system decides, and the rounds. -/
structure Visit where
  client : ServerClient.Client Endpoint
  rounds : ℕ

/-- The object on the files that are there. -/
def Visit.begins (v : Visit) (s : Store) : ServerClient.Client Endpoint :=
  { v.client with host := { v.client.host with store := s } }

/-- The files that a session leaves. -/
def Visit.leaves (P : Primitives) (o : ByteOrder) (s : Store) (v : Visit) : Store :=
  (Exec.endState ((ServerClient.serve (.crypto P o) v.rounds).run (v.begins s))).host.store

open ServerClient (Reachable Left)

/-- No request leads to a file that is read at the start, nor to a directory or a symbolic link on the
way to one. -/
def Apart (s : Store) : Prop := ∀ path ∈ Server.trusted, ∀ p ∈ s.trail path, ¬ Reachable s p

namespace Apart

variable {s s' : Store}

/-- What a session leaves of a trusted file. -/
theorem same (h : Apart s) (hs : s.Reworked (Reachable s) Left s') {path : Bytes}
    (hpath : path ∈ Server.trusted) : s'.trail path = s.trail path ∧ s'.reads path = s.reads path :=
  Store.reads_of_trail hs.above fun q hq => hs.get_of_kept (h path hpath q hq)

/-- **A session leaves the trusted files apart.** -/
theorem reworked (h : Apart s) (hs : s.Reworked (Reachable s) Left s') : Apart s' := by
  intro path hpath p hp hreach
  rw [(h.same hs hpath).1] at hp
  obtain ⟨filename, hf, q, hq, hleads⟩ := hreach
  have hroutes := ServerClient.routes_of_reworked hs
  exact h path hpath p hp ⟨filename, hf, q, hroutes.place hq, hleads.imp_right (hroutes.links q p)⟩

/-- The trusted files lie beside `SERVER_ROOT`, in which there is no symbolic link. -/
theorem of_beside (hroot : s.get serverRootPath = some .dir) (hlinks : ∀ p q, s.get p ≠ some (.link q))
    (h : ∀ path ∈ Server.trusted, ∀ p ∈ s.trail path, p.head? ≠ some serverRoot ∧ p ≠ []) :
    Apart s := by
  rintro path hpath p hp ⟨filename, hf, q, hq, rfl | hlink⟩
  · obtain ⟨hhead, hne⟩ := h path hpath q hp
    rw [place_fullpath hroot hf] at hq
    split at hq
    · cases hq
      exact hhead rfl
    · split at hq
      · cases hq
        exact hne rfl
      · cases hq
        exact hhead rfl
  · exact hlinks q p hlink

variable {P : Primitives} {o : ByteOrder}

/-- **After any sessions** the trusted files are apart and the same. -/
theorem visits (h : Apart s) (vs : List Visit) :
    Apart (vs.foldl (Visit.leaves P o) s) ∧
      ∀ path ∈ Server.trusted, (vs.foldl (Visit.leaves P o) s).reads path = s.reads path := by
  induction vs generalizing s with
  | nil => exact ⟨h, fun _ _ => rfl⟩
  | cons v vs ih =>
    have hsession : s.Reworked (Reachable s) Left (v.leaves P o s) :=
      ServerClient.session_reworked (Transport.crypto_bounded P o) v.rounds (v.begins s)
    obtain ⟨hapart, hreads⟩ := ih (h.reworked hsession)
    refine ⟨hapart, fun path hpath => ?_⟩
    exact (hreads path hpath).trans (h.same hsession hpath).2

end Apart

/-- The system with these files. -/
def Host.on (h : Host) (s : Store) : Host := { h with store := s }

theorem like_after {s : Store} (hs : Apart s) (P : Primitives) (o : ByteOrder)
    (vs : List Visit) (h : Host) : Server.Like (h.on (vs.foldl (Visit.leaves P o) s)) (h.on s) :=
  ⟨rfl, rfl, (hs.visits vs).2⟩

/-- **What the server trusts survives its sessions.**  No request leads to a file that is read at the
start.  Then after any sessions, one after another and with whatever bytes on their connections, a
server starts as it would have started before them, and throws where it would have thrown, whichever
system calls fail. -/
theorem trust_survives (pem : Pem C R S) {s : Store} (hs : Apart s) (P : Primitives)
    (o : ByteOrder) (vs : List Visit) (h : Host) :
    Exec.outcome ((Server.new pem).run (h.on (vs.foldl (Visit.leaves P o) s)))
      = Exec.outcome ((Server.new pem).run (h.on s)) :=
  (Server.new_sameWay pem _ _ (like_after hs P o vs h)).outcome

/-! ### Who is served -/

/-- The certificate passes the store that is built of the files, and a line of the list is mentioned
in its subject. -/
structure Entitled (pem : Pem C R S) (s : Store) (peer : C) (caCert : C) (crl : R) (line : Bytes) :
    Prop where
  issuer : ∃ file, bytesAt s (certPath ++ text "TrustedCA_cert.pem") = some file ∧
    pem.readX509 file = some caCert
  revocations : ∃ file, bytesAt s (certPath ++ text "TrustedCA_crl.pem") = some file ∧
    pem.readX509Crl file = some crl
  passes : (pem.store caCert crl).ChainPasses peer
  listed : ∃ file, bytesAt s Server.nameList = some file ∧
    line ∈ Server.authClientList (some (file, true))
  mentioned : ((pem.store caCert crl).subjectName peer).Mentions line

namespace Host

theorem need_ok {α : Type} {x : Option α} {e : Ex} {h h' : Host} {a : α}
    (hr : (need x e).run h = .ok a h') : x = some a ∧ h' = h := by
  cases x with
  | none => cases hr
  | some b =>
    cases hr
    exact ⟨rfl, rfl⟩

/-- What is read of a file, on a system that reads to the end. -/
theorem fread_ok {path : Bytes} {h h' : Host} (hlimits : h.limits = [])
    {file : Option (Bytes × Bool)} (hr : (fread path).run h = .ok file h') :
    file = (h.tries (bytesAt h.store path)).map (·, true) ∧ h'.limits = [] ∧ h'.store = h.store := by
  unfold fread at hr
  rw [Exec.bind_of_ok (run_openIn path h)] at hr
  have hlimits' : ∀ x, (h.called .openIn x).limits = [] := fun x => by rw [called_limits, hlimits]
  rw [bytesAt, tries_map]
  cases hopen : h.tries (h.store.reads path) with
  | none =>
    rw [hopen] at hr
    cases hr
    exact ⟨rfl, hlimits' _, rfl⟩
  | some x =>
    obtain ⟨p, node⟩ := x
    rw [hopen] at hr
    have hall : ∀ bs : Bytes, (bs.take (h.limits.headD bs.length),
        decide (bs.length ≤ h.limits.headD bs.length)) = (bs, true) := by
      intro bs
      rw [hlimits, List.headD_nil, List.take_length, decide_eq_true (le_refl _)]
    cases hr
    refine ⟨?_, ?_, rfl⟩
    · cases node <;> exact congrArg some (hall _)
    · show (h.called .openIn _).limits.tail = []
      rw [hlimits']
      rfl

/-- A file that had to be there was read. -/
theorem fread_need {path : Bytes} {h h' : Host} (hlimits : h.limits = []) {α : Type} {e : Ex}
    {f : Bytes × Bool → EStateM Ex Host α} {a : α}
    (hr : (fread path >>= fun file => need file e >>= f).run h = .ok a h') :
    ∃ file t, bytesAt h.store path = some file ∧ (f (file, true)).run t = .ok a h' ∧ t.limits = [] ∧
      t.store = h.store := by
  obtain ⟨file, t, hfile, hr⟩ := Exec.bind_ok hr
  obtain ⟨content, t', hneed, hr⟩ := Exec.bind_ok hr
  obtain ⟨hread, hlimits', hstore⟩ := fread_ok hlimits hfile
  obtain ⟨rfl, rfl⟩ := need_ok hneed
  obtain ⟨bs, hbs, rfl⟩ := Option.map_eq_some_iff.mp hread.symm
  exact ⟨bs, t', Host.of_tries hbs, hr, hlimits', hstore⟩

end Host

/-- **Whom a server that has started accepts.** -/
theorem Server.entitled_of_new {pem : Pem C R S} {h h' : Host} (hlimits : h.limits = [])
    {cm : CertManager C S} (hstart : (new pem).run h = .ok cm h') {peer : C}
    (hpeer : cm.verifyCert peer = .ok ()) :
    ∃ caCert crl line, Entitled pem h.store peer caCert crl line := by
  obtain ⟨file, h₁, hfile, hnew⟩ := Exec.bind_ok hstart
  obtain ⟨hread, hlimits₁, hstore₁⟩ := Host.fread_ok hlimits hfile
  obtain ⟨ca, h₂, hca, hread₂, hlimits₂, hstore₂⟩ := Host.fread_need hlimits₁ hnew
  obtain ⟨caCert, h₃, hcaNeed, hrest₃⟩ := Exec.bind_ok hread₂
  obtain ⟨hcaCert, rfl⟩ := Host.need_ok hcaNeed
  obtain ⟨list, h₄, hlist, hread₄, -, -⟩ := Host.fread_need hlimits₂ hrest₃
  obtain ⟨crl, h₅, hcrlNeed, hrest₅⟩ := Exec.bind_ok hread₄
  obtain ⟨hcrl, rfl⟩ := Host.need_ok hcrlNeed
  -- what else is read decides whether the server starts, and not whom it accepts
  obtain ⟨_, _, -, hrest₆⟩ := Exec.bind_ok hrest₅
  obtain ⟨_, _, -, hrest₇⟩ := Exec.bind_ok hrest₆
  obtain ⟨_, _, -, hrest₈⟩ := Exec.bind_ok hrest₇
  obtain ⟨_, _, -, hrest₉⟩ := Exec.bind_ok hrest₈
  obtain ⟨_, _, -, hrest₁₀⟩ := Exec.bind_ok hrest₉
  obtain ⟨cert, _, -, hrest₁₁⟩ := Exec.bind_ok hrest₁₀
  obtain ⟨privKey, _, -, hlast⟩ := Exec.bind_ok hrest₁₁
  cases hlast
  obtain ⟨hpasses, line, hline, hmentions⟩ := X509Store.verifyCert_ok_iff.mp hpeer
  rw [hstore₁] at hca
  rw [hstore₂, hstore₁] at hlist
  refine ⟨caCert, crl, line, ⟨ca, hca, hcaCert⟩, ⟨list, hlist, hcrl⟩, hpasses, ?_, hmentions⟩
  cases file with
  | none => cases hline
  | some conf =>
    obtain ⟨bs, hbs, rfl⟩ := Option.map_eq_some_iff.mp hread.symm
    exact ⟨bs, Host.of_tries hbs, hline⟩

/-- Whom the files entitle depends on the trusted files only. -/
theorem Entitled.congr {pem : Pem C R S} {s s' : Store} {peer caCert : C} {crl : R} {line : Bytes}
    (h : Entitled pem s peer caCert crl line)
    (hreads : ∀ path ∈ Server.trusted, s.reads path = s'.reads path) :
    Entitled pem s' peer caCert crl line := by
  have hbytes : ∀ path ∈ Server.trusted, bytesAt s path = bytesAt s' path :=
    fun path hpath => congrArg _ (hreads path hpath)
  refine ⟨?_, ?_, h.passes, ?_, h.mentioned⟩
  · rw [← hbytes _ (by decide)]
    exact h.issuer
  · rw [← hbytes _ (by decide)]
    exact h.revocations
  · rw [← hbytes _ (by decide)]
    exact h.listed

/-- The files when a thread of the server has ended: it does not touch them before its handshake has
returned. -/
def filesAfter {K : Type} (fresh : ServerClient.Client Unit)
    (x : ServerClient.Run C K × Option (ServerClient.Client Endpoint)) : Store :=
  match x.2 with
  | none => fresh.host.store
  | some c => c.host.store

/-- **Only a listed client changes a file.**  The files that the server trusts lie apart.  After any
sessions, one after another, it starts, reads its files to their end, and serves a connection with
whatever bytes on it.  If `EVP_VerifyFinal` reports no negative value then every path is as it was, or it is one that a file name leads to under `SERVER_ROOT`,
and the client has signed the server's nonce under a certificate that the files entitled before all
these sessions. -/
theorem only_listed {K : Type} {ssl : Openssl C K S} (hdoc : ssl.Documented) {pem : Pem C R S}
    {s : Store} (hs : Apart s) (P : Primitives) (o : ByteOrder) (vs : List Visit) {h h' : Host}
    (hlimits : h.limits = []) {cm : CertManager C S}
    (hstart : (Server.new pem).run (h.on (vs.foldl (Visit.leaves P o) s)) = .ok cm h')
    {mem : Memory} {coins : ServerClient.Coins} {p : ServerClient.Run C K}
    (hrep : ServerClient.Reported ssl cm mem coins p) (buf : RecvBuffer)
    (fresh : ServerClient.Client Unit) (n : ℕ) (q : Path) :
    let s' := filesAfter fresh (ServerClient.execute ssl cm mem coins P o buf fresh n p)
    s'.get q = fresh.host.store.get q ∨
      (Reachable fresh.host.store q ∧ Left (s'.get q)) ∧
        ∃ f signature caCert crl line, ServerClient.Checks ssl cm mem coins p f signature ∧
          Entitled pem s f.clientCertificate caCert crl line ∧
          ssl.x509GetPubkey f.clientCertificate = some f.clientPublicKey ∧
          ssl.evpVerifyFinal f.clientPublicKey f.nonceServer.toList signature = 1 := by
  intro s'
  cases hend : (ServerClient.execute ssl cm mem coins P o buf fresh n p).2 with
  | none =>
    have hsame : s' = fresh.host.store := by
      show filesAfter fresh _ = _
      rw [filesAfter, hend]
    exact .inl (by rw [hsame])
  | some c =>
    have hleft : s' = c.host.store := by
      show filesAfter fresh _ = _
      rw [filesAfter, hend]
    obtain ⟨keys, p', hkeys⟩ := ServerClient.handshake_of_handlers hend
    -- the peer
    obtain ⟨f, signature, hchecks, hcertified, hkey, hone⟩ :=
      (ServerClient.handshake_exact hdoc).mpr (fun _ _ _ => hrep) keys p' hkeys
    have hlimits' : (h.on (vs.foldl (Visit.leaves P o) s)).limits = [] := hlimits
    obtain ⟨caCert, crl, line, hentitled⟩ := Server.entitled_of_new hlimits' hstart hcertified
    have hbefore := hentitled.congr (like_after hs P o vs h).reads
    -- the files
    have hreworked : fresh.host.store.Reworked (Reachable fresh.host.store) Left s' := by
      rw [hleft]
      unfold ServerClient.execute at hend
      rw [hkeys] at hend
      cases hend
      exact ServerClient.session_reworked (Transport.crypto_bounded P o) n { fresh with
        link := { session := Session.new (keys.session mem) p'.conn, buf } }
    rcases hreworked.nodes q with hsame | hchanged
    · exact .inl hsame
    · exact .inr ⟨hchanged, f, signature, caCert, crl, line, hchecks, hbefore, hkey, hone⟩

/-! ### A small server -/

/-- PEM files of one byte.  The revocation list names one certificate, and the certificate 1 is that of
the user `alice`. -/
def Pem.small : Pem Byte Byte Byte where
  readX509 := List.head?
  readX509Crl := List.head?
  readPrivateKey := List.head?
  storeNew := true
  addCert _ := 1
  addCrl _ := 1
  store _ crl :=
    { ctxNew := true
      ctxInit _ := 1
      verify cert := if cert = crl then 0 else 1
      subjectName cert := [⟨text "CN", if cert = 1 then text "alice" else text "trudy"⟩] }

/-- The working directory of a server, with one file for its clients. -/
def workingDirectory : Store where
  entries :=
    [([], .dir), ([text "conf"], .dir),
      ([text "conf", text "authorized_clients.txt"], .file (text "bruk\nalice\n")),
      ([text "cert"], .dir), ([text "cert", text "TrustedCA_cert.pem"], .file [8]),
      ([text "cert", text "TrustedCA_crl.pem"], .file [2]),
      ([text "cert", text "server_cert.pem"], .file [7]),
      ([text "cert", text "server_key.pem"], .file [7]),
      (serverRootPath, .dir), (serverRootPath ++ [text "a"], .file (text "pqr"))]
  nodup := by decide

theorem workingDirectory_apart : Apart workingDirectory := by
  have hfiles : ∀ e ∈ workingDirectory.entries, ∀ q, e.2 ≠ .link q := by
    unfold workingDirectory
    simp
  exact .of_beside (by decide) (fun p q hget => hfiles _ (Store.mem_of_get hget) q rfl)
    (by decide +kernel)

/-- A session in which a file is stored. -/
def upload : Visit where
  rounds := 3
  client := { plainClient with
    link := { session := Session.new (plainSession 9)
                { incoming := plainWire 9 (text "STOR b\nSize: 2\n\nxy") } } }

/-- The system of the server at its start. -/
def idle : Host := { store := workingDirectory }

theorem trust_survives_upload :
    Exec.outcome ((Server.new Pem.small).run
        (idle.on ([upload].foldl (Visit.leaves .sample .little) workingDirectory)))
      = Exec.outcome ((Server.new Pem.small).run (idle.on workingDirectory)) :=
  trust_survives Pem.small workingDirectory_apart .sample .little [upload] idle

/-- The certificate manager that it builds. -/
def smallManager : CertManager Byte Byte :=
  (Pem.small.store 8 2).manager [text "bruk", text "alice"] 7 7

/-- The handshake of the client with certificate 1, and a command to remove the file. -/
def removal : ServerClient.Run Byte Byte :=
  { conn := { incoming := World.plainM1 ++ frame [1, 9, 9, 9, 9] ++ plainWire 9 (text "DELE a\n\n") } }

/-- The object that serves it. -/
def newThread : ServerClient.Client Unit := { link := (), host := { store := workingDirectory } }

theorem only_listed_alice :
    ∃ f signature caCert crl line,
      ServerClient.Checks .plain smallManager (fun _ _ => 0) (World.plainServerCoins 9) removal f
          signature ∧
        Entitled Pem.small workingDirectory f.clientCertificate caCert crl line := by
  obtain ⟨h', hstart⟩ : ∃ h', (Server.new Pem.small).run
      (idle.on ([upload].foldl (Visit.leaves .sample .little) workingDirectory))
        = .ok smallManager h' := by
    have hsame := (Server.new_sameWay Pem.small _ _
      (like_after workingDirectory_apart .sample .little [upload] idle)).outcome
    exact Exec.eq_ok_of_outcome hsame
  have hrep : ServerClient.Reported .plain smallManager (fun _ _ => 0) (World.plainServerCoins 9)
      removal := by
    intro f signature _
    simp only [Openssl.plain]
    split <;> decide
  have hlisted := only_listed plain_documented workingDirectory_apart .sample .little [upload] rfl hstart
    hrep {} newThread 3 (serverRootPath ++ [text "a"])
  rcases hlisted with hsame | ⟨-, f, signature, caCert, crl, line, hchecks, hentitled, -, -⟩
  · exact absurd hsame (by decide +kernel)
  · exact ⟨f, signature, caCert, crl, line, hchecks, hentitled⟩

end Cybrg
