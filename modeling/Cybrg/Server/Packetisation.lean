import Cybrg.Server.Streaming
import Cybrg.Sessions.Carried

/-!
# How the requests of a client are cut into packets

A client may send its requests and bodies in packets of any size.  The server that reads them does
not notice.

* `Client.connected` — a server at the beginning of its loop, with what has arrived;
* `packetisation` — two ways to cut a stream make no difference to what the server answers and to
  its files.
-/

namespace Cybrg

open Octets Files

namespace ServerClient

/-- Two servers on `Crypto`, each in a process of its own. -/
def cryptoPairing (P : Primitives) (o : ByteOrder) (authKey : Tag) (a a' : Session)
    (sent sent' : List Bytes) : Pairing Endpoint SendHalf Endpoint SendHalf where
  t := Transport.crypto P o
  holds := Duplex.Holding P o authKey a sent
  half := Endpoint.sendHalf
  carries := crypto_carries P o authKey a sent
  t' := Transport.crypto P o
  holds' := Duplex.Holding P o authKey a' sent'
  half' := Endpoint.sendHalf
  carries' := crypto_carries P o authKey a' sent'
  same _ := Eq
  spent _ _ := False
  sends := crypto_sendsAlike P o authKey a a' sent sent'

/-- A server with the keys of a session, when the bytes `wire` have arrived; its next calls of
`::send` return `rets`. -/
def Client.connected (c : Client Unit) (k : SessionKeys) (rets : List ℤ) (wire : Bytes) :
    Client Endpoint :=
  c.withLink (Endpoint.new k { incoming := wire, sendRets := rets })

variable {P : Primitives} {o : ByteOrder}

/-- Two ends of a session of the server in which nothing is excused. -/
theorem Follows.ends {τ γ τ' γ' : Type} {d : Pairing τ γ τ' γ'} (hspent : ∀ ps x, ¬ d.spent ps x)
    {α : Type} {m : EStateM Ex (Client τ) α} {m' : EStateM Ex (Client τ') α}
    (h : Follows d [] m m') {c : Client τ} {c' : Client τ'} (hc : Beside d [] c c') :
    Exec.threw (m.run c) = Exec.threw (m'.run c') ∧
      Alike d (Exec.endState (m.run c)) (Exec.endState (m'.run c')) := by
  have hnot : ∀ c₁ c₂, ¬ Overtaken d [] c₁ c₂ := by
    intro c₁ c₂ hover
    rcases hover.2 with hmore | hsp
    · exact hmore rfl
    · exact hspent _ _ hsp
  cases hr : m.run c with
  | ok a c₁ =>
    obtain ⟨a', c₂, hr', -, hbeside⟩ := h.both.of_ok hc hr
    rw [hr']
    exact ⟨rfl, hbeside.1⟩
  | error e c₁ =>
    rcases h.both.of_error hc hr with ⟨e', c₂, hr', hparted⟩ | ⟨a', c₂, -, hover⟩
    · rw [hr']
      exact ⟨rfl, hparted.resolve_left (hnot c₁ c₂)⟩
    · exact absurd hover (hnot c₁ c₂)

/-- **Packetisation.**  A client sends the same stream twice, cut into packets of 1 to `BUFFER_SIZE`
bytes in two ways, where its calls of `Crypto::send` return.  Then the server, started on the same
files, takes the same way through its loop: after any number of rounds it has stopped in both cases
or in neither, has given the same replies to `Crypto::send` and the same bytes to the network, and
has the same files. -/
theorem packetisation (P : Primitives) (o : ByteOrder) (k : SessionKeys) {ps ps' : List Bytes}
    (hfits : ∀ p ∈ ps, Fits p) (hfits' : ∀ p ∈ ps', Fits p) (hsame : ps.flatten = ps'.flatten)
    {ns ns' : List ℤ} {a a' : Session}
    (hrun : (ps.mapM (Crypto.send P o)).run (Session.new k) = .ok ns a)
    (hrun' : (ps'.mapM (Crypto.send P o)).run (Session.new k) = .ok ns' a')
    (c : Client Unit) (rets : List ℤ) (n : ℕ) :
    let r := (serve (.crypto P o) n).run (c.connected k rets a.conn.outgoing)
    let r' := (serve (.crypto P o) n).run (c.connected k rets a'.conn.outgoing)
    Exec.threw r = Exec.threw r' ∧ (Exec.endState r).rest = (Exec.endState r').rest ∧
      (Exec.endState r).packets = (Exec.endState r').packets ∧
      (Exec.endState r).link.session.conn.outgoing
        = (Exec.endState r').link.session.conn.outgoing ∧
      (Exec.endState r).host.store = (Exec.endState r').host.store := by
  let d := cryptoPairing P o k.authKey { a with conn := a.conn.taken }
    { a' with conn := a'.conn.taken } ps ps'
  have hbeside : Beside d [] (c.connected k rets a.conn.outgoing)
      (c.connected k rets a'.conn.outgoing) := by
    refine ⟨⟨rfl, rfl⟩, ps.flatten, Duplex.Holding.of_sends k hfits hrun rets, ?_⟩
    rw [List.append_nil, hsame]
    exact Duplex.Holding.of_sends k hfits' hrun' rets
  have hserve : Follows d [] (serve (.crypto P o) n) (serve (.crypto P o) n) := serve_follows n
  obtain ⟨hthrew, hrest, hhalf⟩ := hserve.ends (fun _ _ => id) hbeside
  simp only [d, cryptoPairing, Endpoint.sendHalf, Station.sendHalf, Prod.mk.injEq] at hhalf
  have hpackets := congrArg Client.packets hrest
  have hstore := congrArg (fun r : Client Unit => r.host.store) hrest
  exact ⟨hthrew, hrest, hpackets, hhalf.2.2.2.2.2, hstore⟩

/-- What a client hands over when it sends the plaintexts `ps`. -/
def wireOf (P : Primitives) (o : ByteOrder) (k : SessionKeys) (ps : List Bytes) : Bytes :=
  (Exec.endState ((ps.mapM (Crypto.send P o)).run (Session.new k))).conn.outgoing

/-- A server with one file. -/
def oneFile : Client Unit where
  link := ()
  host := { store :=
    { entries := [([], .dir), (serverRootPath, .dir), (serverRootPath ++ [text "a"], .file (text "xy"))]
      nodup := by decide } }

/-- A download and an upload in one packet, and in six. -/
theorem packetisation_six :
    (Exec.endState ((serve (.crypto .sample .little) 2).run (oneFile.connected (.sample 1) []
        (wireOf .sample .little (.sample 1)
          [text "RETR a\n\nSTOR b\nSize: 4\n\nword"])))).host.store
      = (Exec.endState ((serve (.crypto .sample .little) 2).run (oneFile.connected (.sample 1) []
        (wireOf .sample .little (.sample 1) [text "RE", text "TR a\n", text "\nSTOR b\nSize: 4",
          text "\n\n", text "wo", text "rd"])))).host.store := by
  have hsent : Exec.outcome (([text "RETR a\n\nSTOR b\nSize: 4\n\nword"].mapM
      (Crypto.send .sample .little)).run (Session.new (.sample 1))) = .ok [104] := by
    decide +kernel
  have hsent' : Exec.outcome (([text "RE", text "TR a\n", text "\nSTOR b\nSize: 4",
      text "\n\n", text "wo", text "rd"].mapM
      (Crypto.send .sample .little)).run (Session.new (.sample 1)))
        = .ok [78, 81, 91, 78, 78, 78] := by
    decide +kernel
  obtain ⟨a, ha⟩ := Exec.eq_ok_of_outcome hsent
  obtain ⟨a', ha'⟩ := Exec.eq_ok_of_outcome hsent'
  have h := packetisation .sample .little (.sample 1) (by decide) (by decide) (by decide) ha ha'
    oneFile [] 2
  rw [wireOf, wireOf, ha, ha']
  exact h.2.2.2.2

end ServerClient

end Cybrg
