import Cybrg.Client.Streaming
import Cybrg.Conversation.AnyNetwork

/-!
# A client whose network belongs to an attacker

Any bytes can reach the client of a session as well.

* `Globals.connected` — a client at its first prompt, with what will arrive;
* `Heard` — a client beside one that reads a string;
* `lines_authentic` — as long as its packets fit, the client does what a client on a string does with the
  authentic bytes, and what it writes to the network are its own packets.
-/

namespace Cybrg

open Octets

variable {P : Primitives} {o : ByteOrder}

namespace ClientMain

/-- A client with the keys of a session, when the bytes `wire` are to arrive. -/
def Globals.connected (g : Globals Unit) (k : SessionKeys) (wire : Bytes) : Globals Endpoint :=
  g.withLink (Endpoint.new k { incoming := wire })

/-- A client on `Crypto` has done what one on a string has done, or has used up its numbers. -/
structure Heard (P : Primitives) (o : ByteOrder) (k : SessionKeys) (p : Prompt Endpoint)
    (p' : Prompt Bytes) : Prop where
  half : p.globals.link.sendHalf = Crypto.sentHalf P o k p.globals.packets
  sent : p.globals.packets <+: p'.globals.packets
  same : p.globals.packets.length = 2 ^ 31 ∨ (p.running = p'.running ∧
    p.globals.host = p'.globals.host ∧ p.globals.packets = p'.globals.packets) ∧
      p.globals.packets.length < 2 ^ 31

theorem Heard.of_level {k : SessionKeys} {g : Globals Endpoint} {g' : Globals Bytes}
    (h : Level (ServerClient.authenticPairing P o k) g g') (running : Bool) :
    Heard P o k ⟨running, g⟩ ⟨running, g'⟩ := by
  obtain ⟨hhost, hpackets, hhalf, hlt⟩ := h
  exact ⟨hhalf, hpackets ▸ List.prefix_rfl, .inr ⟨⟨rfl, hhost, hpackets⟩, hlt⟩⟩

theorem Heard.of_abreast {k : SessionKeys} {p : Prompt Endpoint} {p' : Prompt Bytes}
    (h : Abreast (ServerClient.authenticPairing P o k) p p') : Heard P o k p p' := by
  cases h with
  | waiting h => exact .of_level h.level true
  | stopped h => exact .of_level h false
  | passed h => exact ⟨h.2.1, h.1, .inl h.2.2⟩

/-- The client on any end beside the client on the authentic bytes. -/
theorem heard_authentic (P : Primitives) (o : ByteOrder) (k : SessionKeys) (wire : Bytes)
    {g : Globals Unit} (hg : g.packets = []) (lines : List (Option Bytes)) :
    Heard P o k (Machine.run (Prompt.step (.crypto P o)) ⟨true, g.connected k wire⟩ lines).1
      (Machine.run (Prompt.step .plain)
        ⟨true, g.withLink (ServerClient.authenticBytes P o k wire)⟩ lines).1 := by
  let d := ServerClient.authenticPairing P o k
  have hnear : Near d Anyhow (g.connected k wire)
      (g.withLink (ServerClient.authenticBytes P o k wire)) := by
    refine ⟨⟨rfl, rfl, ?_⟩, ⟨ServerClient.authenticBytes P o k wire, ⟨.initial, rfl⟩, rfl⟩, trivial⟩
    have hpackets : (g.connected k wire).packets = [] := hg
    rw [hpackets]
    exact ⟨rfl, by decide⟩
  exact .of_abreast (lines_abreast (d := d) (.waiting hnear) lines)

/-- **Any network.**  Whatever bytes reach the client of a session, after any lines that ask for nothing
longer than the array of `Crypto::send` it has given `Crypto::send` what a client on a string gives it
that reads the authentic bytes, or the first `2 ^ 31` packets of it; these packets fit, and they are all
that it has written to the network; and before they are used up both clients have the same files and
wait for a line, or neither does. -/
theorem lines_authentic (P : Primitives) (o : ByteOrder) (k : SessionKeys) (wire : Bytes)
    (g : Globals Unit) (hg : g.packets = []) (lines : List (Option Bytes)) :
    let p := (Machine.run (Prompt.step (.crypto P o)) ⟨true, g.connected k wire⟩ lines).1
    let p' := (Machine.run (Prompt.step .plain)
      ⟨true, g.withLink (ServerClient.authenticBytes P o k wire)⟩ lines).1
    (∀ q ∈ p'.globals.packets, q.length ≤ bufferSize) →
      p.globals.packets <+: p'.globals.packets ∧ (∀ q ∈ p.globals.packets, q.length ≤ bufferSize) ∧
        p.globals.packets.length ≤ 2 ^ 31 ∧
        p.globals.link.session.conn.outgoing = Crypto.wire P o k p.globals.packets ∧
        (p.globals.packets.length < 2 ^ 31 → p.running = p'.running ∧
          p.globals.host = p'.globals.host ∧ p.globals.packets = p'.globals.packets) := by
  intro p p' hfits
  have h := heard_authentic P o k wire hg lines
  have hhalf := h.half
  simp only [Endpoint.sendHalf, Station.sendHalf, Crypto.sentHalf, Prod.mk.injEq] at hhalf
  refine ⟨h.sent, fun q hq => hfits q (h.sent.subset hq), ?_, hhalf.2.2.2.2.2, fun hlt => ?_⟩
  · rcases h.same with hfull | ⟨-, hlt⟩
    · exact hfull.le
    · exact hlt.le
  · rcases h.same with hfull | ⟨hsame, -⟩
    · exact absurd hfull hlt.ne
    · exact hsame

/-- A client with a directory for downloads. -/
def downloader : Globals Unit where
  link := ()
  host := (promptFrom []).host

/-- The reply to a request for a file, of which the first packet comes twice. -/
def repeatedReply : Bytes :=
  (ServerClient.wireOf .sample .little (.sample 1) [sizeReply 4]) ++
    ServerClient.wireOf .sample .little (.sample 1) [sizeReply 4, text "word"]

theorem lines_authentic_repeated :
    let p := (Machine.run (Prompt.step (.crypto .sample .little))
      ⟨true, downloader.connected (.sample 1) repeatedReply⟩ [some (text "get a"), some (text "rls")]).1
    let p' := (Machine.run (Prompt.step .plain)
      ⟨true, downloader.withLink (ServerClient.authenticBytes .sample .little (.sample 1)
        repeatedReply)⟩ [some (text "get a"), some (text "rls")]).1
    p.globals.packets <+: p'.globals.packets ∧ (∀ q ∈ p.globals.packets, q.length ≤ bufferSize) ∧
      p.globals.packets.length ≤ 2 ^ 31 ∧
      p.globals.link.session.conn.outgoing
        = Crypto.wire .sample .little (.sample 1) p.globals.packets ∧
      (p.globals.packets.length < 2 ^ 31 → p.running = p'.running ∧
        p.globals.host = p'.globals.host ∧ p.globals.packets = p'.globals.packets) :=
  lines_authentic .sample .little (.sample 1) repeatedReply downloader rfl
    [some (text "get a"), some (text "rls")] (by decide +kernel)

end ClientMain

end Cybrg
