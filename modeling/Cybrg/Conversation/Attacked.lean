import Cybrg.Conversation.AttackedClient
import Cybrg.Conversation.Errands

/-!
# Both programs under attack

An attacker decides which bytes reach the client and which reach the server.

* `Globals.ends` — a client behind its lines, with what it reads given at once;
* `Outcome` — what the lines have done to the files on both sides;
* `Parts.outcome` — each program reads a part of what the other one has sent;
* `attacked_session` — the same for any bytes, if each end finds only tags of the other one right.
-/

namespace Cybrg

open Octets Streams Files
open ServerClient hiding onLink onHost sendCmd onLink_of_ok onHost_of_ok cmdStor_refused
  cmdRetr_refused dispatch sendCmd_plain Grows grows_path

variable {P : Primitives} {o o' : ByteOrder}

namespace ClientMain

/-! ### A client behind its lines -/

/-- Where the client comes to if this is all that it reads. -/
def Globals.ends (g : Globals Unit) (lines : List (Option Bytes)) (u : Bytes) : Prompt Bytes :=
  (Machine.run (Prompt.step .plain) ⟨true, g.withLink u⟩ lines).1

theorem Prompt.run_stopped {τ : Type} (t : Transport τ) (g : Globals τ) (lines : List (Option Bytes)) :
    (Machine.run (Prompt.step t) ⟨false, g⟩ lines).1 = ⟨false, g⟩ := by
  induction lines with
  | nil => rfl
  | cons line lines ih => exact ih

section Ends

variable {g g₁ : Globals Unit} {v : Globals Bytes} {line : Option Bytes} {u u' : Bytes}

theorem ends_ok (hrun : (round .plain line).run (g.withLink u) = .ok true (g₁.withLink u'))
    (lines : List (Option Bytes)) : g.ends (line :: lines) u = g₁.ends lines u' := by
  show (Machine.run (Prompt.step .plain) (Prompt.step .plain ⟨true, g.withLink u⟩ line).1 lines).1 = _
  rw [Prompt.step, if_pos rfl, hrun]
  rfl

theorem ends_stopped (hrun : (round .plain line).run (g.withLink u) = .ok false v)
    (lines : List (Option Bytes)) : g.ends (line :: lines) u = ⟨false, v⟩ := by
  show (Machine.run (Prompt.step .plain) (Prompt.step .plain ⟨true, g.withLink u⟩ line).1 lines).1 = _
  rw [Prompt.step, if_pos rfl, hrun]
  exact Prompt.run_stopped .plain v lines

theorem ends_error {e : Ex} (hrun : (round .plain line).run (g.withLink u) = .error e v)
    (lines : List (Option Bytes)) : g.ends (line :: lines) u = ⟨false, v⟩ := by
  show (Machine.run (Prompt.step .plain) (Prompt.step .plain ⟨true, g.withLink u⟩ line).1 lines).1 = _
  rw [Prompt.step, if_pos rfl, hrun]
  exact Prompt.run_stopped .plain v lines

theorem round_grows (line : Option Bytes) : Grows (round .plain line) := by
  have hround : ClientMain.Follows ServerClient.plainPairing Anyhow Anyhow (round .plain line)
    (round .plain line) := round_follows line
  exact hround.grows []

/-- What was sent stays, line after line. -/
theorem ends_grows (g : Globals Unit) (lines : List (Option Bytes)) (u : Bytes) :
    g.packets <+: (g.ends lines u).globals.packets := by
  refine (Machine.invariant_run (C := fun _ _ => True)
    (I := fun p : Prompt Bytes => g.packets <+: p.globals.packets) ?_ List.prefix_rfl
    (Machine.meets_true lines))
  intro p line hp _
  rw [Prompt.step]
  split
  · have hround := round_grows line p.globals
    cases hrun : (round .plain line).run p.globals <;>
    · rw [hrun] at hround
      exact hp.trans hround
  · exact hp

/-- The request of a line is the first that is sent. -/
theorem Sends.first {request : Bytes} (h : Sends g line request) (w : Waiting g)
    (lines : List (Option Bytes)) (u : Bytes) :
    g.packets ++ [request] <+: (g.ends (line :: lines) u).globals.packets := by
  obtain ⟨next, h₁, hasks⟩ := h.asks w
  have hfirst := hasks.first u
  cases hrun : (round .plain line).run (g.withLink u) with
  | ok more v =>
    rw [hrun] at hfirst
    cases more with
    | true =>
      have hv : (v.withLink ()).withLink v.link = v := rfl
      rw [← hv] at hrun
      rw [ends_ok hrun]
      exact hfirst.trans (ends_grows (v.withLink ()) lines v.link)
    | false =>
      rw [ends_stopped hrun]
      exact hfirst
  | error e v =>
    rw [hrun] at hfirst
    rw [ends_error hrun]
    exact hfirst

/-- The client waits again. -/
theorem Waiting.next (w : Waiting g) {more : Bool}
    (hrun : (round .plain line).run (g.withLink u) = .ok more (g₁.withLink u'))
    (htidy : ClientTidy g₁.host.store) : Waiting g₁ := by
  have hsince := round_since .plain line (g.withLink u)
  rw [hrun] at hsince
  exact ⟨w.willing.since hsince, htidy⟩

/-- **A client that reads nothing** changes no file, and if it does not stop its lines ask for
nothing. -/
theorem ends_nil (w : Waiting g) {lines : List (Option Bytes)}
    (horderly : ∀ line ∈ lines, Orderly (lineWords line).1 (lineWords line).2) :
    (g.ends lines []).globals.host.store = g.host.store ∧ ((g.ends lines []).running = true →
      ∀ cmd ∈ lines.map asked, Mirror.Idle sendable (fileAt g.host.store) cmd) := by
  induction lines generalizing g with
  | nil => exact ⟨rfl, fun _ cmd hcmd => by cases hcmd⟩
  | cons line lines ih =>
    rw [List.forall_mem_cons] at horderly
    obtain ⟨hline, hlater⟩ := horderly
    rcases stays_or_sends w hline with hstays | ⟨request, hsends⟩
    · obtain ⟨g₁, hrun, -, hstore⟩ := hstays.run []
      obtain ⟨hfiles, hidle⟩ := ih (w.next hrun (hstore ▸ w.tidy)) hlater
      rw [hstore] at hfiles hidle
      rw [ends_ok hrun]
      refine ⟨hfiles, fun hrunning cmd hcmd => ?_⟩
      rcases List.mem_cons.mp hcmd with rfl | hcmd
      · exact hstays.idle
      · exact hidle hrunning cmd hcmd
    · obtain ⟨next, h₁, hasks⟩ := hsends.asks w
      obtain ⟨e, v, hrun, -, hstore⟩ := hasks.waits (u := []) rfl
      rw [ends_error hrun]
      exact ⟨hstore, fun hrunning => by cases hrunning⟩

end Ends

/-! ### A server behind its rounds -/

section Rounds

variable {c c₁ : Client Unit} {x y : Bytes}

/-- A server that reads nothing. -/
theorem after_nil (c : Client Unit) (n : ℕ) :
    (Loop.after .plain n ⟨true, c.withLink []⟩).client.packets = c.packets ∧
      (Loop.after .plain n ⟨true, c.withLink []⟩).client.host = c.host := by
  cases n with
  | zero => exact ⟨rfl, rfl⟩
  | succ n =>
    obtain ⟨e, d, hrun, hpackets, hhost⟩ := iteration_of_nil c
    rw [Loop.after_error hrun]
    exact ⟨hpackets, hhost⟩

/-- What the first round sends stays. -/
theorem first_packets (c : Client Unit) (n : ℕ) (x : Bytes) :
    (Exec.endState ((iteration .plain).run (c.withLink x))).packets <+: plainPackets c (n + 1) x := by
  show _ <+: (Loop.after .plain n (Loop.step .plain ⟨true, c.withLink x⟩ ()).1).client.packets
  have hgrows := Loop.after_packets iteration_grows n (Loop.step .plain ⟨true, c.withLink x⟩ ()).1
  rw [Loop.step, if_pos rfl] at hgrows ⊢
  cases hrun : (iteration .plain).run (c.withLink x) <;>
  · rw [hrun] at hgrows
    exact hgrows

theorem after_iteration {more : Bool}
    (hrun : (iteration .plain).run (c.withLink x) = .ok more (c₁.withLink y)) (n : ℕ) :
    Loop.after .plain (n + 1) ⟨true, c.withLink x⟩ = Loop.after .plain n ⟨more, c₁.withLink y⟩ := by
  show Loop.after .plain n (Loop.step .plain ⟨true, c.withLink x⟩ ()).1 = _
  rw [Loop.step, if_pos rfl, hrun]

end Rounds

/-! ### Both -/

/-- What the lines have done to the files, when client and server have come to these states: all
commands up to some one, and if the client still waits for a line, all of them but for a part of the
last upload. -/
structure Outcome (g : Globals Unit) (c : Client Unit) (lines : List (Option Bytes)) (p : Prompt Bytes)
    (d : Client Bytes) : Prop where
  cut : Mirror.Cut sendable (· <+: ·) (view g.host.store c.host.store) (lines.map asked)
    (view p.globals.host.store d.host.store)
  behind : p.running = true → Mirror.Behind (· <+: ·)
    (Mirror.run sendable (view g.host.store c.host.store) (lines.map asked))
    (view p.globals.host.store d.host.store)

/-- Each program reads a part of what the other one has sent. -/
structure Parts (g : Globals Unit) (c : Client Unit) (lines : List (Option Bytes)) (n : ℕ)
    (x u : Bytes) : Prop where
  requests : g.packets.flatten ++ x <+: (g.ends lines u).globals.packets.flatten
  replies : c.packets.flatten ++ u <+: (plainPackets c n x).flatten
  fits : ∀ p ∈ plainPackets c n x, p.length ≤ bufferSize

/-- The client, as somebody who reads and writes. -/
def asker (g : Globals Unit) (lines : List (Option Bytes)) : Trips.Party Byte where
  said := g.packets.flatten
  wrote u := (g.ends lines u).globals.packets.flatten

/-- The server. -/
def answerer (c : Client Unit) (n : ℕ) : Trips.Party Byte where
  said := c.packets.flatten
  wrote x := (plainPackets c n x).flatten

section Both

variable {g g₁ : Globals Unit} {c c₁ : Client Unit} {line : Option Bytes}
  {lines : List (Option Bytes)} {request : Bytes} {n : ℕ} {x y u : Bytes}

/-- A line that was carried out. -/
theorem Outcome.cons {p : Prompt Bytes} {d : Client Bytes} (h : Outcome g₁ c₁ lines p d)
    (hview : view g₁.host.store c₁.host.store
      = Mirror.step sendable (view g.host.store c.host.store) (asked line)) :
    Outcome g c (line :: lines) p d := by
  obtain ⟨hcut, hbehind⟩ := h
  rw [hview] at hcut hbehind
  exact ⟨hcut.cons, hbehind⟩

/-- A line behind which the client has stopped. -/
theorem Outcome.stopped {v : Globals Bytes} {d : Client Bytes}
    (h : Halfway (view g.host.store c.host.store) line (view v.host.store d.host.store))
    (lines : List (Option Bytes)) : Outcome g c (line :: lines) ⟨false, v⟩ d :=
  ⟨h.append (lines.map asked), fun hrunning => by cases hrunning⟩

/-- **A request that does not arrive**: the client waits for a reply. -/
theorem outcome_unheard (w : Waiting g) (hsends : Sends g line request)
    (hparts : Parts g c (line :: lines) n x u) (hsilent : plainPackets c n x = c.packets)
    {d : Client Bytes} (hstore : d.host.store = c.host.store) :
    Outcome g c (line :: lines) (g.ends (line :: lines) u) d := by
  have hreplies := hparts.replies
  rw [hsilent] at hreplies
  have hlen := hreplies.length_le
  rw [List.length_append] at hlen
  obtain rfl : u = [] := List.length_eq_zero_iff.mp (by omega)
  obtain ⟨next, h₁, hasks⟩ := hsends.asks w
  obtain ⟨e, v, hrun, -, hfiles⟩ := hasks.waits (u := []) rfl
  rw [ends_error hrun]
  refine .stopped ?_ lines
  rw [hfiles, hstore]
  exact .nothing _

/-- The client has stopped behind its request. -/
theorem asker_waits {e : Ex} {v : Globals Bytes}
    (hrun : (round .plain line).run (g.withLink u) = .error e v)
    (hpackets : v.packets = g.packets ++ [request]) (lines : List (Option Bytes)) :
    (asker g (line :: lines)).wrote u = (asker g (line :: lines)).said ++ request := by
  show (g.ends (line :: lines) u).globals.packets.flatten = g.packets.flatten ++ request
  rw [ends_error hrun]
  show v.packets.flatten = _
  rw [hpackets, List.flatten_append, List.flatten_singleton]

/-- The server has replied in its first round. -/
theorem answerer_replies {reply : List Bytes}
    (hround : (Exec.endState ((iteration .plain).run (c.withLink x))).packets = c.packets ++ reply)
    (n : ℕ) : (answerer c (n + 1)).said ++ reply.flatten <+: (answerer c (n + 1)).wrote x := by
  have hgrows := (first_packets c n x).flatten
  rw [hround, List.flatten_append] at hgrows
  exact hgrows

namespace Errand

variable {reply : List Bytes} {more : Bool}

theorem trip (h : Errand g c line request reply more c₁) (lines : List (Option Bytes)) (n : ℕ) :
    Trips.Trip (asker g (line :: lines)) (answerer c (n + 1)) request reply.flatten [] := by
  refine ⟨fun u hu hne => ?_, fun u => ?_, fun y => ?_, fun y hy hne => absurd (List.prefix_nil.mp hy) hne⟩
  · obtain ⟨e, v, hrun, hpackets, -⟩ := h.cut u hu hne
    exact asker_waits hrun hpackets lines
  · obtain ⟨g₁, hrun, hpackets, -⟩ := h.goes u
    show _ <+: (g.ends (line :: lines) (reply.flatten ++ u)).globals.packets.flatten
    have hgrows : g₁.packets <+: (g.ends (line :: lines) (reply.flatten ++ u)).globals.packets := by
      cases more with
      | true =>
        rw [ends_ok hrun]
        exact ends_grows g₁ lines u
      | false =>
        rw [ends_stopped hrun]
        exact List.prefix_rfl
    rw [hpackets] at hgrows
    have hflat := hgrows.flatten
    rw [List.flatten_append, List.flatten_singleton] at hflat
    rw [List.append_nil]
    exact hflat
  · refine answerer_replies ?_ n
    rw [h.serves y]
    exact h.packets

/-- **A line without a body.** -/
theorem outcome (h : Errand g c line request reply more c₁) (w : Waiting g)
    (hparts : Parts g c (line :: lines) (n + 1) (request ++ y) u)
    (ih : ∀ {g₁ : Globals Unit} {x' u' : Bytes}, Waiting g₁ → Parts g₁ c₁ lines n x' u' →
      Outcome g₁ c₁ lines (g₁.ends lines u') (Loop.after .plain n ⟨true, c₁.withLink x'⟩).client) :
    Outcome g c (line :: lines) (g.ends (line :: lines) u)
      (Loop.after .plain (n + 1) ⟨true, c.withLink (request ++ y)⟩).client := by
  rw [after_iteration (h.serves y)]
  rcases (h.trip lines n).cut hparts.requests hparts.replies with ⟨hpart, hne, rfl⟩ |
    ⟨-, hpart, hne⟩ | ⟨u', y', rfl, rfl⟩
  · -- the client waits for the rest of the reply
    obtain ⟨e, v, hrun, -, hhalf⟩ := h.cut u hpart hne
    have hstore : (Loop.after .plain n ⟨more, c₁.withLink []⟩).client.host.store = c₁.host.store := by
      cases more with
      | true => rw [(after_nil c₁ n).2]
      | false =>
        rw [Loop.after_stopped]
        rfl
    rw [ends_error hrun]
    refine .stopped ?_ lines
    rw [hstore]
    exact hhalf
  · exact absurd (List.prefix_nil.mp hpart) hne
  · obtain ⟨g₁, hrun, hpackets, htidy, hview⟩ := h.goes u'
    cases more with
    | false =>
      -- a request to end the session
      rw [ends_stopped hrun, Loop.after_stopped]
      refine .stopped ?_ lines
      show Halfway _ line (view g₁.host.store c₁.host.store)
      rw [hview]
      exact .one _ []
    | true =>
      have hsent : g₁.packets.flatten = g.packets.flatten ++ request := by
        rw [hpackets, List.flatten_append, List.flatten_singleton]
      have hreplied : c₁.packets.flatten = c.packets.flatten ++ reply.flatten := by
        rw [h.packets, List.flatten_append]
      obtain ⟨hrequests, hreplies, hfits⟩ := hparts
      rw [plainPackets, after_iteration (h.serves _)] at hreplies hfits
      rw [ends_ok hrun] at hrequests ⊢
      rw [← List.append_assoc, ← hsent] at hrequests
      rw [← List.append_assoc, ← hreplied] at hreplies
      exact (ih (w.next hrun htidy) ⟨hrequests, hreplies, hfits⟩).cons hview

end Errand

namespace Upload

variable {name : Name} {content : Bytes}

theorem trip (h : Upload g c line request name content c₁) (lines : List (Option Bytes)) (n : ℕ) :
    Trips.Trip (asker g (line :: lines)) (answerer c (n + 1)) request Status.ok.reply content := by
  refine ⟨fun u hu hne => ?_, fun u => ?_, fun y => ?_, fun y hy hne => ?_⟩
  · obtain ⟨e, v, hrun, hpackets, -⟩ := h.cut u hu hne
    exact asker_waits hrun hpackets lines
  · obtain ⟨g₁, hrun, hsent, -⟩ := h.goes u
    show _ <+: (g.ends (line :: lines) (Status.ok.reply ++ u)).globals.packets.flatten
    have hgrows := (ends_grows g₁ lines u).flatten
    rw [hsent] at hgrows
    rw [ends_ok hrun]
    exact hgrows
  · have hreplies := answerer_replies (h.replies y) n
    rw [List.flatten_singleton] at hreplies
    exact hreplies
  · obtain ⟨e, d, hrun, hpackets, -⟩ := h.part y hy hne
    show (plainPackets c (n + 1) (request ++ y)).flatten = c.packets.flatten ++ Status.ok.reply
    rw [plainPackets, Loop.after_error hrun]
    show d.packets.flatten = _
    rw [hpackets, List.flatten_append, List.flatten_singleton]

/-- **A line with a body.** -/
theorem outcome {place : Path} (h : Upload g c line request name content c₁)
    (hasked : asked line = .put place name) (hfile : fileAt g.host.store place = some content)
    (hsendable : sendable content = true) (w : Waiting g)
    (horderly : ∀ line ∈ lines, Orderly (lineWords line).1 (lineWords line).2)
    (hparts : Parts g c (line :: lines) (n + 1) (request ++ y) u)
    (ih : ∀ {g₁ : Globals Unit} {x' u' : Bytes}, Waiting g₁ → Parts g₁ c₁ lines n x' u' →
      Outcome g₁ c₁ lines (g₁.ends lines u') (Loop.after .plain n ⟨true, c₁.withLink x'⟩).client) :
    Outcome g c (line :: lines) (g.ends (line :: lines) u)
      (Loop.after .plain (n + 1) ⟨true, c.withLink (request ++ y)⟩).client := by
  have hhome : (view g.host.store c.host.store).home place = some content := hfile
  -- what there is when a part of the file has been stored
  have hbegun : ∀ {piece : Bytes}, piece <+: content → Mirror.Begun sendable (· <+: ·)
      (view g.host.store c.host.store) (.put place name)
      (view g.host.store (c.host.store.set (keptAt name) (.file piece))) := by
    intro piece hpiece
    rw [view_set_server]
    exact .put hhome hsendable hpiece
  rcases (h.trip lines n).cut hparts.requests hparts.replies with ⟨hpart, hne, rfl⟩ |
    ⟨rfl, hpart, hne⟩ | ⟨u', y', rfl, rfl⟩
  · -- the client waits for the reply, and the server for the file
    obtain ⟨e, v, hrun, -, hsame⟩ := h.cut u hpart hne
    have hstore : (Loop.after .plain (n + 1) ⟨true, c.withLink (request ++ [])⟩).client.host.store
        = c.host.store.set (keptAt name) (.file []) := by
      by_cases hnil : content = []
      · have hserves := h.serves []
        rw [hnil, List.nil_append] at hserves
        rw [after_iteration hserves, (after_nil c₁ n).2, h.stored, hnil]
      · obtain ⟨e, d, hrun, -, hstore⟩ := h.part [] List.nil_prefix (Ne.symm hnil)
        rw [Loop.after_error hrun, hstore]
    rw [ends_error hrun]
    refine .stopped ?_ lines
    rw [hsame, hstore]
    exact .begun (hasked ▸ hbegun List.nil_prefix) []
  · -- the server waits for the rest of the file
    obtain ⟨g₁, hrun, -, hsame⟩ := h.goes []
    rw [List.append_nil] at hrun
    obtain ⟨e, d, hserver, -, hstore⟩ := h.part y hpart hne
    obtain ⟨hfiles, hidle⟩ := ends_nil (w.next hrun (hsame ▸ w.tidy)) horderly
    rw [hsame] at hfiles hidle
    rw [ends_ok hrun, Loop.after_error hserver]
    refine ⟨?_, fun hrunning => ?_⟩
    · rw [hfiles, hstore, List.map_cons, hasked]
      exact .begun (hbegun hpart) _
    · rw [hfiles, hstore, List.map_cons, hasked]
      show Mirror.Behind _ (Mirror.run sendable (Mirror.step sendable _ (.put place name))
        (lines.map asked)) _
      have hbehind := Mirror.Behind.of_begun (hbegun hpart)
      rw [Mirror.step_put hhome hsendable] at hbehind ⊢
      show Mirror.Behind _ (Mirror.run sendable ⟨fileAt g.host.store, _⟩ (lines.map asked)) _
      rw [Mirror.run_idle (hidle hrunning)]
      exact hbehind
  · obtain ⟨g₁, hrun, hsent, hsame⟩ := h.goes u'
    have hreplied : c₁.packets.flatten = c.packets.flatten ++ Status.ok.reply := by
      rw [h.packets, List.flatten_append, List.flatten_singleton]
    obtain ⟨hrequests, hreplies, hfits⟩ := hparts
    rw [plainPackets, after_iteration (h.serves _)] at hreplies hfits
    rw [ends_ok hrun] at hrequests ⊢
    rw [after_iteration (h.serves _)]
    rw [← List.append_assoc, ← List.append_assoc, List.append_assoc _ request, ← hsent] at hrequests
    rw [← List.append_assoc, ← hreplied] at hreplies
    refine (ih (w.next hrun (hsame ▸ w.tidy)) ⟨hrequests, hreplies, hfits⟩).cons ?_
    rw [hsame, h.stored, view_set_server, hasked, Mirror.step_put hhome hsendable]

end Upload

/-- **Lines and rounds on parts.** -/
theorem Parts.outcome (h : Ready c) (w : Waiting g)
    (horderly : ∀ line ∈ lines, Orderly (lineWords line).1 (lineWords line).2)
    (hparts : Parts g c lines n x u) :
    Outcome g c lines (g.ends lines u) (Loop.after .plain n ⟨true, c.withLink x⟩).client := by
  induction lines generalizing g c n x u with
  | nil =>
    have hrequests := hparts.requests
    have hlen := hrequests.length_le
    have hends : (g.ends [] u).globals.packets = g.packets := rfl
    rw [hends, List.length_append] at hlen
    obtain rfl : x = [] := List.length_eq_zero_iff.mp (by omega)
    have hstore : (Loop.after .plain n ⟨true, c.withLink []⟩).client.host.store = c.host.store := by
      rw [(after_nil c n).2]
    refine ⟨?_, fun _ => ?_⟩
    · rw [hstore]
      exact .nothing _
    · rw [hstore]
      exact .inl rfl
  | cons line lines ih =>
    rw [List.forall_mem_cons] at horderly
    obtain ⟨hline, hlater⟩ := horderly
    rcases stays_or_sends w hline with hstays | ⟨request, hsends⟩
    · -- nothing is sent
      obtain ⟨g₁, hrun, hpackets, hstore⟩ := hstays.run u
      obtain ⟨hrequests, hreplies, hfits⟩ := hparts
      rw [ends_ok hrun] at hrequests ⊢
      rw [← hpackets] at hrequests
      have hrest := ih h (w.next hrun (hstore ▸ w.tidy)) hlater ⟨hrequests, hreplies, hfits⟩
      refine hrest.cons ?_
      rw [hstore]
      exact (hstays.idle _).symm
    · obtain ⟨job, hj, hheader⟩ := hsends.job hline
      have hfirst := (hsends.first w lines u).flatten
      rw [List.flatten_append, List.flatten_singleton] at hfirst
      cases n with
      | zero => exact outcome_unheard w hsends hparts rfl rfl
      | succ n =>
        rcases Trips.part_or_rest hparts.requests hfirst with ⟨hpart, hne⟩ | ⟨y, heq⟩
        · -- a part of the request
          rw [List.prefix_append_right_inj] at hpart
          rw [← hheader] at hpart hne
          obtain ⟨e, d, hrun, hpackets, hhost⟩ := Ready.header_waits c (hj.no_header hpart fun heq =>
            hne (by rw [heq]))
          rw [Loop.after_error hrun]
          refine outcome_unheard w hsends hparts ?_ (by rw [hhost])
          rw [plainPackets, Loop.after_error hrun]
          exact hpackets
        · rw [List.append_assoc] at heq
          obtain rfl := List.append_cancel_left heq
          have hround : ∀ p ∈ (Exec.endState ((iteration .plain).run
              (c.withLink (request ++ y)))).packets, p.length ≤ bufferSize :=
            fun p hp => hparts.fits p ((first_packets c n _).subset hp)
          rcases hsends.errand h w hline hround with ⟨reply, more, c₁, herrand⟩ |
            ⟨place, name, content, c₁, hupload, hasked, hfile, hsendable⟩
          · exact herrand.outcome w hparts fun w₁ hrest => ih herrand.ready w₁ hlater hrest
          · exact hupload.outcome hasked hfile hsendable w hlater hparts
              fun w₁ hrest => ih hupload.ready w₁ hlater hrest

end Both

/-! ### A session under attack -/

/-- **What an attacker can do to a session.**  Any bytes at all reach a client that waits for orderly
lines, and any bytes reach a server that waits for its requests.  If the packets of both are not too
long and their sizes cannot be confused, neither has used up its numbers, and each finds only tags of the
other one right, then the files on both sides are as some number of the commands have made them, each
carried out once and in order, but that the next command may have copied a part of its file; and if the
client still waits for a line, all commands were carried out, but that of the last upload the server may
have only a part. -/
theorem attacked_session (P : Primitives) (o o' : ByteOrder) (k : SessionKeys) {c : Client Unit}
    (hc : c.packets = []) (h : Ready c) {g : Globals Unit} (hg : g.packets = []) (w : Waiting g)
    {lines : List (Option Bytes)}
    (horderly : ∀ line ∈ lines, Orderly (lineWords line).1 (lineWords line).2) (n : ℕ)
    (toServer toClient : Bytes) :
    let p := (Machine.run (Prompt.step (.crypto P o)) ⟨true, g.connected k toClient⟩ lines).1
    let d := Exec.endState ((serve (.crypto P o') n).run (c.connected k [] toServer))
    let before := view g.host.store c.host.store
    let after := view p.globals.host.store d.host.store
    Guarded P o o' k p.globals.link p.globals.packets toServer →
      Guarded P o' o k d.link d.packets toClient →
        Mirror.Cut sendable (· <+: ·) before (lines.map asked) after ∧
          (p.running = true →
            Mirror.Behind (· <+: ·) (Mirror.run sendable before (lines.map asked)) after) := by
  intro p d before after hclient hserver
  have hheard := heard_authentic P o k toClient hg lines
  have hanswered := answered_authentic P o' k toServer hc n
  have hrequests := hclient.part hheard.half
  have hreplies := hserver.part hanswered.half
  -- both have done what they do on strings
  obtain ⟨⟨hrunning, hhost, hpackets⟩, -⟩ := hheard.same.resolve_left hclient.count.ne
  obtain ⟨hrest, -⟩ := hanswered.same.resolve_left hserver.count.ne
  have hsent : d.packets = plainPackets c n (authenticBytes P o' k toServer) :=
    (congrArg Client.packets hrest).trans (plainPackets_eq c n _)
  have hfiles : d.host = (Loop.after .plain n
      ⟨true, c.withLink (authenticBytes P o' k toServer)⟩).client.host :=
    (congrArg Client.host hrest).trans (congrArg Client.host (serve_eq_run .plain n _))
  have hparts : Parts g c lines n (authenticBytes P o' k toServer) (authenticBytes P o k toClient) := by
    refine ⟨?_, ?_, fun q hq => hserver.fits q (hsent ▸ hq)⟩
    · rw [hg]
      exact hpackets ▸ hrequests
    · rw [hc]
      exact hsent ▸ hreplies
  obtain ⟨hcut, hbehind⟩ := hparts.outcome h w horderly
  have hafter : after = view (g.ends lines (authenticBytes P o k toClient)).globals.host.store
      (Loop.after .plain n ⟨true, c.withLink (authenticBytes P o' k toServer)⟩).client.host.store := by
    show view p.globals.host.store d.host.store = _
    rw [hfiles, hhost]
    rfl
  rw [hafter]
  exact ⟨hcut, fun hwaits => hbehind (hrunning ▸ hwaits)⟩

/-- A client with a directory for downloads and a file. -/
def visitor : Globals Unit where
  link := ()
  host := { store := homeWithDownloads }

/-- A download and an upload. -/
def visitorLines : List (Option Bytes) := [some (text "get a"), some (text "put b")]

/-- Of the packets of the client the last one is lost, and the first one comes again. -/
def lostUpload : Bytes :=
  wireOf .sample .little (.sample 1) [text "RETR a\n\n", text "STOR b\nSize: 3\n\n"]
    ++ wireOf .sample .little (.sample 1) [text "RETR a\n\n"]

/-- All packets of the server arrive. -/
def allReplies : Bytes :=
  wireOf .sample .little (.sample 1) [sizeReply 2, text "x", text "y", Status.ok.reply]

def visited : Prompt Endpoint :=
  (Machine.run (Prompt.step (.crypto .sample .little)) ⟨true, visitor.connected (.sample 1) allReplies⟩
    visitorLines).1

def visitedServer : Client Endpoint :=
  Exec.endState ((serve (.crypto .sample .little) 5).run (oneFile.connected (.sample 1) [] lostUpload))

/-- The client waits for its next line, and of the upload the server has an empty file. -/
theorem attacked_session_lost :
    (Mirror.Cut sendable (· <+: ·) (view visitor.host.store oneFile.host.store)
        (visitorLines.map asked) (view visited.globals.host.store visitedServer.host.store) ∧
      Mirror.Behind (· <+: ·)
        (Mirror.run sendable (view visitor.host.store oneFile.host.store) (visitorLines.map asked))
        (view visited.globals.host.store visitedServer.host.store)) ∧
      fileAt visited.globals.host.store (fetchedAt (text "a")) = some (text "xy") ∧
      fileAt visitedServer.host.store (keptAt (text "b")) = some [] := by
  have hready : Ready oneFile := ⟨rfl, ⟨rfl, rfl⟩, oneFile_tidy⟩
  have hwaiting : Waiting visitor := ⟨⟨rfl, rfl⟩, .of_entries (by decide) (by decide) (by decide)⟩
  have horderly : ∀ line ∈ visitorLines, Orderly (lineWords line).1 (lineWords line).2 := by
    intro line hline
    simp only [visitorLines, List.mem_cons, List.not_mem_nil, or_false] at hline
    rcases hline with rfl | rfl
    · exact ⟨by decide, by decide, by decide, by decide⟩
    · exact ⟨by decide, by decide, by decide, by decide⟩
  have hsent : visited.globals.packets.map List.length = [8, 16, 3] := by decide +kernel
  have hsent' : visitedServer.packets.map List.length = [13, 1, 1, 5] := by decide +kernel
  have hclient : Guarded .sample .little .little (.sample 1) visited.globals.link
      visited.globals.packets lostUpload := by
    refine ⟨by decide +kernel, by decide +kernel, ?_, by decide +kernel⟩
    rw [hsent]
    exact fun i m hi _ => absurd (List.mem_of_getElem? hi) (by decide)
  have hserver : Guarded .sample .little .little (.sample 1) visitedServer.link
      visitedServer.packets allReplies := by
    refine ⟨by decide +kernel, by decide +kernel, ?_, by decide +kernel⟩
    rw [hsent']
    exact fun i m hi _ => absurd (List.mem_of_getElem? hi) (by decide)
  have hrunning : visited.running = true := by decide +kernel
  refine ⟨?_, by decide +kernel, by decide +kernel⟩
  unfold visited at hclient hrunning ⊢
  unfold visitedServer at hserver ⊢
  obtain ⟨hcut, hbehind⟩ := attacked_session .sample .little .little (.sample 1) rfl hready rfl hwaiting
    horderly 5 lostUpload allReplies hclient hserver
  exact ⟨hcut, hbehind hrunning⟩

end ClientMain

end Cybrg
