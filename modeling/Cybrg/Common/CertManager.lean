import Cybrg.Common.RSACrypto
import Mathlib.Data.List.Infix

/-!
# The check of a peer's certificate

`CertManager::verifyCert` asks OpenSSL for the chain and the revocation list, and then looks for
an authorised name: it searches the one-line rendering of the subject for `CN=` followed by the
name.

* `X509Store.verifyCert` — the check;
* `X509Store.verifyCert_ok_iff` — what it accepts;
* `X509Store.exact_name_iff` — when this is the same as comparing the common name with the names
  of the list; `accepts_extension`, `accepts_blank_line` and `accepts_other_attribute` are the ways
  in which it is not.
-/

namespace Cybrg

/-- One attribute of a subject: its short name and its value. -/
structure Attribute where
  type : Bytes
  value : Bytes
  deriving DecidableEq

abbrev Subject := List Attribute

namespace Subject

/-- `X509_NAME_oneline`. -/
def oneline (subject : Subject) : Bytes :=
  subject.flatMap fun a => text "/" ++ a.type ++ text "=" ++ a.value

/-- The subject has this common name. -/
def HasCommonName (subject : Subject) (name : Bytes) : Prop :=
  (⟨text "CN", name⟩ : Attribute) ∈ subject

instance (subject : Subject) (name : Bytes) : Decidable (subject.HasCommonName name) :=
  inferInstanceAs (Decidable (⟨text "CN", name⟩ ∈ subject))

/-- `subject_name_str.find("CN=" + name)` finds something.  A subject of a certificate that fits
into a received string is far too short for the conversion of the position to `int` to matter. -/
def Mentions (subject : Subject) (name : Bytes) : Prop :=
  text "CN=" ++ name <:+: subject.oneline

instance (subject : Subject) (name : Bytes) : Decidable (subject.Mentions name) :=
  inferInstanceAs (Decidable (text "CN=" ++ name <:+: subject.oneline))

/-- The rendering of an attribute is part of the rendering of the subject. -/
theorem rendered_in_oneline {subject : Subject} {a : Attribute} (ha : a ∈ subject) :
    text "/" ++ a.type ++ text "=" ++ a.value <:+: subject.oneline := by
  obtain ⟨l, r, rfl⟩ := List.append_of_mem ha
  refine ⟨oneline l, oneline r, ?_⟩
  simp only [oneline, List.flatMap_append, List.flatMap_cons, List.append_assoc]

/-- What an attribute contains behind a `CN=` is mentioned. -/
theorem mentions_of_infix {subject : Subject} {a : Attribute} {name : Bytes} (ha : a ∈ subject)
    (h : text "CN=" ++ name <:+: a.type ++ text "=" ++ a.value) : subject.Mentions name := by
  refine h.trans (List.IsInfix.trans ?_ (rendered_in_oneline ha))
  exact ⟨text "/", [], by simp⟩

/-- The beginning of a common name is mentioned. -/
theorem mentions_initial {subject : Subject} {name rest : Bytes}
    (h : subject.HasCommonName (name ++ rest)) : subject.Mentions name := by
  refine mentions_of_infix h ⟨[], rest, ?_⟩
  have hcn : text "CN=" = text "CN" ++ text "=" := rfl
  simp [hcn]

theorem HasCommonName.mentions {subject : Subject} {name : Bytes}
    (h : subject.HasCommonName name) : subject.Mentions name := by
  rw [← List.append_nil name] at h
  exact mentions_initial h

end Subject

/-- The certificate store, as far as `verifyCert` uses it: whether `X509_STORE_CTX_new` finds
memory, and what `X509_STORE_CTX_init`, `X509_verify_cert` and `X509_get_subject_name` return. -/
structure X509Store (C : Type) where
  ctxNew : Bool
  ctxInit : C → ℤ
  verify : C → ℤ
  subjectName : C → Subject

namespace X509Store

variable {C : Type} (store : X509Store C)

/-- The chain and the revocation list are in order. -/
def ChainPasses (cert : C) : Prop :=
  store.ctxNew = true ∧ store.ctxInit cert = 1 ∧ store.verify cert = 1

/-- The variable `name_pass`: the search stops before the end of the list. -/
def namePass (authPeersList : List Bytes) (cert : C) : Bool :=
  if authPeersList = [] then false
  else
    let i := authPeersList.findIdx fun name => (store.subjectName cert).Mentions name
    i ≠ authPeersList.length

/-- `CertManager::verifyCert`. -/
def verifyCert (authPeersList : List Bytes) (cert : C) : Except Ex Unit :=
  if store.ctxNew = false then
    .error (.exCertificate "CertManager::verify(): X509_STORE_CTX_new()")
  else if ¬ (store.ctxInit cert = 1 ∧ store.verify cert = 1) then
    .error (.exCertificate "CertManager::verify(): invalid certificate")
  else if store.namePass authPeersList cert = false then
    .error (.exCertificate "CertManager::verify(): unauthorized client")
  else .ok ()

/-- The certificate manager of a party with this store and list. -/
def manager {S : Type} (authPeersList : List Bytes) (cert : C) (privKey : S) : CertManager C S :=
  ⟨cert, privKey, store.verifyCert authPeersList⟩

variable {store}

theorem namePass_iff {authPeersList : List Bytes} {cert : C} :
    store.namePass authPeersList cert = true ↔
      ∃ name ∈ authPeersList, (store.subjectName cert).Mentions name := by
  unfold namePass
  split
  · rename_i hnil
    simp [hnil]
  · rw [decide_eq_true_iff, ne_eq, List.findIdx_eq_length]
    simp

/-- **What `verifyCert` accepts.** -/
theorem verifyCert_ok_iff {authPeersList : List Bytes} {cert : C} :
    store.verifyCert authPeersList cert = .ok () ↔ store.ChainPasses cert ∧
      ∃ name ∈ authPeersList, (store.subjectName cert).Mentions name := by
  rw [← namePass_iff]
  unfold verifyCert ChainPasses
  cases hctx : store.ctxNew <;> cases hname : store.namePass authPeersList cert <;>
    by_cases hchain : store.ctxInit cert = 1 ∧ store.verify cert = 1 <;> simp [hchain]

/-- The subject has a common name that is one of the names of the list, and not a blank line. -/
def Listed (authPeersList : List Bytes) (subject : Subject) : Prop :=
  ∃ name ∈ authPeersList, name ≠ [] ∧ subject.HasCommonName name

/-- **When authorisation is by exact common name.**  A certificate is treated as the comparison of
names would treat it exactly when its chain is refused anyway, or its common name is listed, or no
line of the list, blank ones included, is found behind a `CN=` in the rendering of its subject. -/
theorem exact_name_iff (authPeersList : List Bytes) (cert : C) :
    (store.verifyCert authPeersList cert = .ok () ↔
        store.ChainPasses cert ∧ Listed authPeersList (store.subjectName cert)) ↔
      ¬ store.ChainPasses cert ∨ Listed authPeersList (store.subjectName cert) ∨
        ∀ name ∈ authPeersList, ¬ (store.subjectName cert).Mentions name := by
  rw [verifyCert_ok_iff]
  by_cases hchain : store.ChainPasses cert
  · by_cases hlisted : Listed authPeersList (store.subjectName cert)
    · have hmentions : ∃ name ∈ authPeersList, (store.subjectName cert).Mentions name := by
        obtain ⟨name, hname, -, hcn⟩ := hlisted
        exact ⟨name, hname, hcn.mentions⟩
      simp [hchain, hmentions, hlisted]
    · simp [hchain, hlisted]
  · simp [hchain]

/-! ### Who is accepted besides -/

/-- A common name that only begins with a listed name is accepted. -/
theorem accepts_extension {authPeersList : List Bytes} {cert : C} {name rest : Bytes}
    (hchain : store.ChainPasses cert) (hname : name ∈ authPeersList)
    (hcn : (store.subjectName cert).HasCommonName (name ++ rest)) :
    store.verifyCert authPeersList cert = .ok () :=
  verifyCert_ok_iff.mpr ⟨hchain, name, hname, Subject.mentions_initial hcn⟩

/-- A blank line in the list accepts every certificate with a common name. -/
theorem accepts_blank_line {authPeersList : List Bytes} {cert : C} {name : Bytes}
    (hchain : store.ChainPasses cert) (hblank : [] ∈ authPeersList)
    (hcn : (store.subjectName cert).HasCommonName name) :
    store.verifyCert authPeersList cert = .ok () :=
  accepts_extension hchain hblank hcn

/-- An attribute of any type whose value contains `CN=` and a listed name is accepted. -/
theorem accepts_other_attribute {authPeersList : List Bytes} {cert : C} {name : Bytes}
    {a : Attribute} (hchain : store.ChainPasses cert) (hname : name ∈ authPeersList)
    (ha : a ∈ store.subjectName cert) (hvalue : text "CN=" ++ name <:+: a.value) :
    store.verifyCert authPeersList cert = .ok () := by
  refine verifyCert_ok_iff.mpr ⟨hchain, name, hname, Subject.mentions_of_infix ha ?_⟩
  exact hvalue.trans (List.suffix_append _ _).isInfix

/-- A store that finds every chain in order; a certificate is its subject. -/
def trusting : X509Store Subject := ⟨true, fun _ => 1, fun _ => 1, id⟩

/-- **Certificates whose common name is not listed are accepted.**  The name `alice` is listed and
the common names are `alice2`, `mallory` with an organisation `CN=alice`, and `mallory` with a
blank line in the list. -/
theorem unlisted_names_accepted :
    let alice2 : Subject := [⟨text "CN", text "alice2"⟩]
    let mallory : Subject := [⟨text "O", text "CN=alice"⟩, ⟨text "CN", text "mallory"⟩]
    (trusting.verifyCert [text "alice"] alice2 = .ok () ∧ ¬ Listed [text "alice"] alice2) ∧
      (trusting.verifyCert [text "alice"] mallory = .ok () ∧
        ¬ Listed [text "alice"] mallory) ∧
      trusting.verifyCert [text "alice", []] [⟨text "CN", text "bob"⟩] = .ok () ∧
        ¬ Listed [text "alice", []] [⟨text "CN", text "bob"⟩] := by
  unfold Listed
  decide +kernel

end X509Store

end Cybrg
