import Cybrg.Library.Exec

/-!
# Two runs side by side

Rules for two programs that are run from related states and are to end in related states.  The second
one may have more to go on: it need not stop where the first one throws.

* `Both` — related ends from related beginnings;
* `Both.bind`, `Both.require`, `Both.same` — the rules;
* `Both.of_ok`, `Both.of_error` — what they say of two given runs;
* `Agree.bind`, `Agree.zoom` — two programs that end alike part by part end alike, and so do two that
  work on parts of their states.
-/

namespace Exec

variable {ε ε' σ σ' α α' β β' : Type}

/-- From states in `R`, if `m` ends normally then so does `m'`, and the ends are in `Q`.  If `m`
throws, the ends are in `E` where `m'` throws too, and in `F` where it goes on. -/
def Both (R : σ → σ' → Prop) (m : EStateM ε σ α) (m' : EStateM ε' σ' α')
    (Q : α → α' → σ → σ' → Prop) (E F : σ → σ' → Prop) : Prop :=
  ∀ s s', R s s' → match m.run s, m'.run s' with
    | .ok a t, .ok a' t' => Q a a' t t'
    | .error _ t, .error _ t' => E t t'
    | .error _ t, .ok _ t' => F t t'
    | .ok _ _, .error _ _ => False

namespace Both

variable {R : σ → σ' → Prop} {m : EStateM ε σ α} {m' : EStateM ε' σ' α'}
  {Q : α → α' → σ → σ' → Prop} {E F : σ → σ' → Prop}

theorem of_ok (h : Both R m m' Q E F) {s t : σ} {s' : σ'} {a : α} (hs : R s s')
    (hr : m.run s = .ok a t) : ∃ a' t', m'.run s' = .ok a' t' ∧ Q a a' t t' := by
  have hm := h s s' hs
  rw [hr] at hm
  cases hr' : m'.run s' with
  | ok a' t' =>
    rw [hr'] at hm
    exact ⟨a', t', rfl, hm⟩
  | error e t' =>
    rw [hr'] at hm
    exact hm.elim

theorem of_error (h : Both R m m' Q E F) {s t : σ} {s' : σ'} {e : ε} (hs : R s s')
    (hr : m.run s = .error e t) :
    (∃ e' t', m'.run s' = .error e' t' ∧ E t t') ∨ ∃ a' t', m'.run s' = .ok a' t' ∧ F t t' := by
  have hm := h s s' hs
  rw [hr] at hm
  cases hr' : m'.run s' with
  | ok a' t' =>
    rw [hr'] at hm
    exact .inr ⟨a', t', rfl, hm⟩
  | error e' t' =>
    rw [hr'] at hm
    exact .inl ⟨e', t', rfl, hm⟩

theorem post {Q' : α → α' → σ → σ' → Prop} (h : Both R m m' Q E F)
    (hQ : ∀ a a' t t', Q a a' t t' → Q' a a' t t') : Both R m m' Q' E F := by
  intro s s' hs
  have hm := h s s' hs
  cases hr : m.run s with
  | ok a t =>
    obtain ⟨a', t', hr', hend⟩ := h.of_ok hs hr
    rw [hr']
    exact hQ a a' t t' hend
  | error e t =>
    rw [hr] at hm
    cases hr' : m'.run s' with
    | ok a' t' =>
      rw [hr'] at hm
      exact hm
    | error e' t' =>
      rw [hr'] at hm
      exact hm

theorem pure {a : α} {a' : α'} (h : ∀ s s', R s s' → Q a a' s s') :
    Both R (Pure.pure a : EStateM ε σ α) (Pure.pure a' : EStateM ε' σ' α') Q E F := h

/-- **Sequencing.**  What holds where the second program goes on alone is kept by what it still
does. -/
theorem bind {f : α → EStateM ε σ β} {f' : α' → EStateM ε' σ' β'}
    {Q' : β → β' → σ → σ' → Prop} (hm : Both R m m' Q E F)
    (hf : ∀ a a', Both (Q a a') (f a) (f' a') Q' E F) (hFE : ∀ t t', F t t' → E t t')
    (hstay : ∀ a' t, Within (fun u u' => F t u → F t u') (f' a')) :
    Both R (m >>= f) (m' >>= f') Q' E F := by
  intro s s' hs
  have h := hm s s' hs
  cases hr : m.run s with
  | ok a t =>
    cases hr' : m'.run s' with
    | ok a' t' =>
      rw [hr, hr'] at h
      rw [bind_of_ok hr, bind_of_ok hr']
      exact hf a a' t t' h
    | error e t' =>
      rw [hr, hr'] at h
      exact h.elim
  | error e t =>
    rw [bind_of_error hr]
    cases hr' : m'.run s' with
    | ok a' t' =>
      rw [hr, hr'] at h
      -- the second program goes on alone
      rw [bind_of_ok hr']
      have hend := hstay a' t t' h
      cases hf' : (f' a').run t' with
      | ok b u =>
        rw [hf'] at hend
        exact hend
      | error e u =>
        rw [hf'] at hend
        exact hFE t u hend
    | error e' t' =>
      rw [hr, hr'] at h
      rw [bind_of_error hr']
      exact h

/-- The same check on either side. -/
theorem require (p : Prop) [Decidable p] (e : ε) (e' : ε') :
    Both R (Exec.require p e) (Exec.require p e') (fun _ _ => R) R F := by
  intro s s' hs
  rw [run_require, run_require]
  by_cases h : p
  · rw [if_pos h, if_pos h]
    exact hs
  · rw [if_neg h, if_neg h]
    exact hs

/-- Both sides go on with the same value. -/
theorem same {f : α → EStateM ε σ β} {f' : α → EStateM ε' σ' β'} {Q : β → β' → σ → σ' → Prop}
    (h : ∀ a, Both R (f a) (f' a) Q E F) (a a' : α) :
    Both (fun s s' => a = a' ∧ R s s') (f a) (f' a') Q E F := by
  intro s s' hs
  obtain ⟨rfl, hs⟩ := hs
  exact h a s s' hs

end Both

theorem Agree.refl (r : EStateM.Result ε σ α) : Agree Eq r r := by
  cases r with
  | ok a s => exact .ok rfl
  | error e s => exact .error rfl

/-- What two runs return that end alike, or throw. -/
theorem Agree.outcome {R : σ → σ' → Prop} {r : EStateM.Result ε σ α} {r' : EStateM.Result ε σ' α}
    (h : Agree R r r') : Exec.outcome r = Exec.outcome r' := by
  cases h <;> rfl

/-- **Runs on a part of the state.** -/
theorem Agree.zoom {τ τ' : Type} {get : σ → τ} {put : τ → σ → σ} {get' : σ' → τ'}
    {put' : τ' → σ' → σ'} {R : σ → σ' → Prop} {S : τ → τ' → Prop} {m : EStateM ε τ α}
    {m' : EStateM ε τ' α} {s : σ} {s' : σ'} (hm : Agree S (m.run (get s)) (m'.run (get' s')))
    (hput : ∀ t t', S t t' → R (put t s) (put' t' s')) :
    Agree R ((zoom get put m).run s) ((zoom get' put' m').run s') := by
  rw [run_zoom, run_zoom]
  generalize m.run (get s) = r at hm
  generalize m'.run (get' s') = r' at hm
  cases hm with
  | ok h => exact .ok (hput _ _ h)
  | error h => exact .error (hput _ _ h)

/-- **Sequencing of runs that end alike.** -/
theorem Agree.bind {R : σ → σ' → Prop} {m : EStateM ε σ α} {m' : EStateM ε σ' α}
    {f : α → EStateM ε σ β} {f' : α → EStateM ε σ' β} {s : σ} {s' : σ'}
    (hm : Agree R (m.run s) (m'.run s'))
    (hf : ∀ a t t', m'.run s' = .ok a t' → R t t' → Agree R ((f a).run t) ((f' a).run t')) :
    Agree R ((m >>= f).run s) ((m' >>= f').run s') := by
  cases hr : m.run s with
  | ok a t =>
    cases hr' : m'.run s' with
    | ok a' t' =>
      rw [hr, hr'] at hm
      rw [bind_of_ok hr, bind_of_ok hr']
      cases hm with
      | ok h => exact hf a t t' hr' h
    | error e t' =>
      rw [hr, hr'] at hm
      cases hm
  | error e t =>
    cases hr' : m'.run s' with
    | ok a' t' =>
      rw [hr, hr'] at hm
      cases hm
    | error e' t' =>
      rw [hr, hr'] at hm
      rw [bind_of_error hr, bind_of_error hr']
      cases hm with
      | error h => exact .error h

end Exec
