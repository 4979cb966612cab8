import Mathlib.Logic.Basic
import Mathlib.Order.Defs.Unbundled

/-!
# Programs that keep their state when they throw

A C++ function that throws leaves behind whatever it had already written.  `EStateM ε σ` has
exactly this meaning: a run ends in a value or in an exception, and in a state either way.  This
file gives the rules used to reason about such programs:

* `bind_ok`, `bind_error` — how a sequence can end, read backwards from its result;
* `bind_of_ok`, `bind_of_error` — how a sequence runs, read forwards;
* `require`, `zoom`, `ofExcept` — a check that throws, a program on a part of the state, a pure
  computation that may throw;
* `Agree R` — two runs of a program that end alike, in states related by `R`;
* `Triple P m Q E` — from a state with `P`, a run of `m` ends normally with `Q` or throws in a
  state with `E`; with `pure`, `bind`, `modify`, ... as its rules;
* `Within R m` — every run of `m`, normal or not, takes its state along the preorder `R`;
* `Leaves f m` — the frame condition among these: no run of `m` changes what `f` reads;
* `Returns m` — no run of `m` throws.
-/

namespace Exec

variable {ε σ τ α β γ δ : Type}

/-- The state a run ends in. -/
def endState : EStateM.Result ε σ α → σ
  | .ok _ s => s
  | .error _ s => s

@[simp] theorem endState_ok (a : α) (s : σ) :
    endState (.ok a s : EStateM.Result ε σ α) = s := rfl

@[simp] theorem endState_error (e : ε) (s : σ) :
    endState (.error e s : EStateM.Result ε σ α) = s := rfl

/-- What the caller of a run sees: a value or an exception. -/
def outcome : EStateM.Result ε σ α → Except ε α
  | .ok a _ => .ok a
  | .error e _ => .error e

@[simp] theorem outcome_ok (a : α) (s : σ) :
    outcome (.ok a s : EStateM.Result ε σ α) = .ok a := rfl

@[simp] theorem outcome_error (e : ε) (s : σ) :
    outcome (.error e s : EStateM.Result ε σ α) = .error e := rfl

theorem eq_ok_of_outcome {r : EStateM.Result ε σ α} {a : α} (h : outcome r = .ok a) :
    ∃ s, r = .ok a s := by
  cases r with
  | ok b s =>
    cases h
    exact ⟨s, rfl⟩
  | error e s => cases h

/-- Whether a run ended in an exception. -/
def threw : EStateM.Result ε σ α → Bool
  | .ok _ _ => false
  | .error _ _ => true

@[simp] theorem threw_ok (a : α) (s : σ) : threw (.ok a s : EStateM.Result ε σ α) = false := rfl

@[simp] theorem threw_error (e : ε) (s : σ) : threw (.error e s : EStateM.Result ε σ α) = true :=
  rfl

/-! ### Running a sequence -/

theorem bind_of_ok {x : EStateM ε σ α} {f : α → EStateM ε σ β} {s s' : σ} {a : α}
    (h : x.run s = .ok a s') : (x >>= f).run s = (f a).run s' := by
  rw [EStateM.run_bind, h]

theorem bind_of_error {x : EStateM ε σ α} {f : α → EStateM ε σ β} {s s' : σ} {e : ε}
    (h : x.run s = .error e s') : (x >>= f).run s = .error e s' := by
  rw [EStateM.run_bind, h]

/-- A sequence that ended normally went through its first part normally. -/
theorem bind_ok {x : EStateM ε σ α} {f : α → EStateM ε σ β} {s s' : σ} {b : β}
    (h : (x >>= f).run s = .ok b s') :
    ∃ a s₁, x.run s = .ok a s₁ ∧ (f a).run s₁ = .ok b s' := by
  cases hx : x.run s with
  | ok a s₁ => exact ⟨a, s₁, rfl, (bind_of_ok hx).symm.trans h⟩
  | error e s₁ => rw [bind_of_error hx] at h; cases h

/-- A sequence that threw did so in its first part or in its second. -/
theorem bind_error {x : EStateM ε σ α} {f : α → EStateM ε σ β} {s s' : σ} {e : ε}
    (h : (x >>= f).run s = .error e s') :
    x.run s = .error e s' ∨ ∃ a s₁, x.run s = .ok a s₁ ∧ (f a).run s₁ = .error e s' := by
  cases hx : x.run s with
  | ok a s₁ => exact .inr ⟨a, s₁, rfl, (bind_of_ok hx).symm.trans h⟩
  | error e' s₁ => rw [bind_of_error hx] at h; cases h; exact .inl rfl

/-! ### A check that throws -/

/-- Go on if `p` holds, throw `e` otherwise. -/
def require (p : Prop) [Decidable p] (e : ε) : EStateM ε σ Unit :=
  if p then pure () else throw e

@[simp] theorem run_require (p : Prop) [Decidable p] (e : ε) (s : σ) :
    (require p e : EStateM ε σ Unit).run s = if p then .ok () s else .error e s := by
  unfold require
  split <;> rfl

theorem run_require_of_true {p : Prop} [Decidable p] {e : ε} {s : σ} (h : p) :
    (require p e : EStateM ε σ Unit).run s = .ok () s := by
  rw [run_require, if_pos h]

theorem require_ok {p : Prop} [Decidable p] {e : ε} {s s' : σ} {u : Unit}
    (h : (require p e : EStateM ε σ Unit).run s = .ok u s') : p ∧ s' = s := by
  rw [run_require] at h
  split at h
  · rename_i hp; cases h; exact ⟨hp, rfl⟩
  · cases h

theorem require_error {p : Prop} [Decidable p] {e e' : ε} {s s' : σ}
    (h : (require p e : EStateM ε σ Unit).run s = .error e' s') : ¬ p ∧ e' = e ∧ s' = s := by
  rw [run_require] at h
  split at h
  · cases h
  · rename_i hp; cases h; exact ⟨hp, rfl, rfl⟩

/-! ### A pure computation that may throw -/

/-- Run a pure computation; the state stays. -/
def ofExcept (x : Except ε α) : EStateM ε σ α :=
  match x with
  | .ok a => pure a
  | .error e => throw e

@[simp] theorem run_ofExcept (x : Except ε α) (s : σ) :
    (ofExcept x : EStateM ε σ α).run s =
      match x with
      | .ok a => .ok a s
      | .error e => .error e s := by
  cases x <;> rfl

theorem ofExcept_ok {x : Except ε α} {s s' : σ} {a : α}
    (h : (ofExcept x : EStateM ε σ α).run s = .ok a s') : x = .ok a ∧ s' = s := by
  cases x with
  | ok b => cases h; exact ⟨rfl, rfl⟩
  | error e => cases h

theorem ofExcept_error {x : Except ε α} {s s' : σ} {e : ε}
    (h : (ofExcept x : EStateM ε σ α).run s = .error e s') : x = .error e ∧ s' = s := by
  cases x with
  | ok b => cases h
  | error e => cases h; exact ⟨rfl, rfl⟩

/-! ### A program on a part of the state -/

/-- Run a program on the part of the state that `get` reads and `put` writes. -/
def zoom (get : σ → τ) (put : τ → σ → σ) (m : EStateM ε τ α) : EStateM ε σ α := fun s =>
  match m.run (get s) with
  | .ok a t => .ok a (put t s)
  | .error e t => .error e (put t s)

@[simp] theorem run_zoom (get : σ → τ) (put : τ → σ → σ) (m : EStateM ε τ α) (s : σ) :
    (zoom get put m).run s =
      match m.run (get s) with
      | .ok a t => .ok a (put t s)
      | .error e t => .error e (put t s) := rfl

section Zoom

variable {get : σ → τ} {put : τ → σ → σ} {m : EStateM ε τ α} {s s' : σ}

theorem zoom_of_ok {a : α} {t : τ} (h : m.run (get s) = .ok a t) :
    (zoom get put m).run s = .ok a (put t s) := by
  rw [run_zoom, h]

theorem zoom_of_error {e : ε} {t : τ} (h : m.run (get s) = .error e t) :
    (zoom get put m).run s = .error e (put t s) := by
  rw [run_zoom, h]

theorem zoom_ok {a : α} (h : (zoom get put m).run s = .ok a s') :
    ∃ t, m.run (get s) = .ok a t ∧ s' = put t s := by
  rw [run_zoom] at h
  cases hm : m.run (get s) with
  | ok b t => rw [hm] at h; cases h; exact ⟨t, rfl, rfl⟩
  | error e t => rw [hm] at h; cases h

theorem zoom_error {e : ε} (h : (zoom get put m).run s = .error e s') :
    ∃ t, m.run (get s) = .error e t ∧ s' = put t s := by
  rw [run_zoom] at h
  cases hm : m.run (get s) with
  | ok b t => rw [hm] at h; cases h
  | error e' t => rw [hm] at h; cases h; exact ⟨t, rfl, rfl⟩

end Zoom

/-! ### Two runs side by side -/

/-- Two results are of the same kind, carry the same value or exception, and end in related
states. -/
inductive Agree (R : σ → τ → Prop) : EStateM.Result ε σ α → EStateM.Result ε τ α → Prop
  | ok {a : α} {s : σ} {t : τ} (h : R s t) : Agree R (.ok a s) (.ok a t)
  | error {e : ε} {s : σ} {t : τ} (h : R s t) : Agree R (.error e s) (.error e t)

/-! ### Where a run can take its state -/

/-- A relation that a run may move along: staying is a move, and two moves in a row are one. -/
structure Path (R : σ → σ → Prop) : Prop where
  refl : ∀ s, R s s
  trans : ∀ s t u, R s t → R t u → R s u

/-- A part of the state that does not change. -/
theorem Path.frame {γ : Type} (f : σ → γ) : Path (fun s s' => f s' = f s) :=
  ⟨fun _ => rfl, fun _ _ _ h g => g.trans h⟩

/-- What is said of the state stays true. -/
theorem Path.keeps (I : σ → Prop) : Path (fun s s' => I s → I s') :=
  ⟨fun _ h => h, fun _ _ _ h g hs => g (h hs)⟩

/-- Every run of `m` moves its state along `R`, whether it ends normally or throws. -/
def Within (R : σ → σ → Prop) (m : EStateM ε σ α) : Prop :=
  ∀ s, R s (endState (m.run s))

section Within

variable {R : σ → σ → Prop}

theorem Within.of_ok {m : EStateM ε σ α} (hm : Within R m) {s s' : σ} {a : α}
    (h : m.run s = .ok a s') : R s s' := by
  have hs := hm s
  rwa [h] at hs

theorem Within.of_error {m : EStateM ε σ α} (hm : Within R m) {s s' : σ} {e : ε}
    (h : m.run s = .error e s') : R s s' := by
  have hs := hm s
  rwa [h] at hs

theorem Within.pure (hR : Path R) (a : α) : Within R (Pure.pure a : EStateM ε σ α) :=
  fun s => hR.refl s

theorem Within.throw (hR : Path R) (e : ε) : Within R (throw e : EStateM ε σ α) :=
  fun s => hR.refl s

theorem Within.get (hR : Path R) : Within R (get : EStateM ε σ σ) :=
  fun s => hR.refl s

theorem Within.modify {f : σ → σ} (h : ∀ s, R s (f s)) :
    Within R (modify f : EStateM ε σ PUnit) :=
  fun s => h s

theorem Within.ite {p : Prop} [Decidable p] {x y : EStateM ε σ α} (hx : Within R x)
    (hy : Within R y) : Within R (if p then x else y) := by
  split
  · exact hx
  · exact hy

theorem Within.require (hR : Path R) (p : Prop) [Decidable p] (e : ε) :
    Within R (require p e : EStateM ε σ Unit) :=
  Within.ite (Within.pure hR ()) (Within.throw hR e)

theorem Within.ofExcept (hR : Path R) (x : Except ε α) :
    Within R (ofExcept x : EStateM ε σ α) := by
  cases x with
  | ok a => exact Within.pure hR a
  | error e => exact Within.throw hR e

/-- **Sequencing.**  Two parts that each move along `R` do so in a row. -/
theorem Within.bind (hR : Path R) {x : EStateM ε σ α} {f : α → EStateM ε σ β}
    (hx : Within R x) (hf : ∀ a, Within R (f a)) : Within R (x >>= f) := by
  intro s
  cases h : x.run s with
  | ok a s₁ =>
    rw [bind_of_ok h]
    exact hR.trans _ _ _ (hx.of_ok h) (hf a s₁)
  | error e s₁ =>
    rw [bind_of_error h]
    exact hx.of_error h

/-- **A list of steps.** -/
theorem Within.mapM (hR : Path R) {f : α → EStateM ε σ β} (hf : ∀ a, Within R (f a))
    (as : List α) : Within R (as.mapM f) := by
  induction as with
  | nil => exact Within.pure hR []
  | cons a as ih =>
    rw [List.mapM_cons]
    exact Within.bind hR (hf a) fun _ => Within.bind hR ih fun _ => Within.pure hR _

theorem Within.zoom {get : σ → τ} {put : τ → σ → σ} {S : τ → τ → Prop} {m : EStateM ε τ α}
    (hS : ∀ s t, S (get s) t → R s (put t s)) (hm : Within S m) :
    Within R (zoom get put m) := by
  intro s
  rw [run_zoom]
  cases h : m.run (get s) with
  | ok a t => exact hS s t (hm.of_ok h)
  | error e t => exact hS s t (hm.of_error h)

end Within

/-! ### What a run leaves alone -/

/-- No run of `m` changes what `f` reads, whether it ends normally or throws. -/
def Leaves (f : σ → γ) (m : EStateM ε σ α) : Prop := Within (fun s s' => f s' = f s) m

namespace Leaves

variable {f : σ → γ}

theorem of_ok {m : EStateM ε σ α} (hm : Leaves f m) {s s' : σ} {a : α}
    (h : m.run s = .ok a s') : f s' = f s := Within.of_ok hm h

theorem of_error {m : EStateM ε σ α} (hm : Leaves f m) {s s' : σ} {e : ε}
    (h : m.run s = .error e s') : f s' = f s := Within.of_error hm h

theorem pure (a : α) : Leaves f (Pure.pure a : EStateM ε σ α) := Within.pure (.frame f) a

theorem get : Leaves f (MonadState.get : EStateM ε σ σ) := Within.get (.frame f)

theorem modify {g : σ → σ} (h : ∀ s, f (g s) = f s) :
    Leaves f (modify g : EStateM ε σ PUnit) := Within.modify h

theorem ite {p : Prop} [Decidable p] {x y : EStateM ε σ α} (hx : Leaves f x)
    (hy : Leaves f y) : Leaves f (if p then x else y) := Within.ite hx hy

theorem require (p : Prop) [Decidable p] (e : ε) :
    Leaves f (require p e : EStateM ε σ Unit) := Within.require (.frame f) p e

theorem ofExcept (x : Except ε α) : Leaves f (ofExcept x : EStateM ε σ α) :=
  Within.ofExcept (.frame f) x

theorem bind {x : EStateM ε σ α} {g : α → EStateM ε σ β} (hx : Leaves f x)
    (hg : ∀ a, Leaves f (g a)) : Leaves f (x >>= g) := Within.bind (.frame f) hx hg

theorem mapM {g : α → EStateM ε σ β} (hg : ∀ a, Leaves f (g a)) (as : List α) :
    Leaves f (as.mapM g) := Within.mapM (.frame f) hg as

/-- A program on another part of the state. -/
theorem zoom {get : σ → τ} {put : τ → σ → σ} {m : EStateM ε τ α}
    (hput : ∀ s t, f (put t s) = f s) : Leaves f (zoom get put m) :=
  Within.zoom (S := fun _ _ => True) (fun s t _ => hput s t) fun _ => trivial

/-- A program that leaves enough of its part of the state alone. -/
theorem zoom_part {get : σ → τ} {put : τ → σ → σ} {g : τ → δ} {m : EStateM ε τ α}
    (hput : ∀ s t, g t = g (get s) → f (put t s) = f s) (hm : Leaves g m) :
    Leaves f (Exec.zoom get put m) := Within.zoom hput hm

end Leaves

/-! ### Pre- and postconditions -/

/-- From a state with `P`, the run of `m` ends with `Q` or throws with `E`. -/
def Triple (P : σ → Prop) (m : EStateM ε σ α) (Q : α → σ → Prop) (E : σ → Prop) : Prop :=
  ∀ s, P s → match m.run s with
    | .ok a s' => Q a s'
    | .error _ s' => E s'

namespace Triple

variable {P P' : σ → Prop} {Q Q' : α → σ → Prop} {E E' : σ → Prop}

theorem of_ok {m : EStateM ε σ α} (h : Triple P m Q E) {s s' : σ} {a : α} (hs : P s)
    (hr : m.run s = .ok a s') : Q a s' := by
  have hm := h s hs
  rwa [hr] at hm

theorem of_error {m : EStateM ε σ α} (h : Triple P m Q E) {s s' : σ} {e : ε} (hs : P s)
    (hr : m.run s = .error e s') : E s' := by
  have hm := h s hs
  rwa [hr] at hm

theorem pre {m : EStateM ε σ α} (h : Triple P m Q E) (hP : ∀ s, P' s → P s) : Triple P' m Q E :=
  fun s hs => h s (hP s hs)

theorem post {m : EStateM ε σ α} (h : Triple P m Q E) (hQ : ∀ a s, Q a s → Q' a s)
    (hE : ∀ s, E s → E' s) : Triple P m Q' E' := by
  intro s hs
  cases hr : m.run s with
  | ok a s' => exact hQ a s' (h.of_ok hs hr)
  | error e s' => exact hE s' (h.of_error hs hr)

theorem pure {a : α} (h : ∀ s, P s → Q a s) : Triple P (Pure.pure a : EStateM ε σ α) Q E := h

theorem get {Q : σ → σ → Prop} (h : ∀ s, P s → Q s s) :
    Triple P (MonadState.get : EStateM ε σ σ) Q E := h

theorem modify {f : σ → σ} {Q : PUnit → σ → Prop} (h : ∀ s, P s → Q ⟨⟩ (f s)) :
    Triple P (modify f : EStateM ε σ PUnit) Q E := h

/-- **Sequencing.** -/
theorem bind {x : EStateM ε σ α} {f : α → EStateM ε σ β} {R : α → σ → Prop}
    {Q : β → σ → Prop} (hx : Triple P x R E) (hf : ∀ a, Triple (R a) (f a) Q E) :
    Triple P (x >>= f) Q E := by
  intro s hs
  cases hr : x.run s with
  | ok a s' =>
    rw [bind_of_ok hr]
    exact hf a s' (hx.of_ok hs hr)
  | error e s' =>
    rw [bind_of_error hr]
    exact hx.of_error hs hr

theorem ite {p : Prop} [Decidable p] {x y : EStateM ε σ α} (hx : p → Triple P x Q E)
    (hy : ¬ p → Triple P y Q E) : Triple P (if p then x else y) Q E := by
  split
  · rename_i h
    exact hx h
  · rename_i h
    exact hy h

/-- A program on another part of the state. -/
theorem zoom {get : σ → τ} {put : τ → σ → σ} {m : EStateM ε τ α}
    (h : ∀ s t, P s → (∀ a, Q a (put t s)) ∧ E (put t s)) : Triple P (zoom get put m) Q E := by
  intro s hs
  rw [run_zoom]
  cases m.run (get s) with
  | ok a t => exact (h s t hs).1 a
  | error e t => exact (h s t hs).2

/-- A program on the part of the state that is spoken of. -/
theorem zoom_part {get : σ → τ} {put : τ → σ → σ} (hput : ∀ s t, get (put t s) = t)
    {m : EStateM ε τ α} {P : τ → Prop} {Q : α → τ → Prop} {E : τ → Prop} (h : Triple P m Q E) :
    Triple (fun s => P (get s)) (Exec.zoom get put m) (fun a s => Q a (get s))
      (fun s => E (get s)) := by
  intro s hs
  rw [run_zoom]
  cases hr : m.run (get s) with
  | ok a t =>
    show Q a (get (put t s))
    rw [hput]
    exact h.of_ok hs hr
  | error e t =>
    show E (get (put t s))
    rw [hput]
    exact h.of_error hs hr

/-- An invariant that every run keeps. -/
theorem of_within {m : EStateM ε σ α} (h : Within (fun s s' => P s → P s') m) :
    Triple P m (fun _ => P) P := by
  intro s hs
  cases hr : m.run s with
  | ok a s' => exact h.of_ok hr hs
  | error e s' => exact h.of_error hr hs

/-- What is said of a part of the state that stays. -/
theorem of_leaves {f : σ → γ} {m : EStateM ε σ α} (h : Leaves f m) (I : γ → Prop) :
    Triple (fun s => I (f s)) m (fun _ s => I (f s)) (fun s => I (f s)) := by
  refine of_within fun s hs => ?_
  rw [h s]
  exact hs

end Triple

/-! ### Programs that do not throw -/

/-- Every run of `m` ends in a value. -/
def Returns (m : EStateM ε σ α) : Prop := ∀ s, ∃ a s', m.run s = .ok a s'

namespace Returns

theorem pure (a : α) : Returns (Pure.pure a : EStateM ε σ α) := fun s => ⟨a, s, rfl⟩

theorem modify (f : σ → σ) : Returns (modify f : EStateM ε σ PUnit) := fun s => ⟨⟨⟩, f s, rfl⟩

theorem bind {x : EStateM ε σ α} {f : α → EStateM ε σ β} (hx : Returns x) (hf : ∀ a, Returns (f a)) :
    Returns (x >>= f) := by
  intro s
  obtain ⟨a, s₁, hrun⟩ := hx s
  rw [bind_of_ok hrun]
  exact hf a s₁

theorem mapM {f : α → EStateM ε σ β} (hf : ∀ a, Returns (f a)) (as : List α) :
    Returns (as.mapM f) := by
  induction as with
  | nil => exact .pure []
  | cons a as ih =>
    rw [List.mapM_cons]
    exact .bind (hf a) fun b => .bind ih fun bs => .pure (b :: bs)

theorem zoom {get : σ → τ} {put : τ → σ → σ} {m : EStateM ε τ α} (hm : Returns m) :
    Returns (zoom get put m) := by
  intro s
  obtain ⟨a, t, hrun⟩ := hm (get s)
  rw [run_zoom, hrun]
  exact ⟨a, put t s, rfl⟩

end Returns

end Exec
