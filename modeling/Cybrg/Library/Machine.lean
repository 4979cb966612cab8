import Mathlib.Data.List.Forall2

/-!
# Runs of a machine

A machine takes events one at a time, moves to a new state and emits some observations.  This
file has the rules for its runs:

* `run` — a list of events from a state: the state reached and everything observed;
* `Meets C` — every event of a run is taken in a state in which `C` allows it;
* `invariant_run` — what every allowed step preserves holds wherever an allowed run leads;
* `meets_of_invariant` — every step of an allowed run has what an invariant gives it;
* `invariant_trace` — the same for a property of the state and all observations so far;
* `stops` — a machine whose steps use something up stops;
* `run_filter` — the two-run rule: if the events that `sel` keeps move two states along a
  relation with the same observations, and all other events leave the second state behind the
  first, then a run and its selection agree on what is observed;
* `run_selected` — two runs with the same selected events end in related states;
* `run_simulates` — two machines whose steps keep a relation and are observed alike are observed
  alike for whole runs.
-/

namespace Machine

section

variable {σ ε ω : Type} (step : σ → ε → σ × List ω)

/-- The state a list of events leads to, and all observations on the way. -/
def run : σ → List ε → σ × List ω
  | s, [] => (s, [])
  | s, e :: es => ((run (step s e).1 es).1, (step s e).2 ++ (run (step s e).1 es).2)

@[simp] theorem run_nil (s : σ) : run step s [] = (s, []) := rfl

theorem run_cons (s : σ) (e : ε) (es : List ε) :
    run step s (e :: es)
      = ((run step (step s e).1 es).1, (step s e).2 ++ (run step (step s e).1 es).2) := rfl

theorem run_append (s : σ) (es fs : List ε) :
    run step s (es ++ fs)
      = ((run step (run step s es).1 fs).1, (run step s es).2 ++ (run step (run step s es).1 fs).2)
    := by
  induction es generalizing s with
  | nil => rfl
  | cons e es ih => simp only [List.cons_append, run_cons, ih, List.append_assoc]

/-- Every event is allowed in the state in which it happens. -/
def Meets (C : σ → ε → Prop) : σ → List ε → Prop
  | _, [] => True
  | s, e :: es => C s e ∧ Meets C (step s e).1 es

variable {step} {C : σ → ε → Prop}

theorem meets_append {s : σ} {es fs : List ε} :
    Meets step C s (es ++ fs) ↔ Meets step C s es ∧ Meets step C (run step s es).1 fs := by
  induction es generalizing s with
  | nil => simp [Meets]
  | cons e es ih => simp only [List.cons_append, Meets, run_cons, ih, and_assoc]

/-- A condition on the events alone. -/
theorem meets_of_forall {C : ε → Prop} {s : σ} {es : List ε} (h : ∀ e ∈ es, C e) :
    Meets step (fun _ e => C e) s es := by
  induction es generalizing s with
  | nil => trivial
  | cons e es ih =>
    exact ⟨h e List.mem_cons_self, ih fun e he => h e (List.mem_cons_of_mem _ he)⟩

theorem meets_true {s : σ} (es : List ε) : Meets step (fun _ _ => True) s es :=
  meets_of_forall fun _ _ => trivial

theorem meets_and {D : σ → ε → Prop} {s : σ} {es : List ε} (hC : Meets step C s es)
    (hD : Meets step D s es) : Meets step (fun s e => C s e ∧ D s e) s es := by
  induction es generalizing s with
  | nil => trivial
  | cons e es ih => exact ⟨⟨hC.1, hD.1⟩, ih hC.2 hD.2⟩

/-- **The invariant rule.** -/
theorem invariant_run {I : σ → Prop} (hstep : ∀ s e, I s → C s e → I (step s e).1) {s : σ}
    {es : List ε} (hs : I s) (hC : Meets step C s es) : I (run step s es).1 := by
  induction es generalizing s with
  | nil => exact hs
  | cons e es ih => exact ih (hstep s e hs hC.1) hC.2

/-- **What an invariant says about each step of a run.** -/
theorem meets_of_invariant {D : σ → ε → Prop} {I : σ → Prop}
    (hstep : ∀ s e, I s → C s e → I (step s e).1 ∧ D s e) {s : σ} {es : List ε} (hs : I s)
    (hC : Meets step C s es) : Meets step D s es := by
  induction es generalizing s with
  | nil => trivial
  | cons e es ih =>
    obtain ⟨hI, hD⟩ := hstep s e hs hC.1
    exact ⟨hD, ih hI hC.2⟩

/-- **The invariant rule with observations**: `J` relates the state to everything observed on
the way to it. -/
theorem invariant_trace {J : σ → List ω → Prop}
    (hstep : ∀ s out e, J s out → C s e → J (step s e).1 (out ++ (step s e).2)) {s : σ}
    {out : List ω} {es : List ε} (hs : J s out) (hC : Meets step C s es) :
    J (run step s es).1 (out ++ (run step s es).2) := by
  induction es generalizing s out with
  | nil => simpa using hs
  | cons e es ih =>
    have htail := ih (hstep s out e hs hC.1) hC.2
    rw [List.append_assoc] at htail
    exact htail

/-- **What is used up by every step that does not stop the machine** bounds the number of its steps. -/
theorem stops {μ : σ → ℕ} {G : σ → Prop}
    (hstep : ∀ s e, G (step s e).1 → G s ∧ μ (step s e).1 < μ s) {s : σ} {es : List ε}
    (h : μ s < es.length) : ¬ G (run step s es).1 := by
  have hleft : ∀ {s : σ} {es : List ε}, G (run step s es).1 →
      G s ∧ μ (run step s es).1 + es.length ≤ μ s := by
    intro s es
    induction es generalizing s with
    | nil => exact fun hgoing => ⟨hgoing, Nat.le_refl _⟩
    | cons e es ih =>
      intro hgoing
      obtain ⟨hgoing', hrest⟩ := ih hgoing
      obtain ⟨hstart, hfirst⟩ := hstep s e hgoing'
      refine ⟨hstart, ?_⟩
      rw [run_cons, List.length_cons]
      show μ (run step (step s e).1 es).1 + (es.length + 1) ≤ μ s
      omega
  intro hgoing
  have hused := (hleft hgoing).2
  omega

instance decidableMeets [∀ s e, Decidable (C s e)] :
    ∀ s es, Decidable (Meets step C s es)
  | _, [] => inferInstanceAs (Decidable True)
  | s, e :: es =>
      have := decidableMeets (step s e).1 es
      inferInstanceAs (Decidable (C s e ∧ Meets step C (step s e).1 es))

/-- **The two-run rule.** -/
theorem run_filter {R : σ → σ → Prop} {sel : ε → Bool} {obs : ω → Bool}
    (hsel : ∀ s t e, R s t → C s e → sel e = true →
      R (step s e).1 (step t e).1 ∧ (step s e).2.filter obs = (step t e).2)
    (hskip : ∀ s t e, R s t → C s e → sel e = false →
      R (step s e).1 t ∧ (step s e).2.filter obs = [])
    {s t : σ} {es : List ε} (hR : R s t) (hC : Meets step C s es) :
    R (run step s es).1 (run step t (es.filter sel)).1 ∧
      (run step s es).2.filter obs = (run step t (es.filter sel)).2 := by
  induction es generalizing s t with
  | nil => exact ⟨hR, rfl⟩
  | cons e es ih =>
    cases h : sel e with
    | true =>
      obtain ⟨hR', hobs⟩ := hsel s t e hR hC.1 h
      obtain ⟨hend, hrest⟩ := ih hR' hC.2
      rw [List.filter_cons_of_pos h, run_cons, run_cons, List.filter_append, hobs, hrest]
      exact ⟨hend, rfl⟩
    | false =>
      obtain ⟨hR', hobs⟩ := hskip s t e hR hC.1 h
      obtain ⟨hend, hrest⟩ := ih hR' hC.2
      rw [List.filter_cons_of_neg (by simp [h]), run_cons, List.filter_append, hobs, hrest]
      exact ⟨hend, rfl⟩

/-- **The rule of interleavings.**  Two runs have the same selected events, in the same order; all other
events are told apart by nobody. -/
theorem run_selected {D : ε → Prop} {R : σ → σ → Prop} {sel : ε → Bool}
    (hsel : ∀ s t e, R s t → D e → sel e = true → R (step s e).1 (step t e).1)
    (hleft : ∀ s t e, R s t → D e → sel e = false → R (step s e).1 t)
    (hright : ∀ s t e, R s t → D e → sel e = false → R s (step t e).1)
    {s t : σ} {es fs : List ε} (hR : R s t) (hes : ∀ e ∈ es, D e) (hfs : ∀ e ∈ fs, D e)
    (hsame : es.filter sel = fs.filter sel) : R (run step s es).1 (run step t fs).1 := by
  induction es generalizing s t fs with
  | nil =>
    induction fs generalizing t with
    | nil => exact hR
    | cons f fs ih =>
      rw [List.forall_mem_cons] at hfs
      cases hf : sel f with
      | true =>
        rw [List.filter_cons_of_pos hf] at hsame
        cases hsame
      | false =>
        rw [List.filter_cons_of_neg (by simp [hf])] at hsame
        exact ih (hright s t f hR hfs.1 hf) hfs.2 hsame
  | cons e es ih =>
    rw [List.forall_mem_cons] at hes
    cases he : sel e with
    | false =>
      rw [List.filter_cons_of_neg (by simp [he])] at hsame
      exact ih (hleft s t e hR hes.1 he) hes.2 hfs hsame
    | true =>
      rw [List.filter_cons_of_pos he] at hsame
      -- the other run comes to this event, too
      induction fs generalizing t with
      | nil => cases hsame
      | cons f fs ihf =>
        rw [List.forall_mem_cons] at hfs
        cases hf : sel f with
        | true =>
          rw [List.filter_cons_of_pos hf] at hsame
          obtain ⟨rfl, hrest⟩ := List.cons.inj hsame
          rw [run_cons, run_cons]
          exact ih (hsel s t e hR hes.1 he) hes.2 hfs.2 hrest
        | false =>
          rw [List.filter_cons_of_neg (by simp [hf])] at hsame
          exact ihf (hright s t f hR hfs.1 hf) hfs.2 hsame

/-- **The rule of simulation.**  `V` relates what the two machines let one observe. -/
theorem run_simulates {σ' ω' : Type} {step' : σ' → ε → σ' × List ω'} {R : σ → σ' → Prop}
    {V : ω → ω' → Prop}
    (hstep : ∀ s t e, R s t → C s e →
      R (step s e).1 (step' t e).1 ∧ List.Forall₂ V (step s e).2 (step' t e).2)
    {s : σ} {t : σ'} {es : List ε} (hR : R s t) (hC : Meets step C s es) :
    R (run step s es).1 (run step' t es).1 ∧
      List.Forall₂ V (run step s es).2 (run step' t es).2 := by
  induction es generalizing s t with
  | nil => exact ⟨hR, .nil⟩
  | cons e es ih =>
    obtain ⟨hR', hobs⟩ := hstep s t e hR hC.1
    obtain ⟨hend, hrest⟩ := ih hR' hC.2
    exact ⟨hend, List.rel_append hobs hrest⟩

end

end Machine
