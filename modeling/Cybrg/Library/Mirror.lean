import Mathlib.Data.List.Nodup
import Mathlib.Logic.Function.Basic

/-!
# Copies on a shelf

Somebody keeps things at home, each at its place, and copies of things on a shelf elsewhere, each under
a name.  Things are copied one at a time, and the shelf does not take everything.

* `step`, `run` — the commands;
* `shelf_run`, `home_run` — what commands leave alone;
* `shelf_puts` — many things are put on the shelf;
* `home_gets` — many things are fetched from it;
* `home_restored` — what was put on the shelf comes back to another home;
* `Begun`, `Cut` — commands that were stopped in the middle of one, with `Cut.cons`;
* `Behind` — all commands were carried out, and only a part of one copy has come to the shelf;
* `Idle` — commands that copy nothing, with `run_idle`.
-/

namespace Mirror

variable {κ ν β : Type} [DecidableEq κ] [DecidableEq ν]

/-- What there is at home and on the shelf. -/
structure Pair (κ ν β : Type) where
  home : κ → Option β
  shelf : ν → Option β

inductive Command (κ ν : Type) where
  /-- Copy what is at a place to the shelf. -/
  | put (place : κ) (name : ν)
  /-- Copy what is on the shelf to a place. -/
  | get (name : ν) (place : κ)
  | remove (name : ν)
  /-- Nothing is copied. -/
  | other
  deriving DecidableEq

namespace Command

/-- The name whose copy a command replaces or removes. -/
def shelved : Command κ ν → Option ν
  | put _ name => some name
  | get _ _ => none
  | remove name => some name
  | other => none

/-- The place that a command fills. -/
def filled : Command κ ν → Option κ
  | get _ place => some place
  | put _ _ => none
  | remove _ => none
  | other => none

end Command

variable (accepts : β → Bool)

def step (m : Pair κ ν β) : Command κ ν → Pair κ ν β
  | .put place name =>
      match (m.home place).filter accepts with
      | some thing => { m with shelf := Function.update m.shelf name (some thing) }
      | none => m
  | .get name place =>
      match m.shelf name with
      | some thing => { m with home := Function.update m.home place (some thing) }
      | none => m
  | .remove name => { m with shelf := Function.update m.shelf name none }
  | .other => m

/-- One command after the other. -/
def run (m : Pair κ ν β) (cmds : List (Command κ ν)) : Pair κ ν β := cmds.foldl (step accepts) m

variable {accepts} {m : Pair κ ν β}

theorem run_append (cmds cmds' : List (Command κ ν)) :
    run accepts m (cmds ++ cmds') = run accepts (run accepts m cmds) cmds' :=
  List.foldl_append

/-! ### One command -/

theorem step_put {place : κ} {thing : β} (h : m.home place = some thing)
    (haccepts : accepts thing = true) (name : ν) :
    step accepts m (.put place name)
      = { m with shelf := Function.update m.shelf name (some thing) } := by
  rw [step, h, Option.filter_some, if_pos haccepts]

theorem step_put_none {place : κ} (h : ∀ thing, m.home place = some thing → accepts thing = false)
    (name : ν) : step accepts m (.put place name) = m := by
  rw [step]
  cases hplace : m.home place with
  | none => rfl
  | some thing => rw [Option.filter_some, if_neg (by simp [h thing hplace])]

theorem step_get {name : ν} {thing : β} (h : m.shelf name = some thing) (place : κ) :
    step accepts m (.get name place)
      = { m with home := Function.update m.home place (some thing) } := by
  rw [step, h]

theorem step_get_none {name : ν} (h : m.shelf name = none) (place : κ) :
    step accepts m (.get name place) = m := by
  rw [step, h]

theorem step_remove_none {name : ν} (h : m.shelf name = none) :
    step accepts m (.remove name) = m := by
  show { m with shelf := Function.update m.shelf name none } = m
  rw [← h, Function.update_eq_self]

/-! ### What stays -/

/-- Other names keep their copies. -/
theorem shelf_step {cmd : Command κ ν} {name : ν} (h : cmd.shelved ≠ some name) :
    (step accepts m cmd).shelf name = m.shelf name := by
  cases cmd with
  | put place name' =>
    have hne : name ≠ name' := fun heq => h (congrArg some heq.symm)
    rw [step]
    split
    · exact Function.update_of_ne hne _ _
    · rfl
  | get name' place =>
    rw [step]
    split <;> rfl
  | remove name' =>
    have hne : name ≠ name' := fun heq => h (congrArg some heq.symm)
    exact Function.update_of_ne hne _ _
  | other => rfl

/-- Other places keep their things. -/
theorem home_step {cmd : Command κ ν} {place : κ} (h : cmd.filled ≠ some place) :
    (step accepts m cmd).home place = m.home place := by
  cases cmd with
  | put place' name =>
    rw [step]
    split <;> rfl
  | get name place' =>
    have hne : place ≠ place' := fun heq => h (congrArg some heq.symm)
    rw [step]
    split
    · exact Function.update_of_ne hne _ _
    · rfl
  | remove name => rfl
  | other => rfl

theorem shelf_run {cmds : List (Command κ ν)} {name : ν}
    (h : ∀ cmd ∈ cmds, cmd.shelved ≠ some name) :
    (run accepts m cmds).shelf name = m.shelf name := by
  induction cmds generalizing m with
  | nil => rfl
  | cons cmd cmds ih =>
    have hrest := ih (m := step accepts m cmd) fun c hc => h c (List.mem_cons_of_mem cmd hc)
    exact hrest.trans (shelf_step (h cmd List.mem_cons_self))

theorem home_run {cmds : List (Command κ ν)} {place : κ}
    (h : ∀ cmd ∈ cmds, cmd.filled ≠ some place) :
    (run accepts m cmds).home place = m.home place := by
  induction cmds generalizing m with
  | nil => rfl
  | cons cmd cmds ih =>
    have hrest := ih (m := step accepts m cmd) fun c hc => h c (List.mem_cons_of_mem cmd hc)
    exact hrest.trans (home_step (h cmd List.mem_cons_self))

/-! ### Many things -/

/-- Put the things at these places on the shelf, each under its name. -/
def puts (jobs : List (κ × ν)) : List (Command κ ν) := jobs.map fun job => .put job.1 job.2

/-- Fetch what is on the shelf under these names. -/
def gets (place : ν → κ) (names : List ν) : List (Command κ ν) :=
  names.map fun name => .get name (place name)

/-- **What was put on the shelf is there.** -/
theorem shelf_puts {jobs : List (κ × ν)} (hnames : (jobs.map Prod.snd).Nodup)
    (hheld : ∀ job ∈ jobs, ∃ thing, m.home job.1 = some thing ∧ accepts thing = true)
    {job : κ × ν} (hjob : job ∈ jobs) :
    (run accepts m (puts jobs)).shelf job.2 = m.home job.1 := by
  induction jobs generalizing m with
  | nil => cases hjob
  | cons first jobs ih =>
    rw [List.map_cons, List.nodup_cons] at hnames
    obtain ⟨thing, hthing, haccepts⟩ := hheld first List.mem_cons_self
    have hstep := step_put hthing haccepts first.2
    have hrun : run accepts m (puts (first :: jobs))
        = run accepts (step accepts m (.put first.1 first.2)) (puts jobs) := rfl
    rw [hrun, hstep]
    rcases List.mem_cons.mp hjob with rfl | hrest
    · -- no later command has this name
      rw [shelf_run, hthing]
      · exact Function.update_self _ _ _
      · intro cmd hcmd
        obtain ⟨later, hlater, rfl⟩ := List.mem_map.mp hcmd
        intro hname
        exact hnames.1 (Option.some.inj hname ▸ List.mem_map_of_mem hlater)
    · exact ih hnames.2 (fun later hlater => hheld later (List.mem_cons_of_mem first hlater)) hrest

/-- **What was fetched is there.** -/
theorem home_gets {place : ν → κ} (hplace : Function.Injective place) {names : List ν}
    (hnames : names.Nodup) {name : ν} {thing : β} (hname : name ∈ names)
    (hthing : m.shelf name = some thing) :
    (run accepts m (gets place names)).home (place name) = some thing := by
  induction names generalizing m with
  | nil => cases hname
  | cons first names ih =>
    rw [List.nodup_cons] at hnames
    have hrun : run accepts m (gets place (first :: names))
        = run accepts (step accepts m (.get first (place first))) (gets place names) := rfl
    rw [hrun]
    rcases List.mem_cons.mp hname with rfl | hrest
    · -- no later command fills this place
      rw [home_run, step_get hthing]
      · exact Function.update_self _ _ _
      · intro cmd hcmd
        obtain ⟨later, hlater, rfl⟩ := List.mem_map.mp hcmd
        intro hfilled
        exact hnames.1 (hplace (Option.some.inj hfilled) ▸ hlater)
    · refine ih hnames.2 hrest ?_
      rw [shelf_step (fun hshelved => by cases hshelved)]
      exact hthing

/-- **What was put on the shelf comes back**, also to another home, if nothing in between replaces or
removes the copies. -/
theorem home_restored {place : ν → κ} (hplace : Function.Injective place) {jobs : List (κ × ν)}
    (hnames : (jobs.map Prod.snd).Nodup)
    (hheld : ∀ job ∈ jobs, ∃ thing, m.home job.1 = some thing ∧ accepts thing = true)
    {between : List (Command κ ν)}
    (hbetween : ∀ cmd ∈ between, ∀ job ∈ jobs, cmd.shelved ≠ some job.2) (home : κ → Option β)
    {job : κ × ν} (hjob : job ∈ jobs) :
    (run accepts ⟨home, (run accepts m (puts jobs ++ between)).shelf⟩
      (gets place (jobs.map Prod.snd))).home (place job.2) = m.home job.1 := by
  obtain ⟨thing, hthing, -⟩ := hheld job hjob
  rw [hthing]
  refine home_gets hplace hnames (List.mem_map_of_mem hjob) ?_
  show (run accepts m (puts jobs ++ between)).shelf job.2 = some thing
  rw [run_append, shelf_run fun cmd hcmd => hbetween cmd hcmd job hjob, shelf_puts hnames hheld hjob,
    hthing]

/-! ### Commands that were stopped -/

section Stopped

variable (accepts) (part : β → β → Prop)

/-- A command that was stopped in its middle has copied a part of a thing. -/
inductive Begun (m : Pair κ ν β) : Command κ ν → Pair κ ν β → Prop
  | put {place : κ} {name : ν} {thing piece : β} (h : m.home place = some thing)
      (haccepts : accepts thing = true) (hpart : part piece thing) :
      Begun m (.put place name) { m with shelf := Function.update m.shelf name (some piece) }
  | get {name : ν} {place : κ} {thing piece : β} (h : m.shelf name = some thing)
      (hpart : part piece thing) :
      Begun m (.get name place) { m with home := Function.update m.home place (some piece) }

/-- The first commands were carried out, and maybe the next one was begun. -/
def Cut (m : Pair κ ν β) (cmds : List (Command κ ν)) (m' : Pair κ ν β) : Prop :=
  ∃ i, m' = run accepts m (cmds.take i) ∨
    ∃ cmd, cmds[i]? = some cmd ∧ Begun accepts part (run accepts m (cmds.take i)) cmd m'

/-- Everything is as it should be, but of one thing that is at home there is a part on the shelf. -/
def Behind (m m' : Pair κ ν β) : Prop :=
  m' = m ∨ ∃ (place : κ) (name : ν) (thing piece : β), m.home place = some thing ∧
    m.shelf name = some thing ∧ part piece thing ∧
    m' = { m with shelf := Function.update m.shelf name (some piece) }

/-- A command that copies nothing from this home. -/
def Idle (home : κ → Option β) (cmd : Command κ ν) : Prop :=
  ∀ shelf, step accepts ⟨home, shelf⟩ cmd = ⟨home, shelf⟩

variable {accepts part} {m' : Pair κ ν β} {cmd : Command κ ν} {cmds : List (Command κ ν)}

theorem Cut.nothing (cmds : List (Command κ ν)) : Cut accepts part m cmds m := ⟨0, .inl rfl⟩

theorem Cut.begun (h : Begun accepts part m cmd m') (cmds : List (Command κ ν)) :
    Cut accepts part m (cmd :: cmds) m' := ⟨0, .inr ⟨cmd, rfl, h⟩⟩

/-- **One more command** that was carried out. -/
theorem Cut.cons (h : Cut accepts part (step accepts m cmd) cmds m') :
    Cut accepts part m (cmd :: cmds) m' := by
  obtain ⟨i, hend | ⟨next, hnext, hbegun⟩⟩ := h
  · exact ⟨i + 1, .inl hend⟩
  · exact ⟨i + 1, .inr ⟨next, hnext, hbegun⟩⟩

/-- **More commands behind them.** -/
theorem Cut.append (h : Cut accepts part m cmds m') (more : List (Command κ ν)) :
    Cut accepts part m (cmds ++ more) m' := by
  obtain ⟨i, hend | ⟨next, hnext, hbegun⟩⟩ := h
  · refine ⟨min i cmds.length, .inl ?_⟩
    rw [List.take_append_of_le_length (Nat.min_le_right _ _), ← List.take_eq_take_min]
    exact hend
  · obtain ⟨hi, -⟩ := List.getElem?_eq_some_iff.mp hnext
    refine ⟨i, .inr ⟨next, ?_, ?_⟩⟩
    · rw [List.getElem?_append_left hi]
      exact hnext
    · rw [List.take_append_of_le_length (Nat.le_of_lt hi)]
      exact hbegun

theorem Cut.one (cmd : Command κ ν) (cmds : List (Command κ ν)) :
    Cut accepts part m (cmd :: cmds) (step accepts m cmd) := .cons (.nothing cmds)

/-- What is on the shelf does not matter to commands that copy nothing. -/
theorem run_idle {home : κ → Option β} (h : ∀ cmd ∈ cmds, Idle accepts home cmd)
    (shelf : ν → Option β) : run accepts ⟨home, shelf⟩ cmds = ⟨home, shelf⟩ := by
  induction cmds with
  | nil => rfl
  | cons cmd cmds ih =>
    show run accepts (step accepts ⟨home, shelf⟩ cmd) cmds = _
    rw [h cmd List.mem_cons_self shelf]
    exact ih fun later hlater => h later (List.mem_cons_of_mem cmd hlater)

/-- A copy that was begun is behind one that was carried out. -/
theorem Behind.of_begun {place : κ} {name : ν} (h : Begun accepts part m (.put place name) m') :
    Behind part (step accepts m (.put place name)) m' := by
  cases h with
  | @put _ _ thing piece hthing haccepts hpart =>
    rw [step_put hthing haccepts]
    refine .inr ⟨place, name, thing, piece, hthing, Function.update_self _ _ _, hpart, ?_⟩
    rw [Function.update_idem]

end Stopped

end Mirror
