import Mathlib

/-!
# Runs of a step function: invariants and simulation

A component whose operations are applied one after another is a step function
`step : σ → ι → σ`, and a run over a sequence of operations is the left fold of
it. The rules the refinement proofs here use:

* **invariant** — a property kept by every step holds after every run
  (`foldl_invariant`);
* **simulation** — a relation kept by every pair of steps relates the two runs
  (`foldl_related`), and an abstraction that commutes with every step on states
  of the invariant maps each concrete run to the abstract run
  (`foldl_simulation_admitted`);
* **refinement** of a relational specification, whose steps may leave a choice
  (`RelRun`): when every step of the invariant is matched by a step of the
  specification, the abstraction of each run is a run of the specification
  (`foldl_refines_labelled`).

They admit a side condition on the operations (`P`), for components whose
operations are only specified within bounds; where the bound depends on the
state an operation is applied in, the run carries it (`RunAdmitted`; a bound on
a measure that only grows is met along the run when it is met at its end,
`RunAdmitted.of_monotone`), and where the specification's step needs to know
what the concrete step returned or found, it reads a label of it
(`runLabels`, `foldl_simulation_labelled`, `foldl_refines_labelled`).
-/

namespace CLib

variable {σ τ ι : Type}

/-- A property kept by every step holds after every run. -/
theorem foldl_invariant {step : σ → ι → σ} {Inv : σ → Prop}
    (hstep : ∀ s i, Inv s → Inv (step s i)) :
    ∀ (ops : List ι) (s : σ), Inv s → Inv (ops.foldl step s) := by
  intro ops
  induction ops with
  | nil => intro s hs; exact hs
  | cons op rest ih =>
    intro s hs
    exact ih (step s op) (hstep s op hs)

/-- Simulation by a relation: if every step of an admitted operation from
related states leads to related states, the two runs of the same admitted
operations end related. -/
theorem foldl_related {cstep : σ → ι → σ} {astep : τ → ι → τ} {R : σ → τ → Prop} {P : ι → Prop}
    (hstep : ∀ s t i, P i → R s t → R (cstep s i) (astep t i)) :
    ∀ (ops : List ι) (s : σ) (t : τ), (∀ i ∈ ops, P i) → R s t →
      R (ops.foldl cstep s) (ops.foldl astep t) := by
  intro ops
  induction ops with
  | nil => intro s t _ hst; exact hst
  | cons op rest ih =>
    intro s t hops hst
    exact ih (cstep s op) (astep t op) (fun i hi => hops i (List.mem_cons_of_mem op hi))
      (hstep s t op (hops op List.mem_cons_self) hst)

/-- The runs of a relational step: `RelRun spec a ops b` when the operations
can lead from `a` to `b`. -/
inductive RelRun (spec : τ → ι → τ → Prop) : τ → List ι → τ → Prop
  | nil (a : τ) : RelRun spec a [] a
  | cons {a b c : τ} {i : ι} {is : List ι} : spec a i b → RelRun spec b is c → RelRun spec a (i :: is) c

/-- Each operation of a run is admitted in the state it is applied to. -/
def RunAdmitted (step : σ → ι → σ) (P : σ → ι → Prop) : σ → List ι → Prop
  | _, [] => True
  | s, i :: is => P s i ∧ RunAdmitted step P (step s i) is

instance RunAdmitted.instDecidable {step : σ → ι → σ} {P : σ → ι → Prop}
    [∀ s i, Decidable (P s i)] : (s : σ) → (ops : List ι) → Decidable (RunAdmitted step P s ops)
  | _, [] => inferInstanceAs (Decidable True)
  | s, i :: is =>
    haveI : Decidable (RunAdmitted step P (step s i) is) := RunAdmitted.instDecidable (step s i) is
    inferInstanceAs (Decidable (P s i ∧ RunAdmitted step P (step s i) is))

/-- A measure no step decreases does not decrease over a run. -/
theorem le_foldl_of_monotone {β : Type} [Preorder β] {step : σ → ι → σ} (μ : σ → β)
    (hmono : ∀ s i, μ s ≤ μ (step s i)) : ∀ (ops : List ι) (s : σ), μ s ≤ μ (ops.foldl step s)
  | [], _ => le_rfl
  | i :: is, s => le_trans (hmono s i) (le_foldl_of_monotone μ hmono is (step s i))

/-- A bound that a measure no step decreases meets at the end of a run, it meets
after every step of the run. -/
theorem RunAdmitted.of_monotone {β : Type} [Preorder β] {step : σ → ι → σ} (μ : σ → β) {b : β}
    (hmono : ∀ s i, μ s ≤ μ (step s i)) :
    ∀ (ops : List ι) (s : σ), μ (ops.foldl step s) ≤ b →
      RunAdmitted step (fun s i => μ (step s i) ≤ b) s ops
  | [], _, _ => trivial
  | i :: is, s, h =>
    ⟨le_trans (le_foldl_of_monotone μ hmono is (step s i)) h, RunAdmitted.of_monotone μ hmono is (step s i) h⟩

/-- Forward simulation over runs whose operations are admitted in the states
they meet: the invariant holds after the run, and the run is abstracted to the
abstract run of the same operations. -/
theorem foldl_simulation_admitted {cstep : σ → ι → σ} {astep : τ → ι → τ} {abs : σ → τ}
    {Inv : σ → Prop} {P : σ → ι → Prop} (hinv : ∀ s i, P s i → Inv s → Inv (cstep s i))
    (hsim : ∀ s i, P s i → Inv s → abs (cstep s i) = astep (abs s) i) :
    ∀ (ops : List ι) (s : σ), RunAdmitted cstep P s ops → Inv s →
      Inv (ops.foldl cstep s) ∧ abs (ops.foldl cstep s) = ops.foldl astep (abs s) := by
  intro ops
  induction ops with
  | nil => intro s _ hs; exact ⟨hs, rfl⟩
  | cons op rest ih =>
    intro s hops hs
    obtain ⟨hop, hrest⟩ := hops
    obtain ⟨hinv', habs⟩ := ih (cstep s op) hrest (hinv s op hop hs)
    rw [List.foldl_cons, List.foldl_cons, ← hsim s op hop hs]
    exact ⟨hinv', habs⟩

variable {ε : Type}

/-- The labels a run shows: each operation's, computed from the state it is
applied to (what a call returned, or what it found there). -/
def runLabels (step : σ → ι → σ) (label : σ → ι → ε) : σ → List ι → List ε
  | _, [] => []
  | s, i :: is => label s i :: runLabels step label (step s i) is

/-- Refinement over runs whose operations are admitted in the states they
meet, against a specification whose steps read a label of the concrete step:
the invariant holds after the run, and its abstraction is a run of the
specification through the labels the run shows. -/
theorem foldl_refines_labelled {cstep : σ → ι → σ} {spec : τ → ε → τ → Prop} {abs : σ → τ}
    {label : σ → ι → ε} {Inv : σ → Prop} {P : σ → ι → Prop}
    (hinv : ∀ s i, P s i → Inv s → Inv (cstep s i))
    (hsim : ∀ s i, P s i → Inv s → spec (abs s) (label s i) (abs (cstep s i))) :
    ∀ (ops : List ι) (s : σ), RunAdmitted cstep P s ops → Inv s →
      Inv (ops.foldl cstep s) ∧
        RelRun spec (abs s) (runLabels cstep label s ops) (abs (ops.foldl cstep s)) := by
  intro ops
  induction ops with
  | nil => intro s _ hs; exact ⟨hs, RelRun.nil _⟩
  | cons op rest ih =>
    intro s hops hs
    obtain ⟨hop, hrest⟩ := hops
    obtain ⟨hinv', hrun⟩ := ih (cstep s op) hrest (hinv s op hop hs)
    exact ⟨hinv', RelRun.cons (hsim s op hop hs) hrun⟩

/-- Forward simulation through labels: where the abstract step reads a label
of the concrete one, the abstraction of the run is the abstract run of the
labels the run shows. -/
theorem foldl_simulation_labelled {cstep : σ → ι → σ} {astep : τ → ε → τ} {abs : σ → τ}
    {label : σ → ι → ε} {Inv : σ → Prop} {P : σ → ι → Prop}
    (hinv : ∀ s i, P s i → Inv s → Inv (cstep s i))
    (hsim : ∀ s i, P s i → Inv s → abs (cstep s i) = astep (abs s) (label s i)) :
    ∀ (ops : List ι) (s : σ), RunAdmitted cstep P s ops → Inv s →
      Inv (ops.foldl cstep s) ∧
        abs (ops.foldl cstep s) = (runLabels cstep label s ops).foldl astep (abs s) := by
  intro ops
  induction ops with
  | nil => intro s _ hs; exact ⟨hs, rfl⟩
  | cons op rest ih =>
    intro s hops hs
    obtain ⟨hop, hrest⟩ := hops
    obtain ⟨hinv', habs⟩ := ih (cstep s op) hrest (hinv s op hop hs)
    rw [List.foldl_cons, runLabels, List.foldl_cons, ← hsim s op hop hs]
    exact ⟨hinv', habs⟩

end CLib
