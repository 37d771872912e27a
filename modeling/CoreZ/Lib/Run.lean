import Mathlib.Logic.Basic

/-!
# `CoreZ.Lib.Run`: runs of a transition function

A system is a transition function `step : σ → α → Option σ`: the
action carries every choice of the environment, and `none` says that
the action is not possible in the state. `run` folds the function
over a list of actions.

Two rules carry every invariant of the development.
`run_invariant` is plain induction: what one step keeps, a run keeps.
`run_invariant_of_along` is the same rule for the runs whose steps all
meet a condition `good`, a relation between the state before the step
and the action. A run meets the condition when `Along step good` holds
for it.
-/

set_option autoImplicit false

namespace CoreZ.Lib

variable {σ α : Type*}

/-- The state after a list of actions, or `none` when one of them is
not possible. -/
def run (step : σ → α → Option σ) : σ → List α → Option σ
  | s, [] => some s
  | s, a :: as => (step s a).bind fun s' => run step s' as

/-- Every step of the run meets `good`, read at the state before the
step. -/
def Along (step : σ → α → Option σ) (good : σ → α → Prop) : σ → List α → Prop
  | _, [] => True
  | s, a :: as => good s a ∧ ∀ s', step s a = some s' → Along step good s' as

section

variable (step : σ → α → Option σ)

@[simp] theorem run_nil (s : σ) : run step s [] = some s := rfl

@[simp] theorem run_cons (s : σ) (a : α) (as : List α) :
    run step s (a :: as) = (step s a).bind fun s' => run step s' as := rfl

@[simp] theorem along_nil (good : σ → α → Prop) (s : σ) : Along step good s [] := trivial

end

variable {as : List α} {a : α} {s : σ} {I : σ → Prop} {step : σ → α → Option σ}
  {good p : σ → α → Prop}

variable {t s' : σ} {P : σ → Prop} {q : σ → α → Prop}

/-- The run of a cons is one step and the run of the rest. -/
theorem run_cons_eq_some :
    run step s (a :: as) = some t ↔ ∃ s', step s a = some s' ∧ run step s' as = some t := by
  rw [run_cons, Option.bind_eq_some_iff]

/-- A run follows a step that is known. -/
theorem run_cons_of_eq_some (h : step s a = some s') : run step s (a :: as) = run step s' as := by
  rw [run_cons, h, Option.bind_some]

/-- Extend a condition along a run by the step before it. -/
theorem Along.cons (hgood : good s a) (hstep : step s a = some s') (h : Along step good s' as) :
    Along step good s (a :: as) := by
  refine ⟨hgood, fun t ht => ?_⟩
  rw [hstep] at ht
  cases ht
  exact h

/-- A run whose end and whose condition are known step by step. -/
structure Reaches (step : σ → α → Option σ) (good : σ → α → Prop) (s : σ) (as : List α) (t : σ) :
    Prop where
  ends : run step s as = some t
  along : Along step good s as

theorem Reaches.nil : Reaches step good s [] s := ⟨rfl, trivial⟩

/-- One step more, at the front. -/
theorem Reaches.cons (hgood : good s a) (hstep : step s a = some s')
    (h : Reaches step good s' as t) :
    Reaches step good s (a :: as) t :=
  ⟨(run_cons_of_eq_some hstep).trans h.ends, Along.cons hgood hstep h.along⟩

/-- A run that is shown step by step. -/
theorem Reaches.exists (hP : run step s as = some t → Along step good s as → P t)
    (h : Reaches step good s as t) :
    ∃ t, run step s as = some t ∧ P t := ⟨t, h.ends, hP h.ends h.along⟩

/-- A state that is found by evaluation. -/
theorem exists_of_any {o : Option σ} {Q : σ → Prop} [DecidablePred P]
    (h : (o.any fun s => decide (P s)) = true) (hQ : ∀ s, o = some s → P s → Q s) :
    ∃ s, o = some s ∧ Q s := by
  obtain ⟨s, hs, hP⟩ := (Option.any_eq_true ..).mp h
  exact ⟨s, hs, hQ s hs (of_decide_eq_true hP)⟩

/-- A condition that can be evaluated can be evaluated along a run. -/
instance Along.decidable (step : σ → α → Option σ) (good : σ → α → Prop)
    [∀ s a, Decidable (good s a)] : ∀ (s : σ) (as : List α), Decidable (Along step good s as)
  | _, [] => isTrue trivial
  | s, a :: as =>
    match h : step s a with
    | none => decidable_of_iff (good s a)
        ⟨fun hg => ⟨hg, fun _ hs => nomatch h.symm.trans hs⟩, And.left⟩
    | some s' =>
      have := Along.decidable step good s' as
      decidable_of_iff (good s a ∧ Along step good s' as)
        ⟨fun hg => Along.cons hg.1 h hg.2, fun hg => ⟨hg.1, hg.2 s' h⟩⟩

/-- A weaker condition along a run. -/
theorem Along.mono (hpq : ∀ s a, p s a → q s a) :
    ∀ {as : List α} {s : σ}, Along step p s as → Along step q s as := by
  intro as
  induction as with
  | nil => intro s _; exact along_nil _ _ s
  | cons a as ih =>
    intro s hp
    exact ⟨hpq s a hp.1, fun s' h => ih (hp.2 s' h)⟩

/-- Two conditions along a run are their conjunction along it. -/
theorem Along.and :
    ∀ {as : List α} {s : σ}, Along step p s as → Along step q s as →
      Along step (fun s a => p s a ∧ q s a) s as := by
  intro as
  induction as with
  | nil => intro s _ _; exact along_nil _ _ s
  | cons a as ih =>
    intro s hp hq
    exact ⟨⟨hp.1, hq.1⟩, fun s' h => ih (hp.2 s' h) (hq.2 s' h)⟩

section

variable (hstep : ∀ s a s', I s → good s a → step s a = some s' → I s')

include hstep

/-- What every good step keeps, a run of good steps keeps. -/
theorem run_invariant_of_along :
    ∀ (as : List α) (s t : σ), I s → Along step good s as → run step s as = some t → I t := by
  intro as
  induction as with
  | nil =>
    intro s t hs _ hrun
    cases hrun
    exact hs
  | cons a as ih =>
    intro s t hs hgood hrun
    obtain ⟨s', hsa, hrest⟩ := run_cons_eq_some.mp hrun
    exact ih s' t (hstep s a s' hs hgood.1 hsa) (hgood.2 s' hsa) hrest

/-- What holds of every good step from a state of the invariant holds along a run of
good steps. -/
theorem Along.of_invariant (hp : ∀ s a, I s → good s a → p s a) :
    ∀ (as : List α) (s : σ), I s → Along step good s as → Along step p s as := by
  intro as
  induction as with
  | nil => intro s _ _; exact along_nil _ _ s
  | cons a as ih =>
    intro s hs hgood
    exact ⟨hp s a hs hgood.1, fun s' h => ih s' (hstep s a s' hs hgood.1 h) (hgood.2 s' h)⟩

end

/-- Two conditions that agree on the states of an invariant agree along a run. -/
theorem Along.iff_of_invariant (hstep : ∀ s a s', I s → step s a = some s' → I s')
    (hiff : ∀ s a, I s → (p s a ↔ q s a)) (as : List α) {s : σ} (hs : I s) :
    Along step p s as ↔ Along step q s as :=
  ⟨.of_invariant (fun s a s' hs _ => hstep s a s' hs) (fun s a hs => (hiff s a hs).mp) as s hs,
    .of_invariant (fun s a s' hs _ => hstep s a s' hs) (fun s a hs => (hiff s a hs).mpr) as s hs⟩

theorem along_true : ∀ (as : List α) (s : σ), Along step (fun _ _ => True) s as := by
  intro as
  induction as with
  | nil => intro s; exact along_nil _ _ s
  | cons a as ih => intro s; exact ⟨trivial, fun s' _ => ih s'⟩

/-- What every step keeps, a run keeps. -/
theorem run_invariant (hstep : ∀ s a s', I s → step s a = some s' → I s') {as : List α} {s t : σ}
    (hs : I s) (hrun : run step s as = some t) : I t :=
  run_invariant_of_along (fun s a s' hs _ => hstep s a s' hs) as s t hs (along_true as s) hrun

/-- A good step keeps the invariant, and only a good step leads to a state with the
property: then the states of a run have the property exactly when all its steps are
good. -/
theorem forall_prefix_iff_along (hI : ∀ s, I s → P s)
    (hgood : ∀ s a s', a ∈ as → I s → good s a → step s a = some s' → I s')
    (hbad : ∀ s a s', a ∈ as → I s → step s a = some s' → P s' → good s a) :
    ∀ {s t : σ}, I s → run step s as = some t →
      ((∀ bs, bs <+: as → ∀ u, run step s bs = some u → P u) ↔ Along step good s as) := by
  induction as with
  | nil =>
    intro s t hs _
    refine ⟨fun _ => along_nil _ _ s, fun _ bs hbs u hu => ?_⟩
    rw [List.prefix_nil.mp hbs] at hu
    cases hu
    exact hI s hs
  | cons a as ih =>
    intro s t hs hrun
    obtain ⟨s', hsa, hrest⟩ := run_cons_eq_some.mp hrun
    have hlater := fun hg : good s a =>
      ih (fun s b s' hb => hgood s b s' (List.mem_cons_of_mem _ hb))
        (fun s b s' hb => hbad s b s' (List.mem_cons_of_mem _ hb))
        (hgood s a s' List.mem_cons_self hs hg hsa) hrest
    constructor
    · intro hall
      -- the state after the step is one of those that the run passes
      have hg : good s a := by
        refine hbad s a s' List.mem_cons_self hs hsa (hall [a] ⟨as, rfl⟩ s' ?_)
        rw [run_cons_of_eq_some hsa, run_nil]
      refine Along.cons hg hsa ((hlater hg).mp fun bs hbs u hu => ?_)
      refine hall (a :: bs) (List.cons_prefix_cons.mpr ⟨rfl, hbs⟩) u ?_
      rw [run_cons_of_eq_some hsa, hu]
    · intro halong bs hbs u hu
      cases bs with
      | nil =>
        cases hu
        exact hI s hs
      | cons c bs =>
        obtain ⟨rfl, hrest⟩ := List.cons_prefix_cons.mp hbs
        rw [run_cons_of_eq_some hsa] at hu
        exact (hlater halong.1).mpr (halong.2 s' hsa) bs hrest u hu

/-- Where a step keeps `I` exactly when it is good, a run stays in `I`
exactly when all its steps are good. -/
theorem along_iff_forall_prefix
    (hstep : ∀ s a s', a ∈ as → I s → step s a = some s' → (I s' ↔ good s a)) (hs : I s)
    (hrun : run step s as = some t) :
    (∀ bs, bs <+: as → ∀ u, run step s bs = some u → I u) ↔ Along step good s as :=
  forall_prefix_iff_along (fun _ h => h)
    (fun s a s' ha hs hg h => (hstep s a s' ha hs h).mpr hg)
    (fun s a s' ha hs h => (hstep s a s' ha hs h).mp) hs hrun

end CoreZ.Lib
