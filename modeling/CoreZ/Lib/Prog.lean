import Mathlib.Logic.Basic

/-!
# `CoreZ.Lib.Prog`: pre- and postconditions of programs that can stop early

A program is an `EStateM ε σ α`: it changes a state of type `σ` and ends
with a value, or stops with an `ε` and leaves the state as it is at that
moment. `Triple P x Q E` says that from a state of `P` the program `x` ends
in `Q`, or stops in `E`. The rules follow the constructors of a program:
one for each way to build it, and `weaken` for what holds before and after.

`Keeps I x` is the case that matters for invariants: `I` holds afterwards
whether `x` ends or stops.
-/

set_option autoImplicit false

namespace CoreZ.Lib

variable {ε σ α β : Type}

variable {x : EStateM ε σ α} {f : α → EStateM ε σ β} {s : σ}

/-- The rest of a program, after a part whose result is known. -/
theorem bind_of_ok {s' : σ} {a : α} (h : x s = .ok a s') : (x >>= f) s = f a s' := by
  show EStateM.bind x f s = f a s'
  unfold EStateM.bind
  rw [h]

/-- A program stops where its first part does. -/
theorem bind_of_error {s' : σ} {e : ε} (h : x s = .error e s') : (x >>= f) s = .error e s' := by
  show EStateM.bind x f s = .error e s'
  unfold EStateM.bind
  rw [h]

/-- A program that ends has gone through both its parts. -/
theorem bind_eq_ok {u : σ} {b : β} (h : (x >>= f) s = .ok b u) :
    ∃ a t, x s = .ok a t ∧ f a t = .ok b u := by
  change EStateM.bind x f s = .ok b u at h
  unfold EStateM.bind at h
  cases hx : x s with
  | ok a t =>
    rw [hx] at h
    exact ⟨a, t, rfl, h⟩
  | error e t =>
    rw [hx] at h
    exact absurd h (by simp)

/-- From a state of `P`, `x` ends in `Q` or stops in `E`. -/
def Triple (P : σ → Prop) (x : EStateM ε σ α) (Q : α → σ → Prop) (E : ε → σ → Prop) : Prop :=
  ∀ s, P s →
    match x s with
    | .ok a s' => Q a s'
    | .error e s' => E e s'

namespace Triple

variable {P P' : σ → Prop} {Q Q' : α → σ → Prop} {R : β → σ → Prop} {E E' : ε → σ → Prop}

/-- The rule of consequence. -/
theorem weaken (h : Triple P x Q E) (hpre : ∀ s, P' s → P s) (hpost : ∀ a s, Q a s → Q' a s)
    (hstop : ∀ e s, E e s → E' e s) : Triple P' x Q' E' := by
  intro s hs
  have hx := h s (hpre s hs)
  revert hx
  cases x s with
  | ok a s' => exact hpost a s'
  | error e s' => exact hstop e s'

theorem pre (h : Triple P x Q E) (hpre : ∀ s, P' s → P s) :
    Triple P' x Q E := h.weaken hpre (fun _ _ h => h) fun _ _ h => h

theorem post (h : Triple P x Q E) (hpost : ∀ a s, Q a s → Q' a s) :
    Triple P x Q' E := h.weaken (fun _ h => h) hpost fun _ _ h => h

theorem stop (h : Triple P x Q E) (hstop : ∀ e s, E e s → E' e s) :
    Triple P x Q E' := h.weaken (fun _ h => h) (fun _ _ h => h) hstop

/-- A program that only returns. -/
theorem pure {a : α} (h : ∀ s, P s → Q a s) : Triple (ε := ε) P (Pure.pure a) Q E := h

/-- A program that stops. -/
theorem throw {e : ε} (h : ∀ s, P s → E e s) : Triple P (MonadExcept.throw e) Q E := h

/-- Two programs in a row. -/
theorem bind (hx : Triple P x Q E) (hf : ∀ a, Triple (Q a) (f a) R E) : Triple P (x >>= f) R E := by
  intro s hs
  have h := hx s hs
  show match EStateM.bind x f s with
    | .ok b s' => R b s'
    | .error e s' => E e s'
  unfold EStateM.bind
  revert h
  cases x s with
  | ok a s' => exact hf a s'
  | error e s' => exact id

/-- The state is read. -/
theorem get {Q : σ → σ → Prop} (h : ∀ s, P s → Q s s) : Triple (ε := ε) P MonadState.get Q E := h

/-- The program goes on with the state at hand. -/
theorem get_bind {f : σ → EStateM ε σ β}
    (hf : ∀ s, Triple (fun t => t = s ∧ P t) (f s) R E) : Triple P (MonadState.get >>= f) R E :=
  fun s hs => hf s s ⟨rfl, hs⟩

/-- The state is replaced. -/
theorem set {Q : PUnit → σ → Prop} {t : σ} (h : ∀ s, P s → Q ⟨⟩ t) :
    Triple (ε := ε) P (MonadStateOf.set t) Q E := h

/-- The state is changed. -/
theorem modify {Q : PUnit → σ → Prop} {f : σ → σ} (h : ∀ s, P s → Q ⟨⟩ (f s)) :
    Triple (ε := ε) P (modify f) Q E := h

/-- A choice. -/
theorem ite {c : Prop} [Decidable c] {y : EStateM ε σ α} (hx : c → Triple P x Q E)
    (hy : ¬ c → Triple P y Q E) : Triple P (if c then x else y) Q E := by
  split
  next h => exact hx h
  next h => exact hy h

/-- Two triples of one program. -/
theorem and (h : Triple P x Q E) (h' : Triple P' x Q' E') :
    Triple (fun s => P s ∧ P' s) x (fun a s => Q a s ∧ Q' a s) fun e s => E e s ∧ E' e s := by
  intro s hs
  have hx := h s hs.1
  have hx' := h' s hs.2
  revert hx hx'
  cases x s <;> exact And.intro

/-- The state before is at hand. -/
theorem intro (h : ∀ s, P s → Triple (fun t => t = s) x Q E) :
    Triple P x Q E := fun s hs => h s hs s rfl

/-- A fact that does not depend on the state. -/
theorem fact {p : Prop} (h : p → Triple P x Q E) :
    Triple (fun s => p ∧ P s) x Q E := fun s hs => h hs.1 s hs.2

end Triple

/-- From a state of `P`, `x` ends in `Q` if it does not stop. -/
def Yields (P : σ → Prop) (x : EStateM ε σ α) (Q : α → σ → Prop) : Prop :=
  Triple P x Q fun _ _ => True

theorem Yields.any {P : σ → Prop} (x : EStateM ε σ α) : Yields P x fun _ _ => True := by
  intro s _
  cases x s <;> trivial

/-- `I` holds afterwards, whether `x` ends or stops. -/
def Keeps (I : σ → Prop) (x : EStateM ε σ α) : Prop := Triple I x (fun _ => I) fun _ => I

namespace Keeps

variable {I : σ → Prop}

theorem pure {a : α} : Keeps (ε := ε) I (Pure.pure a) := Triple.pure fun _ h => h

theorem throw {e : ε} : Keeps I (MonadExcept.throw e : EStateM ε σ α) := Triple.throw fun _ h => h

theorem bind (hx : Keeps I x) (hf : ∀ a, Keeps I (f a)) : Keeps I (x >>= f) := Triple.bind hx hf

theorem ite {c : Prop} [Decidable c] {y : EStateM ε σ α} (hx : Keeps I x) (hy : Keeps I y) :
    Keeps I (if c then x else y) := Triple.ite (fun _ => hx) fun _ => hy

/-- A program that changes the state only as `R` allows keeps what `R` keeps. -/
theorem of_frame {R : σ → σ → Prop} (h : ∀ s, Keeps (R s) x) (hrefl : ∀ s, R s s)
    (hI : ∀ s t, R s t → I s → I t) : Keeps I x := by
  refine Triple.intro fun s hs => Triple.weaken (h s) ?_ (fun _ t ht => hI s t ht hs)
    fun _ t ht => hI s t ht hs
  rintro t rfl
  exact hrefl t

/-- What is kept holds at the end. -/
theorem yields {x : EStateM ε σ α} (hx : Keeps I x) : Yields I x fun _ => I :=
  hx.stop fun _ _ _ => trivial

/-- What `x` yields, it yields beside the invariant. -/
theorem and_yields {P : σ → Prop} {Q : α → σ → Prop} (hx : Keeps I x) (h : Yields P x Q) :
    Triple (fun s => P s ∧ I s) x (fun a s => Q a s ∧ I s) fun _ => I :=
  (Triple.and h hx).weaken (fun _ hs => hs) (fun _ _ hs => hs) fun _ _ hs => hs.2

end Keeps

end CoreZ.Lib
