import CoreZ.Lib.Prog

/-!
# `CoreZ.Lib.Guard`: programs that check an address before they use it

A program works on memory that it may not be allowed to touch. It can have a
range of addresses checked, for reading or for writing, and it reads and
writes ranges. The log keeps both, the newest act first: `check r` when a
check of `r` was answered with yes, `touch r` when the bytes of `r` were read
or written.

`Guarded log` is the discipline: every byte that was touched lies in a range
that was checked for the direction before. A check for writing also allows
reading.

A program is a `Call`, an `EStateM` over the log. `Granted rs` is the
assertion that carries a proof: the log is guarded, and the ranges `rs` have
been checked. A check adds to `rs`, and a touch needs one of `rs`.
-/

set_option autoImplicit false

namespace CoreZ.Lib

inductive Dir
  | read
  | write
deriving DecidableEq, Repr

/-- The bytes from `base` on, `len` of them, for one direction. -/
structure Range where
  base : Nat
  len : Nat
  dir : Dir
deriving DecidableEq, Repr

variable {c r : Range} {x : Nat}

namespace Range

def Has (r : Range) (x : Nat) : Prop := r.base ≤ x ∧ x < r.base + r.len

/-- What a check of `r` allows: what can be written can be read. -/
def Allows (r : Range) (d : Dir) (x : Nat) : Prop := r.Has x ∧ (r.dir = .write ∨ d = .read)

/-- A check of `c` allows all of `r`. -/
def Holds (c r : Range) : Prop :=
  c.base ≤ r.base ∧ r.base + r.len ≤ c.base + c.len ∧ (c.dir = .write ∨ r.dir = .read)

theorem Holds.allows (h : c.Holds r) (hx : r.Has x) : c.Allows r.dir x := by
  obtain ⟨hbase, hend, hdir⟩ := h
  obtain ⟨hlo, hhi⟩ := hx
  exact ⟨⟨by omega, by omega⟩, hdir⟩

theorem Holds.refl (r : Range) : r.Holds r := by
  refine ⟨Nat.le_refl _, Nat.le_refl _, ?_⟩
  cases r.dir with
  | read => exact .inr rfl
  | write => exact .inl rfl

end Range

/-- An act of a program: a check that was answered with yes, or an access. -/
inductive Act
  | check (r : Range)
  | touch (r : Range)
deriving DecidableEq, Repr

/-- Every byte of `r` has been checked for its direction. -/
def Covered (log : List Act) (r : Range) : Prop :=
  ∀ x, r.Has x → ∃ c, Act.check c ∈ log ∧ c.Allows r.dir x

/-- Every byte that was touched had been checked before. -/
def Guarded : List Act → Prop
  | [] => True
  | .check _ :: log => Guarded log
  | .touch r :: log => Covered log r ∧ Guarded log

@[simp] theorem guarded_nil : Guarded [] := trivial

/-- One byte of the range that no check allows. -/
theorem not_covered {log : List Act} (hx : r.Has x)
    (h : ∀ c, Act.check c ∈ log → ¬ c.Allows r.dir x) : ¬ Covered log r := by
  intro hcov
  obtain ⟨c, hc, hallows⟩ := hcov x hx
  exact h c hc hallows

/-- What was guarded so far does not depend on what follows. -/
theorem Guarded.of_append {log : List Act} :
    ∀ {later : List Act}, Guarded (later ++ log) → Guarded log := by
  intro later
  induction later with
  | nil => exact id
  | cons a later ih =>
    intro h
    cases a with
    | check c => exact ih h
    | touch c => exact ih h.2

/-- A program over the log; it can stop with an error number. -/
abbrev Call (α : Type) := EStateM Int (List Act) α

namespace Call

variable {α : Type}

/-- The range has been checked and may be used. -/
def accept (r : Range) : Call Unit := modify fun log => .check r :: log

/-- The bytes of the range are read or written. -/
def touch (r : Range) : Call Unit := modify fun log => .touch r :: log

/-- The log that a result carries. -/
def after : EStateM.Result Int (List Act) α → List Act
  | .ok _ log => log
  | .error _ log => log

/-- The log of the whole program. -/
def log (x : Call α) : List Act := after (x [])

end Call

/-- The log is guarded and the ranges `rs` have been checked. -/
def Granted (rs : List Range) (log : List Act) : Prop :=
  Guarded log ∧ ∀ r ∈ rs, Act.check r ∈ log

theorem Granted.mono {rs rs' : List Range} {log : List Act} (h : Granted rs log)
    (hsub : ∀ r ∈ rs', r ∈ rs) : Granted rs' log := ⟨h.1, fun r hr => h.2 r (hsub r hr)⟩

theorem Granted.tail {rs : List Range} {log : List Act} (h : Granted (r :: rs) log) :
    Granted rs log := h.mono fun _ hr => List.mem_cons_of_mem r hr

/-- A program that keeps its log guarded from the start. -/
theorem guarded_of_keeps {α : Type} {x : Call α} (h : Keeps (Granted []) x) : Guarded x.log := by
  have hx := h [] ⟨guarded_nil, by simp⟩
  rw [Call.log]
  revert hx
  cases x [] <;> exact And.left

section Rules

variable {rs : List Range} {E : Int → List Act → Prop}

theorem accept_granted {r : Range} :
    Triple (Granted rs) (Call.accept r) (fun _ => Granted (r :: rs)) E := by
  refine Triple.modify fun log hlog => ⟨hlog.1, fun c hc => ?_⟩
  rcases List.mem_cons.mp hc with rfl | hc
  · exact List.mem_cons_self
  · exact List.mem_cons_of_mem _ (hlog.2 c hc)

/-- What has been checked can be touched. -/
theorem touch_keeps (hc : c ∈ rs) (h : c.Holds r) : Keeps (Granted rs) (Call.touch r) := by
  refine Triple.modify fun log hlog => ⟨⟨?_, hlog.1⟩, ?_⟩
  · intro x hx
    exact ⟨c, hlog.2 c hc, h.allows hx⟩
  · intro d hd
    exact List.mem_cons_of_mem _ (hlog.2 d hd)

/-- An access to no bytes needs no check. -/
theorem touch_keeps_empty (h : r.len = 0) : Keeps (Granted rs) (Call.touch r) := by
  refine Triple.modify fun log hlog => ⟨⟨?_, hlog.1⟩, ?_⟩
  · intro x hx
    obtain ⟨hlo, hhi⟩ := hx
    omega
  · intro d hd
    exact List.mem_cons_of_mem _ (hlog.2 d hd)

end Rules

end CoreZ.Lib
