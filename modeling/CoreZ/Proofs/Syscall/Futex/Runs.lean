import CoreZ.Lib.Run
import CoreZ.Proofs.Syscall.Futex.Steps

/-!
# `CoreZ.Proofs.Syscall.Futex.Runs`: what a wake returns, in any schedule

`futex_accounting` says what a wake counts: the waits that then return 0, and no others;
and that a wake with enough count leaves none of its waiters asleep. Two things break
this. The waiter that was counted still has `sleep_intr` set until it runs, so a signal in
that time makes it return `-EINTR`; it does the same when the signal is stored first and the
wake comes before `thread_ready`. And the count is compared as an `int32_t`, so a wake with
a count of 2³¹ or more wakes nobody (`not_honest_signal`).
-/

set_option autoImplicit false

namespace CoreZ.Proofs.Syscall.Futex

open CoreZ.Lib
open CoreZ.Lib.RefCount (FiniteRefs)
open CoreZ.Sched (Task)
open CoreZ.Syscall.Futex

/-! ### Runs -/

section Runs

variable {s s' : State} {t u : Task}

/-- Every stage of a waker. -/
theorem Inv.wakeStep {a : WakeArgs} {id n : Nat} {stage : Stage} {todo : List Task}
    {value : BitVec 32} (h : Inv s) (he : Undisturbed s (.proceed u value))
    (hu : (s.task u).pc = .waking a id stage todo n) : Inv (s.wakeStep u a id todo n stage) := by
  cases stage with
  | selected t => exact h.disarm hu
  | disarmed t => exact h.mark hu
  | marked t => exact h.unblock hu
  | scan =>
    cases todo with
    | nil => exact h.leave hu
    | cons t rest =>
      simp only [State.wakeStep]
      split
      · rename_i hcount
        split
        · rename_i hm
          -- only a task in `asleep` is blocked
          have hpc : (s.task t).pc = .asleep := by
            have htask := h.calls.task t
            cases hpc : (s.task t).pc <;> simp_all [TaskOk]
          refine h.scan hu (fun x hx => ?_) fun x _ _ hmem => ?_
          · cases hx
            exact ⟨rfl, ⟨hpc, hm.2⟩, hm.1, he a id t rest n hu hcount hm⟩
          · rcases List.mem_cons.mp hmem with rfl | hmem
            · exact .inr rfl
            · exact .inl hmem
        · rename_i hm
          refine h.scan hu (fun x hx => ?_) fun x hs hfits hmem => ?_
          · cases hx
          · rcases List.mem_cons.mp hmem with rfl | hmem
            · exact absurd ⟨hfits, hs.2⟩ hm
            · exact .inl hmem
      · exact h.leave hu

/-- Every place of a task. -/
theorem Inv.proceed {value : BitVec 32} (h : Inv s) (he : Undisturbed s (.proceed t value))
    (hstep : s.proceed t value = some s') : Inv s' := by
  unfold State.proceed at hstep
  cases hpc : (s.task t).pc <;> simp only [hpc] at hstep
  case idle => cases hstep
  case waitLock val ticks =>
    simp only [State.enqueue, Option.ite_none_left_eq_some, ne_eq, Decidable.not_not] at hstep
    obtain ⟨hfree, hstep⟩ := hstep
    split at hstep
    · cases hstep
      exact h.refuse hpc
    split at hstep
    · cases hstep
      exact h.refuse hpc
    · cases hstep
      exact h.enqueue hpc rfl hfree
  case waitPrepare ticks =>
    cases hstep
    exact h.prepare hpc
  case asleep =>
    simp only [Option.ite_none_left_eq_some, Bool.not_eq_true, Option.some.injEq] at hstep
    obtain ⟨hblocked, rfl⟩ := hstep
    exact h.resume hpc hblocked
  case resumed =>
    cases hstep
    exact h.read hpc
  case unlink ready => exact h.unlink hpc hstep
  case finish ready =>
    cases hstep
    exact h.finish hpc
  case wakeLock a id =>
    simp only [Option.ite_none_left_eq_some, ne_eq, Decidable.not_not, Option.some.injEq] at hstep
    obtain ⟨hfree, rfl⟩ := hstep
    exact h.wakeLock hpc rfl hfree
  case waking a id stage todo woken =>
    cases hstep
    exact h.wakeStep he hpc

/-- Every event keeps the invariant. -/
theorem Inv.step {e : Event} (h : Inv s) (he : Undisturbed s e) (hstep : step s e = some s') :
    Inv s' := by
  cases e <;> simp only [CoreZ.Syscall.Futex.step, Option.ite_none_right_eq_some,
    Option.some.injEq] at hstep
  case wait t uaddr val bitset ticks =>
    obtain ⟨hpc, rfl⟩ := hstep
    exact h.wait hpc uaddr val bitset ticks
  case wake t a =>
    obtain ⟨hpc, rfl⟩ := hstep
    exact h.wake hpc he
  case proceed t value => exact h.proceed he hstep
  case timer t =>
    obtain ⟨harmed, rfl⟩ := hstep
    exact h.timer harmed he
  case signal k t =>
    obtain ⟨-, rfl⟩ := hstep
    split
    · exact h.setSender k _
    · exact h
  case send k => exact h.send he hstep

/-- The invariant gives the counts. -/
theorem Inv.accounted (h : Inv s) : Accounted s := by
  refine ⟨h.balance.sum, fun t id hid hs => ?_⟩
  have htask := h.calls.task t
  simp only [TaskOk, hs.1] at htask
  rw [htask.2.1 hs.2] at hid
  cases hid

/-- Waits and wakes return what they should. -/
theorem Inv.honest (h : Inv s) (e : Event) : Honest s e := by
  cases e with
  | proceed t value =>
    have htask := h.calls.task t
    refine ⟨fun val ticks hpc => ?_, fun ready hpc => ?_, fun a id todo woken hpc _ => ?_⟩
    · simp only [TaskOk, hpc] at htask
      exact htask.2.2
    · simp only [TaskOk, hpc] at htask
      exact htask.2.result_eq_zero_iff
    · exact (h.numbers.woken t id woken (by rw [hpc]; rfl)).2.symm
  | _ => trivial

/-- A wake that leaves a matching sleeper has used up its count. -/
theorem Inv.notLost (h : Inv s) (e : Event) : NotLost s e := by
  cases e with
  | proceed u value =>
    intro a id todo woken hpc hstops t hs hm
    have hsmall := h.numbers.small u a (by rw [hpc]; rfl)
    rcases hstops with hcount | hnil
    · -- a count below 2³¹ is the same number as an `int32_t`
      rw [BitVec.toInt_eq_toNat_of_lt (by omega)] at hcount
      exact Int.ofNat_le.mp hcount
    rcases (h.calls.waker _ _ _ _ _ _ hpc).complete t hs hm with hmem | hx
    · rw [hnil] at hmem
      cases hmem
    · cases hx
  | _ => trivial

/-- It holds at the start. -/
theorem init_inv (pml4 : Task → BitVec 32) : Inv (State.init pml4) := by
  have hcounted : ∀ t id, (State.init pml4).counted t ≠ some id := fun t id hid => by cases hid
  refine ⟨?_, ⟨fun t => ?_, ?_, ?_⟩, ⟨?_, ?_, ?_, fun _ _ => rfl⟩, ?_⟩
  · intro b t
    constructor
    · intro hb
      cases hb
    · intro hl
      cases hl
  · exact ⟨rfl, rfl, rfl⟩
  · intro u a id stage todo n hu
    cases hu
  · rintro t (⟨hs, -⟩ | ⟨ticks, hp⟩)
    · cases hs.1
    · cases hp
  · intro u a ha
    cases ha
  · intro u id n hn
    cases hn
  · intro u v id m n hm
    cases hm
  · have hfinite : FiniteRefs (State.init pml4).counted := by
      intro id
      have hempty : RefCount.holders (State.init pml4).counted id = ∅ :=
        Set.eq_empty_iff_forall_notMem.mpr fun t => hcounted t id
      rw [hempty]
      exact Set.finite_empty
    refine ⟨hfinite, fun id => ?_⟩
    rw [(RefCount.count_eq_zero_iff hfinite).mpr fun t => hcounted t id]
    rfl

end Runs

/-- Task 0 waits, and task 1 wakes it up. -/
def handOver : List Event :=
  [.wait 0 16 5 1 none, .proceed 0 5, .proceed 0 0, .wake 1 ⟨16, 1, 1⟩, .proceed 1 0, .proceed 1 0,
    .proceed 1 0, .proceed 1 0, .proceed 1 0, .proceed 1 0, .proceed 0 0, .proceed 0 0,
    .proceed 0 0,
    .proceed 0 0]

end CoreZ.Proofs.Syscall.Futex
