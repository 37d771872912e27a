import CoreZ.Lib.RefCount
import CoreZ.Syscall.Futex

/-!
# `CoreZ.Proofs.Syscall.Futex.Invariant`: what holds of waits and wakes

The result of a wait is decided late, from two flags of the task: `futex_ready`, which a
wake and the timer write, and `sleep_eintr`, which a signal writes. The invariant says
what the flags are at each point of the two functions (`TaskOk`), under the condition that
a signal or a timer does not come in between a wake and its waiter (`Undisturbed`).

A wake keeps the lock of its bucket over its whole loop. So the waiters that it is for and
that are asleep are all in front of it (`Waker.complete`), and the waiter that it has in
hand stays as it is (`Target`).
-/

set_option autoImplicit false

namespace CoreZ.Proofs.Syscall.Futex

open CoreZ.Lib.RefCount (count FiniteRefs)
open CoreZ.Sched (Task)
open CoreZ.Syscall.Futex
open Function

/-! ### The properties -/

/-- The task is blocked in `futex_do_wait`. -/
def Sleeping (s : State) (t : Task) : Prop := (s.task t).pc = .asleep ∧ (s.task t).blocked = true

/-- What a wake has counted has returned 0, or is a wait that is on its way to return. -/
def Accounted (s : State) : Prop :=
  (∀ id, s.tally id = s.served id + count s.counted id) ∧
    ∀ t id, s.counted t = some id → ¬ Sleeping s t

/-- The loop of `futex_do_wake` is at its end. -/
def Stops (a : WakeArgs) (todo : List Task) (woken : Nat) : Prop :=
  a.nr.toInt ≤ woken ∨ todo = []

/-- The step returns what it should: a wait returns 0 if and only if a wake has counted
it, and a wake returns how many it has counted. -/
def Honest (s : State) : Event → Prop
  | .proceed t _ =>
    (∀ val ticks, (s.task t).pc = .waitLock val ticks → s.counted t = none) ∧
    (∀ ready, (s.task t).pc = .finish ready →
      (result ready (s.task t).sleepEintr = 0 ↔ ∃ id, s.counted t = some id)) ∧
    (∀ a id todo woken, (s.task t).pc = .waking a id .scan todo woken → Stops a todo woken →
      woken = s.tally id)
  | _ => True

/-- A wake that leaves a waiter with its address and mask asleep has used up its count. -/
def NotLost (s : State) : Event → Prop
  | .proceed u _ =>
    ∀ a id todo woken, (s.task u).pc = .waking a id .scan todo woken → Stops a todo woken →
      ∀ t, Sleeping s t → Matches s u a t → a.nr.toNat ≤ woken
  | _ => True

/-! ### The condition -/

/-- A wake is at work on the waiter. -/
def InHand (s : State) (t : Task) : Prop :=
  ∃ u a id stage todo woken,
    (s.task u).pc = .waking a id stage todo woken ∧ stage.target = some t

/-- What must not come in between.

- A signal is not stored for a waiter that a wake has in hand or has counted.
- Its `thread_ready` does not find the task blocked in a later wait, in which `sleep_eintr`
  is clear again.
- A wake does not come to a waiter for which a signal is stored.
- No timer expires for a waiter that a wake has in hand.
- The count of a wake is not negative as an `int32_t`. -/
def Undisturbed (s : State) : Event → Prop
  | .send k =>
    (∀ t, s.sender k = some (.store t) → ¬ InHand s t ∧ s.counted t = none) ∧
    ∀ t, s.sender k = some (.ready t) → (s.task t).blocked = true → (s.task t).sleepEintr = true
  | .proceed u _ =>
    ∀ a id t todo woken, (s.task u).pc = .waking a id .scan (t :: todo) woken →
      (woken : Int) < a.nr.toInt → Matches s u a t ∧ (s.task t).blocked = true →
      (s.task t).sleepEintr = false
  | .timer t => ¬ InHand s t
  | .wake _ a => a.nr.toNat < 2147483648
  | _ => True

/-! ### The invariant -/

/-- The lock that a task has. -/
def lockOf (r : TaskRec) : Option Nat :=
  match r.pc with
  | .waitPrepare _ => some r.bucket
  | .waking a _ _ _ _ => some (futexBucketFor a.uaddr r.pml4Phys)
  | _ => none

/-- The number of a wake and what it has counted. -/
def wokenOf : Pc → Option (Nat × Nat)
  | .wakeLock _ id => some (id, 0)
  | .waking _ id _ _ woken => some (id, woken)
  | _ => none

def argsOf : Pc → Option WakeArgs
  | .wakeLock a _ => some a
  | .waking a _ _ _ _ => some a
  | _ => none

/-- The waiter that a wake has in hand. -/
def handOf : Pc → Option Task
  | .waking _ _ stage _ _ => stage.target
  | _ => none

/-- The result is settled: 0 for a wait that was counted, and not 0 for another one. -/
def Settled (ready : Nat) (eintr : Bool) : Option Nat → Prop
  | some _ => ready = 1 ∧ eintr = false
  | none => ready = 2 ∨ eintr = true

/-- What holds of a task at its point. -/
def TaskOk (r : TaskRec) (counted : Option Nat) : Prop :=
  match r.pc with
  | .asleep =>
    (r.armed = true → r.futexTimed = true) ∧
    (r.blocked = true → counted = none) ∧
    (r.blocked = false → Settled r.futexReady r.sleepEintr counted ∧
      (counted ≠ none → r.armed = false))
  | .resumed => r.blocked = false ∧ Settled r.futexReady r.sleepEintr counted
  | .unlink ready | .finish ready => r.blocked = false ∧ Settled ready r.sleepEintr counted
  | _ => r.blocked = false ∧ r.armed = false ∧ counted = none

/-- What holds of the waiter that a wake has in hand. -/
structure Target (s : State) (u : Task) (a : WakeArgs) (stage : Stage) (t : Task) : Prop where
  sleeping : Sleeping s t
  fits : Matches s u a t
  eintr : (s.task t).sleepEintr = false
  armed : stage ≠ .selected t → (s.task t).armed = false
  ready : stage = .marked t → (s.task t).futexReady = 1

/-- What holds of a wake in its loop: it will see every waiter that it is for. -/
structure Waker (s : State) (u : Task) (a : WakeArgs) (stage : Stage) (todo : List Task) :
    Prop where
  target : ∀ t, stage.target = some t → Target s u a stage t
  complete : ∀ t, Sleeping s t → Matches s u a t → t ∈ todo ∨ stage.target = some t

/-- A wake has taken the waiter off the list. -/
def Removed (s : State) (t : Task) : Prop :=
  ∃ u a id stage todo woken, (s.task u).pc = .waking a id stage todo woken ∧
    (stage = .disarmed t ∨ stage = .marked t)

/-- Locks and those who have them belong together. -/
def Locks (s : State) : Prop := ∀ b t, (s.bucket b).lock = some t ↔ lockOf (s.task t) = some b

/-- The waits and the wakes. -/
structure Calls (s : State) : Prop where
  task : ∀ t, TaskOk (s.task t) (s.counted t)
  waker : ∀ u a id stage todo woken, (s.task u).pc = .waking a id stage todo woken →
    Waker s u a stage todo
  queued : ∀ t, Sleeping s t ∧ ¬ Removed s t ∨ (∃ ticks, (s.task t).pc = .waitPrepare ticks) →
    t ∈ (s.bucket (s.task t).bucket).waiters

/-- The numbers of the wakes, and what they have counted. -/
structure Numbers (s : State) : Prop where
  small : ∀ u a, argsOf (s.task u).pc = some a → a.nr.toNat < 2147483648
  woken : ∀ u id n, wokenOf (s.task u).pc = some (id, n) → id < s.wakes ∧ s.tally id = n
  ids : ∀ u v id m n, wokenOf (s.task u).pc = some (id, m) → wokenOf (s.task v).pc = some (id, n) →
    u = v
  unused : ∀ id, s.wakes ≤ id → s.tally id = 0

structure Balance (s : State) : Prop where
  finite : FiniteRefs s.counted
  sum : ∀ id, s.tally id = s.served id + count s.counted id

structure Inv (s : State) : Prop where
  locks : Locks s
  calls : Calls s
  numbers : Numbers s
  balance : Balance s

/-! ### Lemmas about the parts -/

section Parts

variable {s s' : State} {t u v : Task} {a : WakeArgs} {stage : Stage} {todo : List Task}
  {id n b : Nat}

@[simp] theorem modify_task (f : TaskRec → TaskRec) (v : Task) :
    (s.modify t f).task v = if v = t then f (s.task t) else s.task v := by
  show update s.task t (f (s.task t)) v = _
  rw [update_apply]

theorem modify_task_of_ne {f : TaskRec → TaskRec} (hv : v ≠ t) :
    (s.modify t f).task v = s.task v := by
  rw [modify_task, if_neg hv]

/-- A task without a lock has nobody in its hand. -/
theorem handOf_of_lockOf {r : TaskRec} (h : lockOf r = none) : handOf r.pc = none := by
  unfold lockOf at h
  cases hpc : r.pc <;> simp_all [handOf]

/-- A task that waits for the word is in the bucket of the word. -/
theorem bucket_of_matches (h : Matches s u a t) :
    (s.task t).bucket = futexBucketFor a.uaddr (s.task u).pml4Phys := by
  show futexBucketFor (s.task t).futexUaddr (s.task t).futexPml4 = _
  rw [h.1, h.2.1]

/-- A lock is had by one task. -/
theorem Locks.eq_of_lockOf (h : Locks s) (hu : lockOf (s.task u) = some b)
    (hv : lockOf (s.task v) = some b) : u = v :=
  Option.some.inj (((h b u).mpr hu).symm.trans ((h b v).mpr hv))

/-- The locks stay. -/
theorem Locks.frame (h : Locks s) (hlock : ∀ b, (s'.bucket b).lock = (s.bucket b).lock)
    (hlockOf : ∀ v, lockOf (s'.task v) = lockOf (s.task v)) : Locks s' := by
  intro b v
  rw [hlock, hlockOf]
  exact h b v

section Locks

variable {r : TaskRec} (h : Locks s) (hs : s'.task = update s.task t r)

include h hs

/-- The task keeps what locks it has. -/
theorem Locks.keep (hlock : ∀ c, (s'.bucket c).lock = (s.bucket c).lock)
    (hr : lockOf r = lockOf (s.task t)) : Locks s' := by
  refine h.frame hlock fun v => ?_
  rw [hs, update_apply]
  split
  · rename_i hv
    rw [hv, hr]
  · rfl

/-- A task takes a free lock. -/
theorem Locks.acquire (hfree : (s.bucket b).lock = none) (ht : lockOf (s.task t) = none)
    (hr : lockOf r = some b)
    (hlock : ∀ c, (s'.bucket c).lock = if c = b then some t else (s.bucket c).lock) : Locks s' := by
  intro c v
  have hcv := h c v
  rw [hlock, hs, update_apply]
  by_cases hv : v = t
  · grind
  · grind

/-- And gives it back. -/
theorem Locks.release (ht : lockOf (s.task t) = some b) (hr : lockOf r = none)
    (hlock : ∀ c, (s'.bucket c).lock = if c = b then none else (s.bucket c).lock) : Locks s' := by
  intro c v
  have hcv := h c v
  have hbt := (h b t).mpr ht
  rw [hlock, hs, update_apply]
  by_cases hv : v = t
  · grind
  · grind

end Locks

section Numbers

variable (h : Numbers s) (hother : ∀ v, v ≠ t → (s'.task v).pc = (s.task v).pc)

include h hother

/-- A step of one task: its number is right and nobody else's, and the others keep theirs. -/
theorem Numbers.act (hargs : ∀ a, argsOf (s'.task t).pc = some a → a.nr.toNat < 2147483648)
    (hself : ∀ id n, wokenOf (s'.task t).pc = some (id, n) →
      id < s'.wakes ∧ s'.tally id = n ∧ ∀ v m, v ≠ t → wokenOf (s.task v).pc ≠ some (id, m))
    (hwakes : s.wakes ≤ s'.wakes)
    (htally : ∀ v id m, v ≠ t → wokenOf (s.task v).pc = some (id, m) → s'.tally id = s.tally id)
    (hunused : ∀ id, s'.wakes ≤ id → s'.tally id = 0) : Numbers s' := by
  have hold : ∀ v x, v ≠ t → wokenOf (s'.task v).pc = some x → wokenOf (s.task v).pc = some x := by
    intro v x hv hx
    rw [← hother v hv]
    exact hx
  refine ⟨fun u a ha => ?_, fun u id n hn => ?_, fun u v id m n hm hn => ?_, hunused⟩
  · by_cases hu : u = t
    · exact hargs a (hu ▸ ha)
    · rw [hother u hu] at ha
      exact h.small u a ha
  · by_cases hu : u = t
    · subst hu
      exact ⟨(hself id n hn).1, (hself id n hn).2.1⟩
    · obtain ⟨hid, hcount⟩ := h.woken u id n (hold u _ hu hn)
      exact ⟨lt_of_lt_of_le hid hwakes, (htally u id n hu (hold u _ hu hn)).trans hcount⟩
  · by_contra huv
    by_cases hu : u = t
    · subst hu
      exact (hself id m hm).2.2 v n (Ne.symm huv) (hold v _ (Ne.symm huv) hn)
    by_cases hv : v = t
    · subst hv
      exact (hself id n hn).2.2 u m hu (hold u _ hu hm)
    · exact huv (h.ids u v id m n (hold u _ hu hm) (hold v _ hv hn))

/-- Nobody's number changes, though a wake may come to its end. -/
theorem Numbers.frame
    (hwoken : wokenOf (s'.task t).pc = wokenOf (s.task t).pc ∨ wokenOf (s'.task t).pc = none)
    (hargs : argsOf (s'.task t).pc = argsOf (s.task t).pc ∨ argsOf (s'.task t).pc = none)
    (hwakes : s'.wakes = s.wakes) (htally : s'.tally = s.tally) : Numbers s' := by
  refine h.act hother (fun a ha => ?_) (fun id n hn => ?_) hwakes.ge
    (fun _ id _ _ _ => congrFun htally id) fun id hid => ?_
  · rcases hargs with heq | hnone
    · exact h.small t a (heq ▸ ha)
    · cases hnone.symm.trans ha
  · rcases hwoken with heq | hnone
    · rw [heq] at hn
      rw [hwakes, htally]
      obtain ⟨hid, hcount⟩ := h.woken t id n hn
      exact ⟨hid, hcount, fun v m hv hm => hv (h.ids v t id m n hm hn)⟩
    · cases hnone.symm.trans hn
  · rw [htally]
    exact h.unused id (hwakes ▸ hid)

end Numbers

/-- A waiter that is not asleep is in nobody's hand. -/
theorem Calls.not_inHand (h : Calls s) (ht : ¬ Sleeping s t) : ¬ InHand s t := by
  rintro ⟨u, a, id, stage, todo, woken, hpc, hstage⟩
  exact ht ((h.waker u a id stage todo woken hpc).target t hstage).sleeping

/-- Two wakes never have the same waiter in hand. -/
theorem Calls.hand_unique {a' : WakeArgs} {stage' : Stage} {todo' : List Task} {id' n' : Nat}
    (h : Calls s) (hl : Locks s) (hu : (s.task u).pc = .waking a id stage todo n)
    (hstage : stage.target = some t) (hv : (s.task v).pc = .waking a' id' stage' todo' n')
    (hstage' : stage'.target = some t) : u = v := by
  have hut := bucket_of_matches ((h.waker _ _ _ _ _ _ hu).target t hstage).fits
  have hvt := bucket_of_matches ((h.waker _ _ _ _ _ _ hv).target t hstage').fits
  refine hl.eq_of_lockOf (b := (s.task t).bucket) ?_ ?_
  · rw [hut]
    simp [lockOf, hu]
  · rw [hvt]
    simp [lockOf, hv]

/-- What a waker knows stays true, as long as nobody falls asleep that it looks for. -/
theorem Waker.frame (h : Waker s u a stage todo)
    (hu : (s'.task u).pml4Phys = (s.task u).pml4Phys)
    (htarget : ∀ t, stage.target = some t → s'.task t = s.task t)
    (hsleep : ∀ t, Sleeping s' t → Matches s' u a t → Sleeping s t ∧ Matches s u a t) :
    Waker s' u a stage todo := by
  refine ⟨fun t ht => ?_, fun t hs hm => ?_⟩
  · have hold := h.target t ht
    have heq := htarget t ht
    refine ⟨?_, ?_, ?_, ?_, ?_⟩
    · unfold Sleeping
      rw [heq]
      exact hold.sleeping
    · unfold Matches
      rw [heq, hu]
      exact hold.fits
    · rw [heq]
      exact hold.eintr
    · rw [heq]
      exact hold.armed
    · rw [heq]
      exact hold.ready
  · obtain ⟨hs, hm⟩ := hsleep t hs hm
    exact h.complete t hs hm

section Act

variable {r : TaskRec} (h : Calls s) (hs : s'.task = update s.task t r)
  (hcounted : ∀ v, v ≠ t → s'.counted v = s.counted v) (hhand : ¬ InHand s t)
  (hfree : handOf (s.task t).pc = none) (htask : TaskOk r (s'.counted t))
  (hqueue : ∀ v, v ≠ t → ∀ b, v ∈ (s.bucket b).waiters → v ∈ (s'.bucket b).waiters)

include h hs hcounted hhand hfree htask hqueue

/-- A step that changes the record of one task, which no wake has in hand. -/
theorem Calls.act
    (hwaker : ∀ a id stage todo n, r.pc = .waking a id stage todo n → Waker s' t a stage todo)
    (hsleep : r.pc = .asleep ∧ r.blocked = true → ∀ u a id stage todo n, u ≠ t →
      (s.task u).pc = .waking a id stage todo n → ¬ Matches s' u a t)
    (hqueued : r.pc = .asleep ∧ r.blocked = true ∨ (∃ ticks, r.pc = .waitPrepare ticks) →
      t ∈ (s'.bucket r.bucket).waiters) : Calls s' := by
  have hself : s'.task t = r := by rw [hs, update_self]
  have hother : ∀ v, v ≠ t → s'.task v = s.task v := fun v hv => by rw [hs, update_of_ne hv]
  refine ⟨fun v => ?_, fun u a id stage todo n hu => ?_, fun v hv => ?_⟩
  · by_cases hv : v = t
    · rw [hv, hself]
      exact htask
    · rw [hother v hv, hcounted v hv]
      exact h.task v
  · by_cases hut : u = t
    · rw [hut, hself] at hu
      rw [hut]
      exact hwaker a id stage todo n hu
    rw [hother u hut] at hu
    refine (h.waker u a id stage todo n hu).frame ?_ ?_ ?_
    · rw [hother u hut]
    · intro v hv
      refine hother v ?_
      rintro rfl
      exact hhand ⟨u, a, id, stage, todo, n, hu, hv⟩
    · intro v hs hm
      unfold Sleeping at hs ⊢
      by_cases hvt : v = t
      · rw [hvt, hself] at hs
        rw [hvt] at hm
        exact absurd hm (hsleep hs u a id stage todo n hut hu)
      unfold Matches at hm ⊢
      rw [hother v hvt] at hs hm
      rw [hother u hut] at hm
      exact ⟨hs, hm⟩
  · unfold Sleeping at hv
    by_cases hvt : v = t
    · rw [hvt, hself] at hv ⊢
      exact hqueued (hv.imp_left And.left)
    · rw [hother v hvt] at hv ⊢
      refine hqueue v hvt _ (h.queued v (hv.imp_left fun hv => ⟨hv.1, ?_⟩))
      rintro ⟨u, a, id, stage, todo, n, hu, hrem⟩
      -- the wake that has removed the waiter is not the task that makes the step
      have hut : u ≠ t := by
        rintro rfl
        rw [hu] at hfree
        rcases hrem with rfl | rfl <;> cases hfree
      refine hv.2 ⟨u, a, id, stage, todo, n, ?_, hrem⟩
      rw [hother u hut]
      exact hu

/-- After the step the task has no lock and is not asleep. -/
theorem Calls.act_unlocked (hlock : lockOf r = none)
    (hsleep : ¬ (r.pc = .asleep ∧ r.blocked = true)) : Calls s' := by
  refine h.act hs hcounted hhand hfree htask hqueue ?_ (fun hr => absurd hr hsleep) ?_
  · intro a id stage todo n hpc
    simp [lockOf, hpc] at hlock
  · rintro (hr | ⟨ticks, hpc⟩)
    · exact absurd hr hsleep
    · simp [lockOf, hpc] at hlock

/-- After the step the task is in the loop of `futex_do_wake`. -/
theorem Calls.act_waking (hpc : r = { s.task t with pc := .waking a id stage todo n })
    (hnot : ¬ Sleeping s t)
    (hstage : ∀ x, stage.target = some x →
      stage = .selected x ∧ Sleeping s x ∧ Matches s t a x ∧ (s.task x).sleepEintr = false)
    (hcomplete : ∀ x, Sleeping s x → Matches s t a x → x ∈ todo ∨ stage.target = some x) :
    Calls s' := by
  -- who is asleep, and for whom the wake is, does not change
  have hsame : ∀ x, Sleeping s' x ↔ Sleeping s x := by
    intro x
    unfold Sleeping
    rw [hs, update_apply]
    split
    · rename_i hx
      rw [hx]
      refine iff_of_false (fun hr => ?_) hnot
      rw [hpc] at hr
      cases hr.1
    · exact Iff.rfl
  have hmatch : ∀ x, Matches s' t a x ↔ Matches s t a x := by
    intro x
    unfold Matches
    rw [hs, update_self, update_apply, hpc]
    split
    · rename_i hx
      rw [hx]
    · exact Iff.rfl
  refine h.act hs hcounted hhand hfree htask hqueue ?_ ?_ ?_
  · intro a' id' stage' todo' n' hw
    rw [hpc] at hw
    cases hw
    refine ⟨fun x hx => ?_, fun x hsl hm => hcomplete x ((hsame x).mp hsl) ((hmatch x).mp hm)⟩
    obtain ⟨hsel, hsl, hm, heintr⟩ := hstage x hx
    refine ⟨(hsame x).mpr hsl, (hmatch x).mpr hm, ?_, fun hne => absurd hsel hne, fun hne => ?_⟩
    · have hxt : x ≠ t := fun hxt => hnot (hxt ▸ hsl)
      rw [hs, update_of_ne hxt]
      exact heintr
    · rw [hsel] at hne
      cases hne
  · intro hr
    rw [hpc] at hr
    cases hr.1
  · rw [hpc]
    rintro (⟨hr, -⟩ | ⟨_, hr⟩) <;> cases hr

end Act

end Parts

end CoreZ.Proofs.Syscall.Futex
