import Mathlib.Data.List.Pairwise
import CoreZ.Proofs.Sched.Rwlock.Held

/-!
# `CoreZ.Proofs.Sched.Rwlock.Queues`: who waits, and in which order

A step of a task is a pass, an up or neither, and `Shape` says which; that is all the
queues depend on. `Queues` says that a task is in the queue of the semaphore at which it
is blocked, and nowhere else.

`Line` is about the gate alone. The tasks that wait there stand in the order in which
they came, with the one that was woken at the head. It is kept by every step but one, the
pass of a task that comes to the open gate while another one is on its way through it.
-/

set_option autoImplicit false

namespace CoreZ.Proofs.Sched.Rwlock

open CoreZ.Sched (Task Semaphore)
open CoreZ.Sched.Rwlock
open Function

attribute [local simp] State.setSema State.wake

/-- The semaphore at whose `sema_down` a task is. -/
def waitsAt : Point → Option SemaName
  | .rdGate | .wrGate => some .gate
  | .rdMutex | .relMutex => some .rmutex
  | .rdWlock | .wrWlock => some .wlock
  | _ => none

/-- The task was woken at the gate and has not made its next pass. -/
def OnWay (s : State) (t : Task) : Prop := waitsAt (s.point t) = some .gate ∧ s.wait t = .woken

/-! ### The queues -/

variable {next : Option Task}

section Queues

variable {s s' : State} {t : Task} {p : Point} {k : SemaName}

theorem arrive_frame : (s.arrive k t).sema = s.sema ∧ (s.arrive k t).wait = s.wait ∧
    (s.arrive k t).point = s.point := by
  unfold State.arrive
  split <;> exact ⟨rfl, rfl, rfl⟩

/-- A pass takes the unit, or blocks the task. -/
theorem down_cases (s : State) (k : SemaName) (t : Task) (p : Point) :
    (0 < (s.sema k).value ∧ s.down k t p = ((s.arrive k t).setSema k
        { (s.sema k) with value := (s.sema k).value - 1 }).goto t p) ∨
      ((s.sema k).value = 0 ∧ s.down k t p = ((s.arrive k t).setSema k
        { (s.sema k) with waiters := (s.sema k).waiters ++ [t] }).block t) := by
  rcases Nat.eq_zero_or_pos (s.sema k).value with hzero | hpos
  · refine .inr ⟨hzero, ?_⟩
    simp [State.down, Semaphore.pass, hzero]
  · refine .inl ⟨hpos, ?_⟩
    simp [State.down, Semaphore.pass, Nat.pos_iff_ne_zero.mp hpos]

/-- What the queues and the line at the gate depend on. -/
structure SameQueues (s s' : State) : Prop where
  sema : s'.sema = s.sema
  point : s'.point = s.point
  wait : s'.wait = s.wait
  stamp : s'.stamp = s.stamp
  clock : s'.clock = s.clock

theorem sameQueues_setReaders {n : Nat} {p : Point} :
    SameQueues (s.goto t p) ((s.setReaders n).goto t p) :=
  ⟨rfl, rfl, rfl, rfl, rfl⟩

/-- What a step does to the queues: a task goes on, makes a pass, or makes an up. -/
inductive Shape (s s' : State) : Event → Prop where
  | goto {e : Event} (t : Task) (p : Point) (hat : waitsAt (s.point t) = none)
      (hs : SameQueues (s.goto t p) s') : Shape s s' e
  | down (t : Task) (k : SemaName) (p : Point) (hat : waitsAt (s.point t) = some k)
      (ht : s.wait t ≠ .blocked) (hs : SameQueues (s.down k t p) s') : Shape s s' (.proceed t)
  | up {e : Event} (t : Task) (k : SemaName) (p : Point) (hat : waitsAt (s.point t) = none)
      (hgate : k = .gate → hasGate (s.point t) = true) (hs : SameQueues (s.up k t p) s') :
      Shape s s' e

/-- Every step of a task is a move, a down or an up. -/
theorem proceed_shape (ht : s.wait t ≠ .blocked) (hstep : s.proceed t = some s') :
    Shape s s' (.proceed t) := by
  have hrefl : ∀ u : State, SameQueues u u := fun u => ⟨rfl, rfl, rfl, rfl, rfl⟩
  unfold State.proceed at hstep
  cases hpt : s.point t
  case idle => simp [hpt] at hstep
  all_goals
    have hat := congrArg waitsAt hpt
    have hgate := congrArg hasGate hpt
    simp only [hpt, Option.some.injEq] at hstep
  -- the two points that change the number of readers touch no queue
  case rdCount =>
    refine .goto t (if (s.readers + 1) % 4294967296 = 1 then .rdWlock else .rdUpMutex) hat ?_
    rw [← hstep]
    exact sameQueues_setReaders
  case relCount =>
    refine .goto t (if (s.readers + 4294967295) % 4294967296 = 0 then .relUpWlock
      else .relUpMutex) hat ?_
    rw [← hstep]
    exact sameQueues_setReaders
  all_goals subst hstep
  case rdGate => exact .down t .gate .rdMutex hat ht (hrefl _)
  case rdMutex => exact .down t .rmutex .rdCount hat ht (hrefl _)
  case rdWlock => exact .down t .wlock .rdUpMutex hat ht (hrefl _)
  case rdUpMutex => exact .up t .rmutex .rdUpGate hat (fun hk => by cases hk) (hrefl _)
  case rdUpGate => exact .up t .gate .idle hat (fun _ => hgate) ⟨rfl, rfl, rfl, rfl, rfl⟩
  case relMutex => exact .down t .rmutex .relCount hat ht (hrefl _)
  case relUpWlock => exact .up t .wlock .relUpMutex hat (fun hk => by cases hk) (hrefl _)
  case relUpMutex => exact .up t .rmutex .idle hat (fun hk => by cases hk) (hrefl _)
  case wrGate => exact .down t .gate .wrWlock hat ht (hrefl _)
  case wrWlock =>
    refine .down t .wlock .idle hat ht ?_
    split <;> exact ⟨rfl, rfl, rfl, rfl, rfl⟩
  case wrUpWlock => exact .up t .wlock .wrUpGate hat (fun hk => by cases hk) (hrefl _)
  case wrUpGate => exact .up t .gate .idle hat (fun _ => hgate) (hrefl _)

/-- So is every event. -/
theorem step_shape {e : Event} (hstep : step s e = some s') : Shape s s' e := by
  unfold step at hstep
  cases e <;> simp only [Option.ite_none_right_eq_some, Option.ite_none_left_eq_some,
    Option.some.injEq] at hstep
  case readAcquire t =>
    obtain ⟨ht, rfl⟩ := hstep
    exact .goto t .rdGate (by rw [ht]; rfl) ⟨rfl, rfl, rfl, rfl, rfl⟩
  case readRelease t =>
    obtain ⟨⟨ht, -⟩, rfl⟩ := hstep
    exact .goto t .relMutex (by rw [ht]; rfl) ⟨rfl, rfl, rfl, rfl, rfl⟩
  case writeAcquire t =>
    obtain ⟨ht, rfl⟩ := hstep
    exact .goto t .wrGate (by rw [ht]; rfl) ⟨rfl, rfl, rfl, rfl, rfl⟩
  case writeRelease t =>
    obtain ⟨⟨ht, -⟩, rfl⟩ := hstep
    exact .goto t .wrUpWlock (by rw [ht]; rfl) ⟨rfl, rfl, rfl, rfl, rfl⟩
  case proceed t => exact proceed_shape hstep.1 hstep.2

/-- The tasks in the queue of a semaphore are those that are blocked at it. -/
structure Queues (s : State) : Prop where
  mem : ∀ k t, t ∈ (s.sema k).waiters ↔ s.wait t = .blocked ∧ waitsAt (s.point t) = some k
  nodup : ∀ k, (s.sema k).waiters.Nodup

/-- The tasks at the gate in the order in which they came: `next` is the one that was
woken, and the others are in the queue. While the gate is open, one is woken if one
waits. -/
structure Line (s : State) (next : Option Task) : Prop where
  onWay : ∀ t, OnWay s t ↔ next = some t
  sorted : (next.toList ++ (s.sema .gate).waiters).Pairwise fun a b => s.stamp a < s.stamp b
  past : ∀ t ∈ next.toList ++ (s.sema .gate).waiters, s.stamp t < s.clock
  opened : next.isSome → 0 < (s.sema .gate).value
  awake : 0 < (s.sema .gate).value → next = none → (s.sema .gate).waiters = []

/-- The queues are the lists, and where the tasks are. -/
theorem Queues.same (h : Queues s) (hwaiters : ∀ j, (s'.sema j).waiters = (s.sema j).waiters)
    (hwait : s'.wait = s.wait) (hpoint : s'.point = s.point) : Queues s' := by
  refine ⟨fun k t => ?_, fun k => ?_⟩
  · rw [hwaiters, hwait, hpoint]
    exact h.mem k t
  · rw [hwaiters]
    exact h.nodup k

/-- The queues depend on semaphores, places and waits. -/
theorem Queues.congr (h : Queues s) (hs : SameQueues s s') : Queues s' :=
  h.same (fun _ => by rw [hs.sema]) hs.wait hs.point

/-- A step that has nothing to do with the gate. -/
theorem Line.frame (h : Line s next) (hsema : s'.sema .gate = s.sema .gate)
    (hstamp : s'.stamp = s.stamp) (hclock : s'.clock = s.clock)
    (honWay : ∀ u, OnWay s' u ↔ OnWay s u) : Line s' next := by
  refine ⟨fun u => (honWay u).trans (h.onWay u), ?_, ?_, ?_, ?_⟩
  · rw [hsema, hstamp]
    exact h.sorted
  · rw [hsema, hstamp, hclock]
    exact h.past
  · rw [hsema]
    exact h.opened
  · rw [hsema]
    exact h.awake

theorem Line.congr (h : Line s next) (hs : SameQueues s s') : Line s' next := by
  refine h.frame (by rw [hs.sema]) hs.stamp hs.clock fun t => ?_
  unfold OnWay
  rw [hs.wait, hs.point]

/-- Nobody is on the way to a gate that is closed. -/
theorem Line.next_none (h : Line s next) (hzero : (s.sema .gate).value = 0) : next = none := by
  cases next with
  | none => rfl
  | some u =>
    have := h.opened rfl
    omega

/-- A task that is woken stays at its place. -/
theorem wake_point (o : Option Task) : (s.wake o).point = s.point := by
  cases o <;> rfl

section

variable (h : Queues s)

include h

/-- A task that is in no queue moves. -/
theorem Queues.goto (ht : ∀ k, t ∉ (s.sema k).waiters) : Queues (s.goto t p) := by
  refine ⟨fun k u => ?_, h.nodup⟩
  have htk := ht k
  rw [h.mem k t] at htk
  show u ∈ (s.sema k).waiters ↔
    update s.wait t .first u = .blocked ∧ waitsAt (update s.point t p u) = some k
  rw [h.mem k u, update_apply, update_apply]
  grind

/-- The task is blocked at the end of the queue. -/
theorem Queues.block (ht : s.wait t ≠ .blocked) (hk : waitsAt (s.point t) = some k) :
    Queues ((s.setSema k { (s.sema k) with waiters := (s.sema k).waiters ++ [t] }).block t) := by
  have hnot : t ∉ (s.sema k).waiters := fun hmem => ht ((h.mem k t).mp hmem).1
  refine ⟨fun j u => ?_, fun j => ?_⟩
  · show u ∈ (update s.sema k _ j).waiters ↔
      update s.wait t .blocked u = .blocked ∧ waitsAt (s.point u) = some j
    have hu := h.mem j u
    by_cases hj : j = k
    · grind
    · grind
  · refine (forall_update_iff s.sema fun _ y => y.waiters.Nodup).mpr
      ⟨?_, fun j _ => h.nodup j⟩ j
    exact (h.nodup k).append (List.nodup_singleton t) (by simpa using hnot)

/-- The first task of the queue is woken. -/
theorem Queues.wake {x : Semaphore} (hx : x.waiters = (s.sema k).waiters.tail) :
    Queues ((s.setSema k x).wake (s.sema k).waiters.head?) := by
  cases hw : (s.sema k).waiters with
  | nil =>
    rw [hw] at hx
    refine h.same ?_ rfl rfl
    exact (forall_update_iff s.sema fun j y => y.waiters = (s.sema j).waiters).mpr
      ⟨hx.trans hw.symm, fun _ _ => rfl⟩
  | cons w ws =>
    rw [hw] at hx
    have hnodup := h.nodup k
    rw [hw, List.nodup_cons] at hnodup
    have hwk := (h.mem k w).mp (hw ▸ List.mem_cons_self)
    refine ⟨fun j u => ?_, fun j => ?_⟩
    · show u ∈ (update s.sema k x j).waiters ↔
        update s.wait w .woken u = .blocked ∧ waitsAt (s.point u) = some j
      have hu := h.mem j u
      grind
    · exact (forall_update_iff s.sema fun _ y => y.waiters.Nodup).mpr
        ⟨hx ▸ hnodup.2, fun j _ => h.nodup j⟩ j

theorem Queues.setValue (n : Nat) : Queues (s.setSema k { (s.sema k) with value := n }) := by
  refine h.same ?_ rfl rfl
  exact (forall_update_iff s.sema fun j y => y.waiters = (s.sema j).waiters).mpr
    ⟨rfl, fun _ _ => rfl⟩

theorem Queues.arrive : Queues (s.arrive k t) := by
  obtain ⟨hsema, hwait, hpoint⟩ := arrive_frame (s := s) (k := k) (t := t)
  exact h.same (fun _ => by rw [hsema]) hwait hpoint

/-- A task that is not blocked is in no queue. -/
theorem Queues.not_mem (ht : s.wait t ≠ .blocked) (k : SemaName) : t ∉ (s.sema k).waiters :=
  fun hmem => ht ((h.mem k t).mp hmem).1

/-- Nor is one whose place is no semaphore. -/
theorem Queues.not_mem_of_elsewhere (hat : waitsAt (s.point t) = none) (k : SemaName) :
    t ∉ (s.sema k).waiters := by
  intro hmem
  have := ((h.mem k t).mp hmem).2
  rw [hat] at this
  cases this

/-- A task takes a semaphore, or joins its queue. -/
theorem Queues.down (ht : s.wait t ≠ .blocked) (hk : waitsAt (s.point t) = some k) :
    Queues (s.down k t p) := by
  obtain ⟨hsema, hwait, hpoint⟩ := arrive_frame (s := s) (k := k) (t := t)
  rw [← hwait] at ht
  rw [← hpoint] at hk
  rcases down_cases s k t p with ⟨-, heq⟩ | ⟨-, heq⟩ <;> rw [heq, ← hsema]
  · have harrive : Queues (s.arrive k t) := h.arrive
    have hvalue := harrive.setValue (k := k) (((s.arrive k t).sema k).value - 1)
    exact hvalue.goto (hvalue.not_mem ht)
  · exact h.arrive.block ht hk

/-- The first of the queue is woken. -/
theorem Queues.up (hat : waitsAt (s.point t) = none) : Queues (s.up k t p) := by
  have hwake := h.wake (k := k) (x := (s.sema k).up.2) rfl
  refine hwake.goto (hwake.not_mem_of_elsewhere ?_)
  rw [wake_point]
  exact hat

/-- Every step keeps the queues. -/
theorem Queues.step {e : Event} (hshape : Shape s s' e) : Queues s' := by
  cases hshape with
  | goto t p hat hs => exact (h.goto (h.not_mem_of_elsewhere hat)).congr hs
  | down t k p hat ht hs => exact (h.down ht hat).congr hs
  | up t k p hat _ hs => exact (h.up hat).congr hs

end

/-! ### The line at the gate -/

/-- A task that is not on its way through the gate goes on to a point elsewhere, or
begins a call. -/
theorem onWay_goto (ht : ¬ OnWay s t) (u : Task) : OnWay (s.goto t p) u ↔ OnWay s u := by
  show (waitsAt (update s.point t p u) = _ ∧ update s.wait t .first u = _) ↔ _
  unfold OnWay at *
  grind

section

variable (h : Line s next)

include h

/-- A task that is not on its way through the gate leaves the line as it is. -/
theorem Line.goto (ht : ¬ OnWay s t) : Line (s.goto t p) next := h.frame rfl rfl rfl (onWay_goto ht)

theorem Line.gotoElsewhere (hat : waitsAt (s.point t) = none) : Line (s.goto t p) next :=
  h.goto fun hway => by cases hat.symm.trans hway.1

/-- The line does not see a pass at another semaphore. -/
theorem Line.downElsewhere (hk : k ≠ .gate) (hat : waitsAt (s.point t) = some k) :
    Line (s.down k t p) next := by
  have harrive : s.arrive k t = s := by simp [State.arrive, hk]
  have hnot : ¬ OnWay s t := by
    intro hway
    rw [hway.1] at hat
    exact hk (Option.some.inj hat).symm
  have hsema : ∀ x, (s.setSema k x).sema .gate = s.sema .gate := fun x =>
    update_of_ne hk.symm _ _
  rcases down_cases s k t p with ⟨-, heq⟩ | ⟨-, heq⟩ <;> rw [heq, harrive]
  · have hset : ∀ x, Line (s.setSema k x) next := fun x =>
      h.frame (hsema x) rfl rfl fun _ => Iff.rfl
    exact (hset _).goto hnot
  · refine h.frame (hsema _) rfl rfl fun u => ?_
    show (waitsAt (s.point u) = _ ∧ update s.wait t .blocked u = _) ↔ _
    unfold OnWay at *
    grind

/-- Nor an up at another semaphore. -/
theorem Line.upElsewhere (hq : Queues s) (hk : k ≠ .gate) (hat : waitsAt (s.point t) = none) :
    Line (s.up k t p) next := by
  have hsema : ∀ x, (s.setSema k x).sema .gate = s.sema .gate := fun x =>
    update_of_ne hk.symm _ _
  have hwake : Line ((s.setSema k (s.sema k).up.2).wake (s.sema k).up.1) next := by
    show Line ((s.setSema k _).wake (s.sema k).waiters.head?) next
    cases hw : (s.sema k).waiters.head? with
    | none => exact h.frame (hsema _) rfl rfl fun _ => Iff.rfl
    | some w =>
      -- the task that is woken is not at the gate
      have hat := ((hq.mem k w).mp (List.mem_of_mem_head? hw)).2
      refine h.frame (hsema _) rfl rfl fun u => ?_
      show (waitsAt (s.point u) = _ ∧ update s.wait w .woken u = _) ↔ _
      unfold OnWay
      grind
  exact hwake.gotoElsewhere (by rw [wake_point]; exact hat)

/-- The gate is opened, and the first of the queue is woken. -/
theorem Line.upGate (hq : Queues s) (hzero : (s.sema .gate).value = 0)
    (hat : waitsAt (s.point t) = none) : Line (s.up .gate t p) (s.sema .gate).waiters.head? := by
  obtain rfl := h.next_none hzero
  have hnobody : ∀ u, ¬ OnWay s u := fun u hu => by cases (h.onWay u).mp hu
  have hsorted := h.sorted
  have hpast := h.past
  have hmem := hq.mem .gate
  have hwake : Line ((s.setSema .gate (s.sema .gate).up.2).wake (s.sema .gate).up.1)
      (s.sema .gate).waiters.head? := by
    have hup : (s.sema .gate).up =
        ((s.sema .gate).waiters.head?, ⟨1, (s.sema .gate).waiters.tail⟩) := by
      simp [Semaphore.up, hzero]
    rw [hup]
    cases hw : (s.sema .gate).waiters with
    | nil =>
      refine ⟨fun u => ?_, ?_, ?_, ?_, ?_⟩
      · exact ⟨fun hu => absurd hu (hnobody u), fun hu => by cases hu⟩
      · simp
      · simp
      · simp
      · simp
    | cons w ws =>
      rw [hw] at hsorted hpast
      refine ⟨fun u => ?_, ?_, ?_, ?_, ?_⟩
      · show (waitsAt (s.point u) = _ ∧ update s.wait w .woken u = _) ↔ _
        have := hnobody u
        unfold OnWay at this
        grind
      · simpa using hsorted
      · simpa using hpast
      · simp
      · simp
  exact hwake.gotoElsewhere (by rw [wake_point]; exact hat)

/-- A task takes the gate: the one that comes to the open gate, or the first in the line. -/
theorem Line.takeGate (hone : (s.sema .gate).value = 1) (hat : waitsAt (s.point t) = some .gate)
    (ht : s.wait t ≠ .blocked) (hbarge : s.wait t = .first → ∀ u, ¬ OnWay s u) :
    Line (s.down .gate t p) none := by
  obtain ⟨hsema, hwait, hpoint⟩ := arrive_frame (s := s) (k := .gate) (t := t)
  -- nobody but the task itself was on the way
  have honly : ∀ u, OnWay s u → u = t := by
    intro u hu
    cases hw : s.wait t with
    | first => exact absurd hu (hbarge hw u)
    | blocked => exact absurd hw ht
    | woken =>
      have hnext := (h.onWay t).mp ⟨hat, hw⟩
      rw [(h.onWay u).mp hu] at hnext
      exact Option.some.inj hnext
  obtain ⟨-, heq⟩ | ⟨hzero, -⟩ := down_cases s .gate t p
  · rw [heq]
    have hgate : (((s.arrive .gate t).setSema .gate
        { (s.sema .gate) with value := (s.sema .gate).value - 1 }).goto t p).sema .gate =
          ⟨0, (s.sema .gate).waiters⟩ := by
      simp [State.goto, hone]
    have hwaiters : (s.sema .gate).waiters.Pairwise
          (fun a b => (s.arrive .gate t).stamp a < (s.arrive .gate t).stamp b) ∧
        ∀ u ∈ (s.sema .gate).waiters, (s.arrive .gate t).stamp u < (s.arrive .gate t).clock := by
      cases hw : s.wait t with
      | first =>
        have hnone : next = none := by
          cases next with
          | none => rfl
          | some u => exact absurd ((h.onWay u).mpr rfl) (hbarge hw u)
        rw [h.awake (by omega) hnone]
        exact ⟨List.Pairwise.nil, fun u hu => absurd hu (by simp)⟩
      | blocked => exact absurd hw ht
      | woken =>
        have harrive : s.arrive .gate t = s := by simp [State.arrive, hw]
        rw [harrive]
        exact ⟨(List.pairwise_append.mp h.sorted).2.1,
          fun u hu => h.past u (List.mem_append_right _ hu)⟩
    refine ⟨fun u => ?_, ?_, ?_, ?_, ?_⟩
    · refine ⟨fun hu => ?_, fun hu => by cases hu⟩
      have hu : waitsAt (update (s.arrive .gate t).point t p u) = some .gate ∧
        update (s.arrive .gate t).wait t .first u = .woken := hu
      have := honly u
      unfold OnWay at this
      grind
    · exact hwaiters.1
    · exact hwaiters.2
    · intro hsome
      cases hsome
    · intro hpos
      rw [hgate] at hpos
      cases hpos
  · omega

/-- A task that comes to the closed gate stands at the end of the line. -/
theorem Line.blockGate (hq : Queues s) (hzero : (s.sema .gate).value = 0)
    (hat : waitsAt (s.point t) = some .gate) (ht : s.wait t ≠ .blocked) :
    Line (s.down .gate t p) none := by
  obtain rfl := h.next_none hzero
  have hnobody : ∀ u, ¬ OnWay s u := fun u hu => by cases (h.onWay u).mp hu
  have hfirst : s.wait t = .first := by
    cases hw : s.wait t with
    | first => rfl
    | blocked => exact absurd hw ht
    | woken => exact absurd ⟨hat, hw⟩ (hnobody t)
  have harrive : s.arrive .gate t =
      { s with stamp := update s.stamp t s.clock, clock := s.clock + 1 } := by
    simp [State.arrive, hfirst]
  have hnot : t ∉ (s.sema .gate).waiters := fun hmem => ht ((hq.mem .gate t).mp hmem).1
  have hstamp : ∀ u ∈ (s.sema .gate).waiters,
      update s.stamp t s.clock u = s.stamp u := by
    intro u hu
    refine update_of_ne ?_ _ _
    rintro rfl
    exact hnot hu
  obtain ⟨hpos, -⟩ | ⟨-, heq⟩ := down_cases s .gate t p
  · omega
  · rw [heq, harrive]
    have hgate : ((State.setSema
        { s with stamp := update s.stamp t s.clock, clock := s.clock + 1 } .gate
        { (s.sema .gate) with waiters := (s.sema .gate).waiters ++ [t] }).block t).sema .gate =
          ⟨0, (s.sema .gate).waiters ++ [t]⟩ := by
      simp [State.block, hzero]
    refine ⟨fun u => ?_, ?_, ?_, ?_, ?_⟩
    · refine ⟨fun hu => ?_, fun hu => by cases hu⟩
      have hu : waitsAt (s.point u) = some .gate ∧ update s.wait t .blocked u = .woken := hu
      have := hnobody u
      unfold OnWay at this
      grind
    · -- the task comes last, and has the latest stamp
      show (_ ++ [t]).Pairwise fun a b =>
        update s.stamp t s.clock a < update s.stamp t s.clock b
      rw [List.pairwise_append]
      refine ⟨?_, List.pairwise_singleton _ _, fun a ha b hb => ?_⟩
      · refine List.Pairwise.imp_of_mem ?_ h.sorted
        intro a b ha hb hab
        rw [hstamp a ha, hstamp b hb]
        exact hab
      · rw [List.mem_singleton.mp hb, hstamp a ha, update_self]
        exact h.past a ha
    · intro u hu
      show update s.stamp t s.clock u < s.clock + 1
      have hu : u ∈ (s.sema .gate).waiters ++ [t] := hu
      rcases List.mem_append.mp hu with hu | hu
      · rw [hstamp u hu]
        exact Nat.lt_succ_of_lt (h.past u hu)
      · rw [List.mem_singleton.mp hu, update_self]
        exact Nat.lt_succ_self _
    · intro hsome
      cases hsome
    · intro hpos
      rw [hgate] at hpos
      cases hpos

end

end Queues

end CoreZ.Proofs.Sched.Rwlock
