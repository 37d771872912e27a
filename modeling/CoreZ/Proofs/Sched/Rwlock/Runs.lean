import CoreZ.Proofs.Sched.Rwlock.Queues

/-!
# `CoreZ.Proofs.Sched.Rwlock.Runs`: readers and writers in any schedule

Three things are asked of the lock. A writer has it alone (`Exclusive`). The first reader
is never blocked on `wlock` while it has `rmutex`, which the last reader needs to give
`wlock` back (`Unhindered`). A reader that comes after a writer that waits does not get in
before it (`NoOvertake`).

The first two hold as long as `readers` does not wrap around. The third one fails, because
an up of the gate gives the gate to nobody: it wakes the first task of the queue, and
whoever makes a pass before that task does takes the gate (`not_noOvertake_barge`). Where
no task comes to the open gate in that time (`NoBarge`), the tasks pass the gate in the
order in which they came, and `rwlock_safe` gives all three.
-/

set_option autoImplicit false

namespace CoreZ.Proofs.Sched.Rwlock

open CoreZ.Lib
open CoreZ.Sched (Task Semaphore)
open CoreZ.Sched.Rwlock
open Function

/-! ### The properties -/

/-- A writer has the lock alone. -/
def Exclusive (s : State) : Prop := ∀ w ∈ s.writing, s.reading = [] ∧ s.writing = [w]

/-- No reader is blocked on `wlock` while it has `rmutex`, without which the readers
cannot give `wlock` back. -/
def Unhindered (s : State) : Prop := ∀ t, s.point t = .rdWlock → s.wait t ≠ .blocked

/-- The task has begun to wait for the lock, to write. -/
def WaitsToWrite (s : State) (u : Task) : Prop :=
  (s.point u = .wrGate ∧ s.wait u ≠ .first) ∨ s.point u = .wrWlock

/-- When the task came to the gate: now, if this is its first pass. -/
def arrival (s : State) (t : Task) : Nat := if s.wait t = .first then s.clock else s.stamp t

/-- The step lets no reader through the gate that came after a writer that waits. -/
def NoOvertake (s : State) : Event → Prop
  | .proceed t =>
    s.point t = .rdGate → s.wait t ≠ .blocked → 0 < (s.sema .gate).value →
      ∀ u, WaitsToWrite s u → arrival s t ≤ s.stamp u
  | _ => True

/-! ### The conditions -/

/-- The count of readers does not wrap around. -/
def NoWrap (s : State) : Event → Prop
  | .proceed t => s.point t = .rdCount → s.readers < 4294967295
  | _ => True

/-- A task that comes to the open gate meets no task that is on its way through it. -/
def NoBarge (s : State) : Event → Prop
  | .proceed t =>
    waitsAt (s.point t) = some .gate → s.wait t = .first → 0 < (s.sema .gate).value →
      ∀ u, ¬ OnWay s u
  | _ => True

/-! ### Steps and the view -/

variable {e : Event} {group : List Task}

section View

variable {s s' : State} {t : Task} {p : Point} {k : SemaName}

/-- The view of a change of one semaphore. -/
theorem view_setSema (x : Semaphore) : view (s.setSema k x) = (view s).set k x.value := by
  have hvalue : (fun j => (update s.sema k x j).value) =
      update (fun j => (s.sema j).value) k x.value := by
    funext j
    exact apply_update (fun _ (y : Semaphore) => y.value) s.sema k x j
  show View.mk (fun j => (update s.sema k x j).value) _ _ _ _ = _
  rw [hvalue]
  rfl

/-- Queues are not in the view. -/
theorem view_wake (o : Option Task) : view (s.wake o) = view s := by
  cases o <;> rfl

theorem view_arrive : view (s.arrive k t) = view s := by
  unfold State.arrive
  split <;> rfl

/-- A down takes one, or leaves everything. -/
theorem view_down {s : State} {k : SemaName} {t : Task} {p : Point} :
    (0 < (view s).value k ∧
        view (s.down k t p) = ((view s).set k ((view s).value k - 1)).goto t p) ∨
      ((view s).value k = 0 ∧ view (s.down k t p) = view s) := by
  rcases down_cases s k t p with ⟨hpos, heq⟩ | ⟨hzero, heq⟩
  · refine .inl ⟨hpos, ?_⟩
    rw [heq]
    show (view (State.setSema _ k _)).goto t p = _
    rw [view_setSema, view_arrive]
    rfl
  · refine .inr ⟨hzero, ?_⟩
    rw [heq]
    show view (State.setSema _ k _) = _
    rw [view_setSema, view_arrive]
    show (view s).set k ((view s).value k) = view s
    unfold View.set
    rw [update_eq_self]

/-- An up gives one. -/
theorem view_up (s : State) (k : SemaName) (t : Task) (p : Point) :
    view (s.up k t p) = ((view s).set k (((view s).value k + 1) % 256)).goto t p := by
  show (view ((s.setSema k _).wake _)).goto t p = _
  rw [view_wake, view_setSema]
  rfl

/-- A pass keeps the invariant if it does when it takes the unit. -/
theorem held_down (h : Held (view s) group) (htake : 0 < (view s).value k → ∃ group',
      Held (((view s).set k ((view s).value k - 1)).goto t p) group') :
    ∃ group', Held (view (s.down k t p)) group' := by
  rcases view_down with ⟨hpos, heq⟩ | ⟨-, heq⟩
  · rw [heq]
    exact htake hpos
  · rw [heq]
    exact ⟨group, h⟩

/-- Every step of a task keeps who holds what. -/
theorem held_proceed (h : Held (view s) group)
    (hwrap : s.point t = .rdCount → s.readers < 4294967295) (hstep : s.proceed t = some s') :
    ∃ group', Held (view s') group' := by
  unfold State.proceed at hstep
  cases hpt : s.point t
  case idle => simp [hpt] at hstep
  all_goals
    have hview : (view s).point t = _ := hpt
    simp only [hpt, Option.some.injEq] at hstep
    subst hstep
  case rdGate =>
    refine held_down h fun hpos => ⟨group, h.takeGate rfl ?_ rfl ?_ ?_ hpos⟩ <;> rw [hview] <;> rfl
  case rdMutex =>
    refine held_down h fun hpos => ⟨group, h.takeMutex rfl ?_ ?_ rfl ?_ hpos⟩ <;> rw [hview] <;> rfl
  case rdCount =>
    have hsmall : s.readers + 1 < 4294967296 := Nat.add_lt_of_lt_sub (hwrap hpt)
    rw [Nat.mod_eq_of_lt hsmall]
    exact ⟨t :: group, h.countIn hview hsmall⟩
  case rdWlock =>
    exact held_down h fun _ => ⟨group, h.takeForGroup hview⟩
  case rdUpMutex =>
    rw [view_up]
    refine ⟨group, h.giveMutex rfl ?_ ?_ rfl ?_ ?_⟩ <;> rw [hview] <;> rfl
  case rdUpGate =>
    refine ⟨group, ?_⟩
    show Held { view (s.up .gate t .idle) with reading := t :: (view (s.up .gate t .idle)).reading }
      _
    rw [view_up]
    refine h.giveGate ?_ ?_ ?_ fun u => ?_
    · rw [hview]; rfl
    · rw [hview]; rfl
    · rw [hview]; rfl
    · rw [hview, List.count_cons]
      by_cases hut : u = t
      · simp [hut, counted, View.goto, View.set]
      · simp [hut, Ne.symm hut, View.goto, View.set]
  case relMutex =>
    refine held_down h fun hpos => ⟨group, h.takeMutex rfl ?_ ?_ rfl ?_ hpos⟩ <;> rw [hview] <;> rfl
  case relCount =>
    -- the task is one of those that are counted
    have hpos : 0 < s.readers := by
      have hcount := h.count t
      rw [hview] at hcount
      have hmem : t ∈ group := List.count_pos_iff.mp (hcount ▸ Nat.succ_pos _)
      have hreaders : s.readers = group.length := h.readers
      rw [hreaders]
      exact List.length_pos_of_mem hmem
    have hreaders : (s.readers + 4294967295) % 4294967296 = s.readers - 1 := by
      have hsmall : s.readers < 4294967296 := h.small
      omega
    rw [hreaders]
    exact ⟨group.erase t, h.countOut hview⟩
  case relUpWlock =>
    rw [view_up]
    exact ⟨group, h.giveForGroup hview⟩
  case relUpMutex =>
    rw [view_up]
    refine ⟨group, h.giveMutex rfl ?_ ?_ rfl ?_ ?_⟩ <;> rw [hview] <;> rfl
  case wrGate =>
    refine held_down h fun hpos => ⟨group, h.takeGate rfl ?_ rfl ?_ ?_ hpos⟩ <;> rw [hview] <;> rfl
  case wrWlock =>
    rcases view_down with ⟨hpos, heq⟩ | ⟨hzero, heq⟩
    · have hne : (s.sema .wlock).value ≠ 0 := Nat.pos_iff_ne_zero.mp hpos
      rw [if_neg hne]
      refine ⟨group, ?_⟩
      show Held { view (s.down .wlock t .idle) with
        writing := t :: (view (s.down .wlock t .idle)).writing } _
      rw [heq]
      exact h.beginWrite hview hpos
    · have hzero' : (s.sema .wlock).value = 0 := hzero
      rw [if_pos hzero', heq]
      exact ⟨group, h⟩
  case wrUpWlock =>
    rw [view_up]
    exact ⟨group, h.giveWlock hview⟩
  case wrUpGate =>
    rw [view_up]
    refine ⟨group, h.giveGate ?_ ?_ ?_ fun u => ?_⟩
    · rw [hview]; rfl
    · rw [hview]; rfl
    · rw [hview]; rfl
    · simp [hview, counted, View.set]

/-- So does every event. -/
theorem held_step (h : Held (view s) group) (he : NoWrap s e) (hstep : step s e = some s') :
    ∃ group', Held (view s') group' := by
  unfold step at hstep
  cases e <;> simp only [Option.ite_none_right_eq_some, Option.ite_none_left_eq_some,
    Option.some.injEq] at hstep
  case readAcquire t | writeAcquire t =>
    obtain ⟨ht, rfl⟩ := hstep
    have hview : (view s).point t = .idle := ht
    refine ⟨group, h.begin rfl ?_ ?_ ?_ ?_⟩ <;> rw [hview] <;> rfl
  case readRelease t =>
    obtain ⟨⟨ht, hmem⟩, rfl⟩ := hstep
    exact ⟨group, h.beginRelease ht hmem⟩
  case writeRelease t =>
    obtain ⟨⟨ht, hmem⟩, rfl⟩ := hstep
    exact ⟨group, h.endWrite ht hmem⟩
  case proceed t => exact held_proceed h he hstep.2

end View

/-! ### The invariant -/

section Inv

variable {s s' : State} {t : Task} {p : Point} {k : SemaName}

structure Inv (s : State) : Prop where
  held : ∃ group, Held (view s) group
  unhindered : Unhindered s

/-- The invariant gives the exclusion. -/
theorem Inv.exclusive (h : Inv s) : Exclusive s := by
  obtain ⟨group, hheld⟩ := h.held
  intro w hw
  obtain ⟨hreading, honly⟩ := hheld.exclusive (t := w) hw
  refine ⟨hreading, ?_⟩
  have hnodup : s.writing.Nodup := hheld.nodup
  cases hwriting : s.writing with
  | nil =>
    rw [hwriting] at hw
    cases hw
  | cons a l =>
    have honly : ∀ u ∈ s.writing, u = w := honly
    rw [hwriting] at honly hnodup
    have hl : l = [] := by
      refine List.eq_nil_iff_forall_not_mem.mpr fun b hb => ?_
      have hab : b = a := by rw [honly b (List.mem_cons_of_mem _ hb), honly a List.mem_cons_self]
      rw [hab] at hb
      exact (List.nodup_cons.mp hnodup).1 hb
    rw [hl, honly a List.mem_cons_self]

/-- A task that goes on is not blocked. -/
theorem Unhindered.goto (h : Unhindered s) : Unhindered (s.goto t p) := by
  intro u hu
  have hu : update s.point t p u = .rdWlock := hu
  show update s.wait t .first u ≠ .blocked
  have := h u
  grind

/-- An up blocks nobody. -/
theorem Unhindered.up (h : Unhindered s) : Unhindered (s.up k t p) := by
  refine Unhindered.goto ?_
  cases (s.sema k).up.1 with
  | none => exact h
  | some w =>
    intro u hu
    show update s.wait w .woken u ≠ .blocked
    have := h u hu
    grind

/-- A reader that takes `wlock` must find it free. -/
theorem Unhindered.down (h : Unhindered s)
    (hblock : s.point t = .rdWlock → 0 < (s.sema k).value) : Unhindered (s.down k t p) := by
  obtain ⟨hsema, hwait, hpoint⟩ := arrive_frame (s := s) (k := k) (t := t)
  have harrive : Unhindered (s.arrive k t) := by
    intro u hu
    rw [hpoint] at hu
    rw [hwait]
    exact h u hu
  rcases down_cases s k t p with ⟨-, heq⟩ | ⟨hzero, heq⟩
  · rw [heq]
    exact Unhindered.goto (s := State.setSema _ k _) harrive
  rw [heq]
  intro u hu
  have hu : (s.arrive k t).point u = .rdWlock := hu
  show update (s.arrive k t).wait t .blocked u ≠ .blocked
  rw [update_apply]
  split
  · rename_i hut
    rw [hpoint, hut] at hu
    have := hblock hu
    omega
  · exact harrive u hu

/-- Who is hindered depends on places and semaphores. -/
theorem Unhindered.congr (h : Unhindered s) (hs : SameQueues s s') : Unhindered s' := by
  intro t ht
  rw [hs.point] at ht
  rw [hs.wait]
  exact h t ht

/-- Every event keeps the invariant. -/
theorem Inv.step (h : Inv s) (he : NoWrap s e) (hstep : step s e = some s') : Inv s' := by
  obtain ⟨group, hheld⟩ := h.held
  refine ⟨held_step hheld he hstep, ?_⟩
  cases step_shape hstep with
  | goto t p _ hs => exact h.unhindered.goto.congr hs
  | down t k p hat _ hs =>
    refine (h.unhindered.down fun hpt => ?_).congr hs
    rw [hpt] at hat
    cases hat
    exact hheld.wlock_free hpt
  | up t k p _ _ hs => exact h.unhindered.up.congr hs

/-- The invariant with the line at the gate. -/
structure FairInv (s : State) : Prop where
  inv : Inv s
  queues : Queues s
  line : ∃ next, Line s next

/-- Whoever gives the gate back has it. -/
theorem Inv.gate_closed (h : Inv s) (ht : hasGate (s.point t) = true) :
    (s.sema .gate).value = 0 := by
  obtain ⟨group, hheld⟩ := h.held
  have hholds : GateHolder (view s) (.inl t) := ht
  exact hheld.gate.eq_zero hholds

/-- And, without barging, the order at the gate. -/
theorem FairInv.step (h : FairInv s) (he : NoWrap s e ∧ NoBarge s e) (hstep : step s e = some s') :
    FairInv s' := by
  have hshape := step_shape hstep
  refine ⟨h.inv.step he.1 hstep, h.queues.step hshape, ?_⟩
  obtain ⟨next, hline⟩ := h.line
  cases hshape with
  | goto t p hat hs =>
    refine ⟨next, (hline.goto fun hway => ?_).congr hs⟩
    cases hat.symm.trans hway.1
  | down t k p hat ht hs =>
    by_cases hk : k = .gate
    · subst hk
      obtain ⟨group, hheld⟩ := h.inv.held
      have hle : (s.sema .gate).value ≤ 1 := hheld.gate.le_one
      rcases Nat.eq_zero_or_pos (s.sema .gate).value with hzero | hpos
      · exact ⟨none, (hline.blockGate h.queues hzero hat ht).congr hs⟩
      · refine ⟨none, (hline.takeGate (by omega) hat ht fun hfirst => ?_).congr hs⟩
        exact he.2 hat hfirst hpos
    · exact ⟨next, (hline.downElsewhere hk hat).congr hs⟩
  | up t k p hat hgate hs =>
    by_cases hk : k = .gate
    · subst hk
      have hzero := h.inv.gate_closed (hgate rfl)
      exact ⟨_, (hline.upGate h.queues hzero hat).congr hs⟩
    · exact ⟨next, (hline.upElsewhere h.queues hk hat).congr hs⟩

/-- Where nobody barges in, a reader that passes the gate came before each writer that
waits. -/
theorem FairInv.noOvertake (h : FairInv s) (he : NoBarge s e) : NoOvertake s e := by
  cases e with
  | proceed t =>
    intro hpt ht hpos u hu
    obtain ⟨next, hline⟩ := h.line
    have hat : waitsAt (s.point t) = some .gate := by rw [hpt]; rfl
    rcases hu with ⟨hpu, hwu⟩ | hpu
    · have hatu : waitsAt (s.point u) = some .gate := by rw [hpu]; rfl
      cases hw : s.wait t with
      | blocked => exact absurd hw ht
      | first =>
        -- the line is empty
        have hnobody := he hat hw hpos
        have hnone : next = none := by
          cases next with
          | none => rfl
          | some x => exact absurd ((hline.onWay x).mpr rfl) (hnobody x)
        have hnil := hline.awake hpos hnone
        cases hwait : s.wait u with
        | first => exact absurd hwait hwu
        | woken => exact absurd ⟨hatu, hwait⟩ (hnobody u)
        | blocked =>
          have hmem := (h.queues.mem .gate u).mpr ⟨hwait, hatu⟩
          rw [hnil] at hmem
          cases hmem
      | woken =>
        -- the reader is the first in the line
        obtain rfl := (hline.onWay t).mp ⟨hat, hw⟩
        have harrival : arrival s t = s.stamp t := by simp [arrival, hw]
        rw [harrival]
        cases hwait : s.wait u with
        | first => exact absurd hwait hwu
        | woken =>
          have hut := (hline.onWay u).mp ⟨hatu, hwait⟩
          rw [Option.some.inj hut]
        | blocked =>
          have hmem := (h.queues.mem .gate u).mpr ⟨hwait, hatu⟩
          exact le_of_lt ((List.pairwise_cons.mp hline.sorted).1 u hmem)
    · -- a writer at `wlock` keeps the gate closed
      have hzero := h.inv.gate_closed (t := u) (by rw [hpu]; rfl)
      omega
  | _ => trivial

/-- Both hold at the start. -/
theorem init_inv : FairInv State.init := by
  have hgroup : ¬ GroupHolds (view State.init) [] := by
    rintro (⟨hne, -⟩ | ⟨t, ht⟩)
    · exact hne rfl
    · cases ht
  have hheld : Held (view State.init) [] := by
    refine ⟨⟨le_refl 1, fun _ x hx => ?_, fun h => ?_, fun x y hx => ?_⟩,
      ⟨le_refl 1, fun _ x hx => ?_, fun h => ?_, fun x y hx => ?_⟩,
      ⟨le_refl 1, fun _ x hx => ?_, fun h => ?_, fun x y hx => ?_⟩,
      rfl, Nat.succ_pos _, fun _ => rfl, fun t ht => ?_, fun t ht => ?_, List.nodup_nil⟩
    · rcases x with t | t <;> cases hx
    · cases h
    · rcases x with t | t <;> cases hx
    · cases hx
    · cases h
    · cases hx
    · rcases x with _ | t | t
      · exact hgroup hx
      · cases hx
      · cases hx
    · cases h
    · rcases x with _ | t | t
      · exact absurd hx hgroup
      · cases hx
      · cases hx
    · cases ht
    · cases ht
  refine ⟨⟨⟨[], hheld⟩, fun t ht => ?_⟩, ⟨fun k t => ⟨fun hmem => ?_, fun hblocked => ?_⟩, ?_⟩,
    none, fun t => ⟨fun hway => ?_, fun hnone => ?_⟩, List.Pairwise.nil, fun t ht => ?_,
    fun hsome => ?_, fun _ _ => rfl⟩
  · cases ht
  · cases hmem
  · cases hblocked.1
  · exact fun _ => List.nodup_nil
  · cases hway.2
  · cases hnone
  · cases ht
  · cases hsome

end Inv

/-! ### Runs -/

/-- In every run in which the count of readers does not wrap around, a writer has the
lock alone and no reader is blocked with the mutex; if nobody barges in at the gate, no
reader overtakes a writer that waits. -/
theorem rwlock_safe (es : List Event) (s : State) (hrun : run step State.init es = some s)
    (hwrap : Along step NoWrap State.init es) :
    Exclusive s ∧ Unhindered s ∧
      (Along step NoBarge State.init es → Along step NoOvertake State.init es) := by
  have hinv := run_invariant_of_along (I := Inv) (fun _ _ _ h he hstep => h.step he hstep)
    es State.init s init_inv.inv hwrap hrun
  refine ⟨hinv.exclusive, hinv.unhindered, fun hbarge => ?_⟩
  exact Along.of_invariant (I := FairInv) (fun _ _ _ h he hstep => h.step he hstep)
    (fun _ _ h he => h.noOvertake he.2) es State.init init_inv (hwrap.and hbarge)

/-- Task 1 waits for the lock that task 0 reads under, and gets it. -/
def handOver : List Event :=
  [.readAcquire 0, .proceed 0, .proceed 0, .proceed 0, .proceed 0, .proceed 0, .proceed 0,
    .writeAcquire 1, .proceed 1, .proceed 1, .readRelease 0, .proceed 0, .proceed 0, .proceed 0,
    .proceed 0, .proceed 1]

instance : ∀ (s : State) (e : Event), Decidable (NoWrap s e)
  | s, .proceed t => inferInstanceAs (Decidable (s.point t = .rdCount → s.readers < 4294967295))
  | _, .readAcquire _ => inferInstanceAs (Decidable True)
  | _, .readRelease _ => inferInstanceAs (Decidable True)
  | _, .writeAcquire _ => inferInstanceAs (Decidable True)
  | _, .writeRelease _ => inferInstanceAs (Decidable True)

/-- Only a task at the gate can barge. -/
theorem noBarge_of_elsewhere {s : State} {t : Task} (h : waitsAt (s.point t) ≠ some .gate) :
    NoBarge s (.proceed t) :=
  fun hat => absurd hat h

/-- Where nobody waits, nobody barges. -/
theorem noBarge_of_nobody {s : State} {t : Task} (h : ∀ u, s.wait u = .first) :
    NoBarge s (.proceed t) := by
  intro _ _ _ u hu
  cases (h u).symm.trans hu.2

/-- A reader hands over to a writer. -/
theorem rwlock_safe_handOver :
    ∃ s, run step State.init handOver = some s ∧ s.writing = [1] ∧ Exclusive s ∧ Unhindered s ∧
      Along step NoOvertake State.init handOver := by
  have hbarge : Along step NoBarge State.init handOver := by
    refine Along.cons trivial rfl (Along.cons (noBarge_of_nobody fun u => ?_) rfl ?_)
    · rcases u with _ | u <;> rfl
    iterate 5 refine Along.cons (noBarge_of_elsewhere (by decide)) rfl ?_
    refine Along.cons trivial rfl (Along.cons (noBarge_of_nobody fun u => ?_) rfl ?_)
    · rcases u with _ | _ | u <;> rfl
    refine Along.cons (noBarge_of_elsewhere (by decide)) rfl (Along.cons trivial rfl ?_)
    iterate 5 refine Along.cons (noBarge_of_elsewhere (by decide)) rfl ?_
    exact along_nil _ _ _
  refine ⟨_, rfl, rfl, ?_⟩
  have h := rwlock_safe handOver _ rfl (by decide)
  exact ⟨h.1, h.2.1, h.2.2 hbarge⟩

/-- Task 1 comes to write while task 0 is in `rwlock_read_acquire`, and waits at the gate.
It is woken, but task 2, which comes to read, is faster. -/
theorem not_noOvertake_barge :
    ∃ s, run step State.init [.readAcquire 0, .proceed 0, .writeAcquire 1, .proceed 1, .proceed 0,
        .proceed 0, .proceed 0, .proceed 0, .proceed 0, .readAcquire 2] = some s ∧
      WaitsToWrite s 1 ∧ ¬ NoOvertake s (.proceed 2) := by
  refine ⟨_, rfl, .inl (by decide), fun h => ?_⟩
  exact absurd (h (by decide) (by decide) (by decide) 1 (.inl (by decide))) (by decide)

end CoreZ.Proofs.Sched.Rwlock
