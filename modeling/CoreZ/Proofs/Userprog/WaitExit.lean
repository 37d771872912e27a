import CoreZ.Userprog.WaitExit

/-!
# `CoreZ.Proofs.Userprog.WaitExit`: the handshake of wait and exit

A parent looks for a zombie under the lock of `thread_all_list`,
releases the lock and then takes the status `TASK_WAITING`. A child
tests whether its parent is `TASK_WAITING`, wakes it, and then takes
the status `TASK_HANGING`. Each of the two sequences has a window
(`Pc.inWindow`) in which the other party must not run:

* a child that goes through its whole exit while its parent is between
  the scan and `thread_block_with_status` finds nobody to wake;
* a parent that scans while its child is between the wake-up and
  `TASK_HANGING` does not see a zombie.

In both cases the parent then waits beside a zombie, and no wake-up
comes (`not_handshake_preempted`). Nothing in the source keeps the
timer interrupt out of the windows. `handshake_of_unsplit` shows that
this is the only way to lose a wake-up: in every run in which no task
is preempted inside a window, `Handshake` holds in every state.

The proof keeps the invariant `Synced`. Most steps only take statuses
away (`Calm`): they create no zombie and make nobody wait, so what
`Synced` says about waiting parents stays. The three steps that are not
calm, `TASK_WAITING`, `TASK_HANGING` and `thread_kill_pid`, are where
the windows end.
-/

set_option autoImplicit false

namespace CoreZ.Proofs.Userprog

open CoreZ.Lib
open CoreZ.Userprog

/-- The places between the scan and `TASK_WAITING`, and between the test
of the parent's status and `TASK_HANGING`. -/
def inWindow : Pc → Bool
  | .block _ | .unblock _ | .sigchld _ | .sigReady _ | .hang => true
  | .user _ | .scan _ | .reap _ _ | .orphans _ | .notify => false

/-- A child that the call of `p` asks for, dead and not reaped. -/
structure Zombie (s : Sched) (p : Slot) (call : WaitCall) (c : Slot) : Prop where
  used : (s.tasks c).slotUsed = true
  child : (s.tasks c).parentPid = (s.tasks p).ipid
  hanging : (s.tasks c).status = .hanging
  asked : call.matches (s.tasks c) = true

/-- The place of a task that is in the given call and has found nothing
so far. -/
def InWait (call : WaitCall) (pc : Pc) : Prop := pc = .scan call ∨ pc = .block call

/-- An exiting task at this place still wakes `p`, or tests whether it
has to. -/
def wakes (p : Slot) : Pc → Bool
  | .orphans _ | .notify => true
  | .unblock q | .sigReady q => q = p
  | .sigchld q => q = some p
  | _ => false

/-- A child of `p` in the middle of its exit has not yet come to its
wake-up of the parent. -/
def WakeToCome (s : Sched) (p : Slot) : Prop :=
  ∃ t, (s.tasks t).slotUsed = true ∧ (s.tasks t).status.deadMask = false ∧
    (s.tasks t).parentPid = (s.tasks p).ipid ∧ wakes p (s.tasks t).pc = true

/-- The parent is blocked in its call beside a zombie, and no wake-up is
on its way. -/
def LostWakeup (s : Sched) (p : Slot) : Prop :=
  (s.tasks p).slotUsed = true ∧ (s.tasks p).status = .waiting ∧
    (∃ call c, InWait call (s.tasks p).pc ∧ Zombie s p call c) ∧ ¬ WakeToCome s p

/-- The next two sections of the parent's call end it with the report of
a zombie. -/
def Reports (s : Sched) (p : Slot) (call : WaitCall) : Prop :=
  ∃ c s', Zombie s p call c ∧ run step s [.advance, .advance] = some s' ∧
    (s'.tasks p).pc = .user (some (call.report (s.tasks c)))

/-- No parent misses a zombie: none waits beside one, and one that looks
for a zombie when there is one reports it. -/
structure Handshake (s : Sched) : Prop where
  noLost : ∀ p, ¬ LostWakeup s p
  reported : ∀ p call, s.current = some p → (s.tasks p).slotUsed = true →
    InWait call (s.tasks p).pc → (∃ c, Zombie s p call c) → Reports s p call

/-- Different tasks of the table have different pids. -/
def DistinctPids (s : Sched) : Prop :=
  ∀ p q, (s.tasks p).slotUsed = true → (s.tasks q).slotUsed = true →
    (s.tasks p).ipid = (s.tasks q).ipid → p = q

/-- A state in which no task is in one of the calls: the pids of the
table are distinct, the list holds the table, and the ready tasks have
the status `TASK_READY`. -/
structure Start (s : Sched) : Prop where
  pids : DistinctPids s
  listed : ∀ t, (s.tasks t).slotUsed = true ↔ t ∈ s.allList
  ready : ∀ t, (s.tasks t).inReady = true → (s.tasks t).status = .ready
  user : ∀ t, ∃ r, (s.tasks t).pc = .user r
  awake : ∀ t, (s.tasks t).status ≠ .waiting

/-- The timer interrupt does not take the processor from a task inside a
window. -/
def Unsplit (s : Sched) : Event → Prop
  | .preempt => ∀ t, s.current = some t → inWindow (s.tasks t).pc = false
  | _ => True

instance (s : Sched) : (e : Event) → Decidable (Unsplit s e)
  | .preempt => inferInstanceAs (Decidable (∀ t, s.current = some t → _ = _))
  | .dispatch _ | .advance | .wait _ | .exit _ | .kill _ | .itimer _ | .reapDied _ =>
    inferInstanceAs (Decidable True)

/-! ## The invariant -/

/-- The parent of `t` is not waiting, except perhaps as task `q`. -/
def ParentAwake (s : Sched) (t : Slot) (q : Option Slot) : Prop :=
  ∀ p, (s.tasks p).slotUsed = true → (s.tasks p).ipid = (s.tasks t).parentPid → q ≠ some p →
    (s.tasks p).status ≠ .waiting

/-- What a task knows about its parent at each place of its exit. -/
def Woken (s : Sched) (t : Slot) : Pc → Prop
  | .unblock q => ParentAwake s t (some q)
  | .sigchld _ | .sigReady _ | .hang => ParentAwake s t none
  | _ => True

/-- What holds while no window is split. -/
structure Synced (s : Sched) : Prop where
  pids : DistinctPids s
  listed : ∀ t, (s.tasks t).slotUsed = true ↔ t ∈ s.allList
  ready : ∀ t, (s.tasks t).inReady = true → (s.tasks t).status = .ready
  /-- only the running task is inside a window -/
  outside : ∀ t, s.current ≠ some t → inWindow (s.tasks t).pc = false
  awake : ∀ t, s.current = some t → (s.tasks t).status ≠ .waiting
  /-- a waiting task is at the top of its loop, without a zombie -/
  waits : ∀ p, (s.tasks p).status = .waiting → ∃ call, (s.tasks p).pc = .scan call ∧
    ((s.tasks p).slotUsed = true → ∀ c, ¬ Zombie s p call c)
  /-- a task that is about to wait has no zombie -/
  blocks : ∀ p call, (s.tasks p).pc = .block call → ∀ c, ¬ Zombie s p call c
  /-- a child behind its wake-up has no waiting parent -/
  woken : ∀ t, Woken s t (s.tasks t).pc

variable {n : Option Slot} {pc : Pc} {s : Sched} {c p t : Slot} {last : TaskStatus}
  {call : WaitCall}

/-- The invariant holds at the start. -/
theorem Start.synced (h : Start s) : Synced s where
  pids := h.pids
  listed := h.listed
  ready := h.ready
  outside t _ := by
    obtain ⟨r, hr⟩ := h.user t
    rw [hr]
    rfl
  awake t _ := h.awake t
  waits p hp := absurd hp (h.awake p)
  blocks p call hp := by
    obtain ⟨r, hr⟩ := h.user p
    rw [hr] at hp
    cases hp
  woken t := by
    obtain ⟨r, hr⟩ := h.user t
    rw [hr]
    trivial

/-! ## Steps that take statuses away -/

/-- The task keeps its identity, becomes hanging only if it `dies`, and
waiting only if it `blocks`. -/
structure Softer (dies blocks : Prop) (k k' : KTask) : Prop where
  pid : k'.pid = k.pid
  parentPid : k'.parentPid = k.parentPid
  pgid : k'.pgid = k.pgid
  ready : (k.inReady = true → k.status = .ready) → k'.inReady = true → k'.status = .ready
  waiting : k'.status = .waiting → k.status = .waiting ∨ blocks
  hanging : k'.status = .hanging → k.status = .hanging ∨ dies

section Softer
variable {dies blocks : Prop}

/-- Two changes of a task in a row. -/
theorem Softer.trans {k₁ k₂ k₃ : KTask} (h : Softer dies blocks k₁ k₂)
    (h' : Softer dies blocks k₂ k₃) : Softer dies blocks k₁ k₃ where
  pid := h'.pid.trans h.pid
  parentPid := h'.parentPid.trans h.parentPid
  pgid := h'.pgid.trans h.pgid
  ready hr := h'.ready (h.ready hr)
  waiting hw := (h'.waiting hw).elim h.waiting .inr
  hanging hh := (h'.hanging hh).elim h.hanging .inr

theorem Softer.refl (k : KTask) : Softer dies blocks k k := ⟨rfl, rfl, rfl, id, .inl, .inl⟩

end Softer

/-- The task stays at its place, its slot stays in use, and it becomes neither hanging nor
waiting. -/
def Mild (f : KTask → KTask) : Prop := ∀ k,
  (∀ dies blocks, Softer dies blocks k (f k)) ∧ (f k).pc = k.pc ∧ (f k).slotUsed = k.slotUsed

/-- Mild changes compose. -/
theorem Mild.comp {f g : KTask → KTask} (hg : Mild g) (hf : Mild f) : Mild fun k => g (f k) := by
  intro k
  obtain ⟨hsoft, hpc, hused⟩ := hf k
  obtain ⟨hsoft', hpc', hused'⟩ := hg (f k)
  exact ⟨fun d b => (hsoft d b).trans (hsoft' d b), hpc'.trans hpc, hused'.trans hused⟩

theorem mild_id : Mild fun k => k := fun k => ⟨fun _ _ => .refl k, rfl, rfl⟩

/-- A task that is put into the ready queue does not begin to wait. -/
theorem mild_readyEnqueue : Mild readyEnqueue := by
  intro k
  unfold readyEnqueue
  split
  · exact mild_id k
  · exact ⟨fun _ _ => ⟨rfl, rfl, rfl, fun _ _ => rfl, nofun, nofun⟩, rfl, rfl⟩

/-- Nor one that is woken. -/
theorem mild_threadReady : Mild threadReady := by
  intro k
  unfold threadReady
  split
  · exact mild_readyEnqueue k
  · exact mild_id k

/-- A task that ends is no zombie. -/
theorem mild_threadExit : Mild threadExit := by
  intro k
  unfold threadExit
  split
  · exact mild_id k
  · exact ⟨fun _ _ => ⟨rfl, rfl, rfl, nofun, nofun, nofun⟩, rfl, rfl⟩

theorem mild_releaseProgResource : Mild releaseProgResource :=
  fun _ => ⟨fun _ _ => ⟨rfl, rfl, rfl, id, .inl, .inl⟩, rfl, rfl⟩

/-- A signal wakes a task that sleeps. -/
theorem mild_interrupt : Mild interrupt :=
  fun _ => ⟨fun _ _ => ⟨rfl, rfl, rfl, id, .inl, .inl⟩, rfl, rfl⟩

theorem mild_exitStatus (status : Int) : Mild fun k => { k with exitStatus := status } :=
  fun _ => ⟨fun _ _ => ⟨rfl, rfl, rfl, id, .inl, .inl⟩, rfl, rfl⟩

/-- A child that is killed with its parent becomes no zombie. -/
theorem mild_killOrphan : Mild killOrphan := by
  intro k
  unfold killOrphan
  split
  · exact mild_threadExit k
  · exact mild_threadExit.comp mild_releaseProgResource k

/-- A task that was waiting and is made ready waits no more. -/
theorem threadReady_status {k : KTask} (h : k.inReady = true → k.status = .ready) :
    (threadReady k).status ≠ .waiting := by
  unfold threadReady
  split
  · unfold readyEnqueue
    split
    · intro hw
      rename_i hin
      rw [h hin] at hw
      cases hw
    · nofun
  · intro hw
    simp_all [TaskStatus.wakeMask]

/-- From `s` to `s'` no task but `n` becomes hanging, and none but `w`
becomes waiting. -/
structure Calm (n w : Option Slot) (s s' : Sched) : Prop where
  task : ∀ u, Softer (n = some u) (w = some u) (s.tasks u) (s'.tasks u)
  used : ∀ u, (s'.tasks u).slotUsed = true → (s.tasks u).slotUsed = true
  listed : (∀ u, (s.tasks u).slotUsed = true ↔ u ∈ s.allList) →
    ∀ u, (s'.tasks u).slotUsed = true ↔ u ∈ s'.allList

variable {f : KTask → KTask}

section Calm
variable {n w : Option Slot} {s s' s'' : Sched}

theorem Calm.refl (s : Sched) : Calm n w s s := ⟨fun _ => .refl _, fun _ => id, id⟩

/-- Calm changes compose. -/
theorem Calm.trans (h : Calm n w s s') (h' : Calm n w s' s'') : Calm n w s s'' where
  task u := (h.task u).trans (h'.task u)
  used u hu := h.used u (h'.used u hu)
  listed hl := h'.listed (h.listed hl)

/-- Who runs does not matter. -/
theorem Calm.setCurrent (h : Calm n w s s') {c : Option Slot} :
    Calm n w s { s' with current := c } := ⟨h.task, h.used, h.listed⟩

theorem modify_same (s : Sched) (t : Slot) (f : KTask → KTask) :
    (s.modify t f).tasks t = f (s.tasks t) := Function.update_self ..

/-- Other tasks stay as they are. -/
theorem modify_other {u : Slot} (hu : u ≠ t) (s : Sched) (f : KTask → KTask) :
    (s.modify t f).tasks u = s.tasks u := Function.update_of_ne hu ..

/-- What holds of the task in the slot, and of every task as it was, holds of all. -/
theorem forall_modify {P : Slot → KTask → Prop} (ht : P t (f (s.tasks t)))
    (hall : ∀ u, P u (s.tasks u)) (u : Slot) : P u ((s.modify t f).tasks u) := by
  by_cases hu : u = t
  · subst hu
    rw [modify_same]
    exact ht
  · rw [modify_other hu]
    exact hall u

/-- A change of one task, seen from every task. -/
theorem softer_modify (hf : Softer (n = some t) (w = some t) (s.tasks t) (f (s.tasks t)))
    (u : Slot) :
    Softer (n = some u) (w = some u) (s.tasks u) ((s.modify t f).tasks u) :=
  forall_modify (P := fun u => Softer (n = some u) (w = some u) (s.tasks u)) hf (fun _ => .refl _) u

/-- A change of one task is calm if the task is. -/
theorem calm_modify {s : Sched} {t : Slot}
    (hf : Softer (n = some t) (w = some t) (s.tasks t) (f (s.tasks t)))
    (hused : (f (s.tasks t)).slotUsed = (s.tasks t).slotUsed) : Calm n w s (s.modify t f) := by
  have hall := forall_modify (P := fun u k => k.slotUsed = (s.tasks u).slotUsed) hused fun _ => rfl
  refine ⟨softer_modify hf, fun u hu => hall u ▸ hu, fun hl u => ?_⟩
  rw [hall u]
  exact hl u

/-- The place in the code is not what `Calm` looks at. -/
theorem calm_goto {s : Sched} {t : Slot} {pc : Pc} : Calm n w s (s.goto t pc) :=
  calm_modify ⟨rfl, rfl, rfl, id, .inl, .inl⟩ rfl

/-- `thread_block_prepare` changes the status of its task only. -/
theorem calm_threadBlockPrepare {s : Sched} {t : Slot} (hn : last = .hanging → n = some t)
    (hw : last = .waiting → w = some t) : Calm n w s (s.modify t (threadBlockPrepare last)) :=
  calm_modify ⟨rfl, rfl, rfl, nofun, fun h => .inr (hw h), fun h => .inr (hn h)⟩ rfl

/-- Pids do not change. -/
theorem Calm.ipid (h : Calm n w s s') (u : Slot) : (s'.tasks u).ipid = (s.tasks u).ipid := by
  rw [KTask.ipid, KTask.ipid, (h.task u).pid]

/-- So they stay distinct. -/
theorem Calm.pids (h : Calm n w s s') (hpids : DistinctPids s) : DistinctPids s' := by
  intro p q hp hq hpq
  rw [h.ipid, h.ipid] at hpq
  exact hpids p q (h.used p hp) (h.used q hq) hpq

/-- Which children a call looks for depends on pids and groups only. -/
theorem Calm.matches (h : Calm n w s s') (call : WaitCall) (u : Slot) :
    call.matches (s'.tasks u) = call.matches (s.tasks u) := by
  cases call with
  | wait => rfl
  | waitid idtype id nohang nowait =>
    cases idtype <;> simp only [WaitCall.matches, waitidMatch, (h.task u).pid, (h.task u).pgid]

/-- A zombie of the later state is one of the earlier state, or has just
died. -/
theorem Calm.zombie (h : Calm n w s s') (hz : Zombie s' p call c) :
    Zombie s p call c ∨ n = some c := by
  refine ((h.task c).hanging hz.hanging).imp_left fun hh => ⟨h.used c hz.used, ?_, hh, ?_⟩
  · rw [← (h.task c).parentPid, ← h.ipid p]
    exact hz.child
  · rw [← h.matches call c]
    exact hz.asked

/-- No task becomes waiting. -/
theorem Calm.of_waiting (h : Calm n none s s') {u : Slot} (hu : (s'.tasks u).status = .waiting) :
    (s.tasks u).status = .waiting := ((h.task u).waiting hu).resolve_right nofun

/-- A parent that is awake stays so, as long as no task begins to wait. -/
theorem Calm.parentAwake (h : Calm n none s s') {q : Option Slot} (hp : ParentAwake s t q) :
    ParentAwake s' t q := by
  intro p hused hpid hq hw
  refine hp p (h.used p hused) ?_ hq (h.of_waiting hw)
  rw [← h.ipid p, ← (h.task t).parentPid]
  exact hpid

/-- A calm step keeps the invariant, when the places of the tasks agree
with the new state. -/
theorem Synced.calm (h : Synced s) (hc : Calm n w s s')
    (hn : ∀ t, n = some t → ParentAwake s' t none)
    (hw : ∀ t, w = some t → ∃ call, (s'.tasks t).pc = .scan call ∧ ∀ c, ¬ Zombie s' t call c)
    (hpc : ∀ u, (s.tasks u).status = .waiting → (s'.tasks u).status = .waiting →
      (s'.tasks u).pc = (s.tasks u).pc)
    (houtside : ∀ u, s'.current ≠ some u → inWindow (s'.tasks u).pc = false)
    (hawake : ∀ u, s'.current = some u → (s'.tasks u).status ≠ .waiting)
    (hblocks : ∀ p call, (s'.tasks p).pc = .block call → ∀ c, ¬ Zombie s' p call c)
    (hwoken : ∀ u, Woken s' u (s'.tasks u).pc) : Synced s' where
  pids := hc.pids h.pids
  listed := hc.listed h.listed
  ready u := (hc.task u).ready (h.ready u)
  outside := houtside
  awake := hawake
  waits p hp := by
    rcases (hc.task p).waiting hp with hold | hnew
    · obtain ⟨call, hcall, hnone⟩ := h.waits p hold
      refine ⟨call, (hpc p hold hp).trans hcall, fun hused c hz => ?_⟩
      rcases hc.zombie hz with hz' | hnew
      · exact hnone (hc.used p hused) c hz'
      · -- the task that has just died has no waiting parent
        exact hn c hnew p hused hz.child.symm nofun hp
    · obtain ⟨call, hcall, hnone⟩ := hw p hnew
      exact ⟨call, hcall, fun _ => hnone⟩
  blocks := hblocks
  woken := hwoken

end Calm

/-! ## The sections of a call -/

/-- An update that keeps the place of its task keeps every place. -/
theorem modify_pc (hf : ∀ k, (f k).pc = k.pc) (s : Sched) (t u : Slot) :
    ((s.modify t f).tasks u).pc = (s.tasks u).pc :=
  forall_modify (P := fun u k => k.pc = (s.tasks u).pc) (hf _) (fun _ => rfl) u

theorem goto_pc_same (s : Sched) (t : Slot) (pc : Pc) : ((s.goto t pc).tasks t).pc = pc := by
  rw [Sched.goto, modify_same]

/-- A calm step in which every task stays where it is, and nobody new
runs. -/
structure Still (n : Option Slot) (s s' : Sched) : Prop where
  calm : Calm n none s s'
  pc : ∀ u, (s'.tasks u).pc = (s.tasks u).pc
  current : s'.current = s.current

theorem Still.refl (n : Option Slot) (s : Sched) : Still n s s := ⟨Calm.refl s, fun _ => rfl, rfl⟩

/-- Still changes compose. -/
theorem Still.trans {s₁ s₂ : Sched} (h : Still n s s₁) (h' : Still n s₁ s₂) : Still n s s₂ :=
  ⟨h.calm.trans h'.calm, fun u => (h'.pc u).trans (h.pc u), h'.current.trans h.current⟩

/-- A mild change of one task. -/
theorem still_modify (n : Option Slot) (s : Sched) (t : Slot) (hf : Mild f) :
    Still n s (s.modify t f) :=
  ⟨calm_modify ((hf _).1 _ _) (hf _).2.2, modify_pc (fun k => (hf k).2.1) s t, rfl⟩

section Sections
variable {s s₁ : Sched} {t : Slot}

/-- What an exiting task knows of its parent. -/
theorem Calm.woken (hc : Calm n none s s₁) (h : Woken s t pc) : Woken s₁ t pc := by
  cases pc with
  | unblock q => exact hc.parentAwake h
  | sigchld q => exact hc.parentAwake h
  | sigReady q => exact hc.parentAwake h
  | hang => exact hc.parentAwake h
  | user | scan | reap | block | orphans | notify => trivial

/-- Only the current task can be between its last look and its sleep. -/
theorem Synced.outside_other (h : Synced s) (hcur : s.current = some t) {u : Slot} (hu : u ≠ t) :
    inWindow (s.tasks u).pc = false := by
  refine h.outside u fun heq => hu ?_
  rw [hcur] at heq
  exact (Option.some.inj heq).symm

/-- A task outside of the windows owes nothing to its parent. -/
theorem woken_of_outside (h : inWindow pc = false) : Woken s t pc := by
  cases pc with
  | user | scan | reap | orphans | notify => trivial
  | block | unblock | sigchld | sigReady | hang => cases h

/-- The running task goes on at a place that agrees with the state. -/
theorem Synced.goto (h : Synced s) (hcur : s.current = some t) (hs : Still none s s₁)
    (hblock : ∀ call, pc = .block call → ∀ c, ¬ Zombie s t call c) (hwoken : Woken s₁ t pc) :
    Synced (s₁.goto t pc) := by
  have hc' : Calm none none s (s₁.goto t pc) := hs.calm.trans calm_goto
  have hother : ∀ u, u ≠ t → ((s₁.goto t pc).tasks u).pc = (s.tasks u).pc := by
    intro u hu
    rw [Sched.goto, modify_other hu, hs.pc u]
  have hout : ∀ u, u ≠ t → inWindow ((s₁.goto t pc).tasks u).pc = false := by
    intro u hu
    rw [hother u hu]
    exact h.outside_other hcur hu
  -- only the place of `t` changes, and `t` is the running task
  refine h.calm hc' nofun nofun ?_ ?_ ?_ ?_ ?_
  · intro u hu _
    refine hother u fun heq => h.awake t hcur ?_
    exact heq ▸ hu
  · intro u hu
    refine hout u fun heq => hu ?_
    show s₁.current = some u
    rw [hs.current, hcur, heq]
  · intro u hu hw
    refine h.awake u ?_ (hc'.of_waiting hw)
    rw [← hs.current]
    exact hu
  · intro p call hp c hz
    by_cases heq : p = t
    · subst heq
      rw [goto_pc_same] at hp
      rcases hc'.zombie hz with hz' | hnew
      · exact hblock call hp c hz'
      · cases hnew
    · have hw := hout p heq
      rw [hp] at hw
      cases hw
  · intro u
    by_cases heq : u = t
    · subst heq
      rw [goto_pc_same]
      exact (calm_goto (n := none) (w := none)).woken hwoken
    · exact woken_of_outside (hout u heq)

/-- The invariant after a change that moves no task and makes no zombie. -/
theorem Synced.still (h : Synced s) (hs : Still none s s₁) : Synced s₁ := by
  refine h.calm hs.calm nofun nofun (fun u _ _ => hs.pc u) ?_ ?_ ?_ ?_
  · intro u hu
    rw [hs.pc u]
    exact h.outside u (hs.current ▸ hu)
  · intro u hu hw
    exact h.awake u (hs.current ▸ hu) (hs.calm.of_waiting hw)
  · intro p call hp c hz
    rw [hs.pc p] at hp
    exact h.blocks p call hp c ((hs.calm.zombie hz).resolve_right nofun)
  · intro u
    rw [hs.pc u]
    exact hs.calm.woken (h.woken u)

variable {w : Option Slot}

/-- The step ends with every task outside of the windows. -/
theorem Synced.outsideStep (h : Synced s) (hc : Calm n w s s₁)
    (hn : ∀ t, n = some t → ParentAwake s₁ t none)
    (hw : ∀ t, w = some t → ∃ call, (s₁.tasks t).pc = .scan call ∧ ∀ c, ¬ Zombie s₁ t call c)
    (hpc : ∀ u, (s.tasks u).status = .waiting → (s₁.tasks u).status = .waiting →
      (s₁.tasks u).pc = (s.tasks u).pc) (hout : ∀ u, inWindow (s₁.tasks u).pc = false)
    (hawake : ∀ u, s₁.current = some u → (s₁.tasks u).status ≠ .waiting) : Synced s₁ := by
  refine h.calm hc hn hw hpc (fun u _ => hout u) hawake ?_ (fun u => woken_of_outside (hout u))
  intro p call hp
  have hwin := hout p
  rw [hp] at hwin
  cases hwin

/-- The places after the running task has taken its new status. -/
theorem leave_pc {s : Sched} {t : Slot} {pc : Pc} {last : TaskStatus} {u : Slot} :
    (((s.goto t pc).modify t (threadBlockPrepare last)).tasks u).pc
      = if u = t then pc else (s.tasks u).pc := by
  rw [modify_pc (f := threadBlockPrepare last) fun _ => rfl]
  split
  · rename_i hu
    rw [hu, goto_pc_same]
  · rename_i hu
    rw [Sched.goto, modify_other hu]

/-- The running task takes the status `last`, outside of the windows,
and the processor is free. -/
theorem Synced.leave (h : Synced s) (hcur : s.current = some t) (hpc : inWindow pc = false)
    (hlast : last = .hanging → n = some t) (hlast' : last = .waiting → w = some t)
    (hn : ∀ u, n = some u → ParentAwake s u none ∧ w = none)
    (hw : ∀ u, w = some u → n = none ∧ u = t ∧ ∃ call, pc = .scan call ∧ ∀ c, ¬ Zombie s t call c) :
    Synced { (s.goto t pc).modify t (threadBlockPrepare last) with current := none } := by
  have hc : Calm n w s { (s.goto t pc).modify t (threadBlockPrepare last) with current := none } :=
    (calm_goto.trans (calm_threadBlockPrepare hlast hlast')).setCurrent
  refine h.outsideStep hc ?_ ?_ ?_ ?_ nofun
  · intro u hu
    obtain ⟨hparent, hnone⟩ := hn u hu
    rw [hnone] at hc
    exact hc.parentAwake hparent
  · intro u hu
    obtain ⟨hnone, rfl, call, rfl, hzombie⟩ := hw u hu
    refine ⟨call, leave_pc.trans (if_pos rfl), fun c hz => ?_⟩
    rcases hc.zombie hz with hz' | hnew
    · exact hzombie c hz'
    · rw [hnone] at hnew
      cases hnew
  · intro u hu _
    refine leave_pc.trans (if_neg fun heq => h.awake t hcur ?_)
    exact heq ▸ hu
  · intro u
    rw [leave_pc]
    split
    · exact hpc
    · rename_i hu
      exact h.outside_other hcur hu

end Sections

/-! ## The scan -/

section Scan
variable {tasks : Slot → KTask} {call : WaitCall} {parent : Int}

variable {l : List Slot} {any b : Bool}

/-- A scan that finds nothing has passed over every child. -/
theorem waitScan_none (h : waitScan tasks call parent l any = (none, b)) (hc : c ∈ l)
    (hchild : call.isChild parent (tasks c) = true) (hasked : call.matches (tasks c) = true) :
    (tasks c).status ≠ .hanging := by
  induction l generalizing any with
  | nil => cases hc
  | cons t ts ih =>
    rw [waitScan] at h
    rcases List.mem_cons.mp hc with rfl | hc
    · rw [if_pos hchild] at h
      intro hh
      rw [if_pos ⟨hasked, hh⟩] at h
      cases h
    split at h
    · split at h
      · cases h
      · exact ih h hc
    · exact ih h hc

/-- A scan that finds a task has found a zombie. -/
theorem waitScan_some (h : waitScan tasks call parent l any = (some c, b)) :
    c ∈ l ∧ call.isChild parent (tasks c) = true ∧ call.matches (tasks c) = true ∧
      (tasks c).status = .hanging := by
  induction l generalizing any with
  | nil => cases h
  | cons t ts ih =>
    rw [waitScan] at h
    split at h
    · split at h
      · rename_i hchild hfound
        cases h
        exact ⟨List.mem_cons_self, hchild, hfound⟩
      · exact (ih h).imp_left (List.mem_cons_of_mem t)
    · exact (ih h).imp_left (List.mem_cons_of_mem t)

/-- For a zombie, both kinds of call test the same. -/
theorem isChild_iff {k : KTask} (hk : k.status = .hanging) :
    call.isChild parent k = true ↔ k.parentPid = parent := by
  cases call <;> simp [WaitCall.isChild, hk]

end Scan

/-- The scan of task `p` finds a zombie exactly when there is one. -/
theorem scan_zombie (h : Synced s) :
    (∀ b, waitScan s.tasks call (s.tasks p).ipid s.allList false = (none, b) →
      ∀ c, ¬ Zombie s p call c) ∧
    (∀ c b, waitScan s.tasks call (s.tasks p).ipid s.allList false = (some c, b) →
      Zombie s p call c) := by
  constructor
  · intro b hscan c hz
    exact waitScan_none hscan ((h.listed c).mp hz.used)
      ((isChild_iff hz.hanging).mpr hz.child) hz.asked hz.hanging
  · intro c b hscan
    obtain ⟨hmem, hchild, hasked, hh⟩ := waitScan_some hscan
    exact ⟨(h.listed c).mpr hmem, (isChild_iff hh).mp hchild, hh, hasked⟩

/-! ## The parent of an exiting task -/

/-- The task that is found has the pid. -/
theorem pid2thread_some {pid : Int} (h : pid2thread s pid = some p) :
    (s.tasks p).slotUsed = true ∧ (s.tasks p).ipid = pid := by
  simpa using List.find?_some h

section Parent
variable {s : Sched} {t p : Slot}

/-- The parent that `pid2thread` finds is the only one. -/
theorem parentAwake_of_some (hpids : DistinctPids s)
    (h : pid2thread s (s.tasks t).parentPid = some p) : ParentAwake s t (some p) := by
  intro q hq hpid hne
  obtain ⟨hused, hp⟩ := pid2thread_some h
  exact absurd (congrArg some (hpids p q hused hq (hp.trans hpid.symm))) hne

/-- A parent that is not in the table is awake. -/
theorem parentAwake_of_none (h : pid2thread s (s.tasks t).parentPid = none) :
    ParentAwake s t none := by
  intro q hq hpid
  refine absurd hpid ?_
  simpa [hq] using List.find?_eq_none.mp h q (List.mem_finRange q)

/-- When the one exception is awake too, the parent is awake. -/
theorem ParentAwake.of_awake (h : ParentAwake s t (some p)) (hp : (s.tasks p).status ≠ .waiting) :
    ParentAwake s t none := by
  intro q hq hpid _
  by_cases heq : p = q
  · exact heq ▸ hp
  · exact h q hq hpid fun he => heq (Option.some.inj he)

end Parent

/-! ## Steps of the running task -/

section Advance
variable {s s' : Sched} {t : Slot}

section

variable (h : Synced s) (hcur : s.current = some t)

include h hcur

/-- `thread_block_with_status(TASK_WAITING)`: the window of the parent
ends. -/
theorem Synced.block {call : WaitCall} (hpc : (s.tasks t).pc = .block call) :
    Synced { (s.goto t (.scan call)).modify t (threadBlockPrepare .waiting) with
      current := none } := by
  refine h.leave (n := none) (w := some t) hcur rfl nofun (fun _ => rfl) nofun ?_
  intro u hu
  cases hu
  exact ⟨rfl, rfl, call, rfl, h.blocks t call hpc⟩

/-- The last status of a task: the window of the child ends. -/
theorem Synced.hang (hpc : (s.tasks t).pc = .hang) (hlast : last ≠ .waiting) :
    Synced { (s.goto t (.user none)).modify t (threadBlockPrepare last) with current := none } := by
  refine h.leave (n := some t) (w := none) hcur rfl (fun _ => rfl)
    (fun hw => absurd hw hlast) ?_ nofun
  intro u hu
  cases hu
  have hwoken := h.woken t
  rw [hpc] at hwoken
  exact ⟨hwoken, rfl⟩

/-- Only the place of the task changes. -/
theorem Synced.stay (pc : Pc) (hblock : ∀ call, pc = .block call → ∀ c, ¬ Zombie s t call c)
    (hwoken : Woken s t pc) : Synced (s.goto t pc) :=
  h.goto hcur (Still.refl none s) hblock hwoken

/-- One turn of the loop of `sys_wait`. If it goes on to block, the scan has
found no zombie: the window of the parent begins. -/
theorem Synced.scan (hpc : (s.tasks t).pc = .scan call) (hstep : advance s t = some s') :
    Synced s' := by
  simp only [advance, hpc] at hstep
  split at hstep
  · cases hstep
    exact h.stay hcur _ nofun trivial
  · cases hstep
    exact h.stay hcur _ nofun trivial
  rename_i hscan
  split at hstep
  · cases hstep
    exact h.stay hcur _ nofun trivial
  cases hstep
  refine h.stay hcur _ ?_ trivial
  rintro call' heq
  cases heq
  exact (scan_zombie h).1 true hscan

/-- The child that the scan has found is reported, and taken out of the table
unless the caller wants to find it again. -/
theorem Synced.reap {target : Slot} (hpc : (s.tasks t).pc = .reap call target)
    (hstep : advance s t = some s') : Synced s' := by
  simp only [advance, hpc, Option.some.injEq] at hstep
  have hreap : Synced (s.goto t (.user (some (call.report (s.tasks target))))) :=
    h.stay hcur _ nofun trivial
  rw [← hstep]
  split
  · exact hreap
  · exact hreap.still (still_modify none _ target mild_threadExit)

/-- The look at the parent in `proc_exit`: whoever it is, it is not waiting
once the child goes on to `SIGCHLD`. -/
theorem Synced.notify (hpc : (s.tasks t).pc = .notify) (hstep : advance s t = some s') :
    Synced s' := by
  simp only [advance, hpc] at hstep
  split at hstep
  · rename_i p hp
    have hparent := parentAwake_of_some h.pids hp
    split at hstep
    · cases hstep
      exact h.stay hcur _ nofun hparent
    · rename_i hawake
      cases hstep
      exact h.stay hcur _ nofun (hparent.of_awake hawake)
  · rename_i hp
    cases hstep
    exact h.stay hcur _ nofun (parentAwake_of_none hp)

/-- `thread_unblock` of the parent. -/
theorem Synced.unblock (hpc : (s.tasks t).pc = .unblock p) :
    Synced ((s.modify p threadReady).goto t (.sigchld (some p))) := by
  have hwoken := h.woken t
  rw [hpc] at hwoken
  have hs := still_modify none s p mild_threadReady
  refine h.goto hcur hs nofun ?_
  refine ParentAwake.of_awake (hs.calm.parentAwake hwoken) ?_
  rw [modify_same]
  exact threadReady_status (h.ready p)

/-- `SIGCHLD` is sent to a parent that wants it. -/
theorem Synced.sigchld {parent : Option Slot} (hpc : (s.tasks t).pc = .sigchld parent)
    (hstep : advance s t = some s') : Synced s' := by
  have hwoken := h.woken t
  rw [hpc] at hwoken
  simp only [advance, hpc] at hstep
  cases parent with
  | none =>
    cases hstep
    exact h.stay hcur _ nofun hwoken
  | some p =>
    simp only at hstep
    split at hstep
    · cases hstep
      exact h.stay hcur _ nofun hwoken
    cases hstep
    have hs : Still none s (s.modify p fun k => interrupt { k with sigchldPending := true }) :=
      still_modify none s p fun _ => ⟨fun _ _ => ⟨rfl, rfl, rfl, id, .inl, .inl⟩, rfl, rfl⟩
    refine h.goto hcur hs ?_ ?_
    · intro call hcall
      split at hcall <;> cases hcall
    · have hawake := hs.calm.parentAwake hwoken
      split
      · exact hawake
      · exact hawake

/-- Every step of the running task keeps the invariant. -/
theorem Synced.of_advance (hstep : advance s t = some s') : Synced s' := by
  have hwoken := h.woken t
  cases hpc : (s.tasks t).pc with
  | scan call => exact h.scan hcur hpc hstep
  | reap call target => exact h.reap hcur hpc hstep
  | notify => exact h.notify hcur hpc hstep
  | sigchld parent => exact h.sigchld hcur hpc hstep
  | user r =>
    simp only [advance, hpc] at hstep
    cases hstep
  | block call =>
    simp only [advance, hpc] at hstep
    cases hstep
    exact h.block hcur hpc
  | orphans victims =>
    simp only [advance, hpc] at hstep
    cases victims with
    | nil =>
      cases hstep
      exact h.goto hcur (still_modify none s t mild_releaseProgResource) nofun trivial
    | cons v vs =>
      cases hstep
      exact h.goto hcur (still_modify none s v mild_killOrphan) nofun trivial
  | unblock p =>
    simp only [advance, hpc] at hstep
    cases hstep
    exact h.unblock hcur hpc
  | sigReady p =>
    rw [hpc] at hwoken
    simp only [advance, hpc] at hstep
    cases hstep
    have hs := still_modify none s p mild_threadReady
    exact h.goto hcur hs nofun (hs.calm.parentAwake hwoken)
  | hang =>
    simp only [advance, hpc] at hstep
    cases hstep
    refine h.hang hcur hpc ?_
    split
    · nofun
    · nofun

end

end Advance

/-! ## `thread_kill_pid` -/

section Kill
variable {s : Sched} {t : Slot}

/-- `kill_orphan_children` takes statuses away. -/
theorem still_killOrphans (victims : List Slot) (s : Sched) :
    Still n s (victims.foldl (fun s v => s.modify v killOrphan) s) := by
  induction victims generalizing s with
  | nil => exact Still.refl n s
  | cons v vs ih => exact (still_modify n s v mild_killOrphan).trans (ih _)

/-- After its wake-up the parent is awake. -/
theorem wakeParent_spec (hpids : DistinctPids s)
    (hready : ∀ u, (s.tasks u).inReady = true → (s.tasks u).status = .ready) {n : Option Slot} :
    Still n s (wakeParent s (s.tasks t).parentPid) ∧
      ParentAwake (wakeParent s (s.tasks t).parentPid) t none := by
  unfold wakeParent
  split
  · rename_i p hp
    have hparent := parentAwake_of_some hpids hp
    split
    · have hs := still_modify n s p mild_threadReady
      refine ⟨hs, (hs.calm.parentAwake hparent).of_awake ?_⟩
      rw [modify_same]
      exact threadReady_status (hready p)
    · rename_i hawake
      exact ⟨Still.refl n s, hparent.of_awake hawake⟩
  · rename_i hp
    exact ⟨Still.refl n s, parentAwake_of_none hp⟩

/-- The victim of a kill hangs first and wakes its parent then, without a
preemption between the two. -/
theorem killTask_spec (h : Synced s) (t : Slot) :
    Still (some t) s (killTask s t) ∧ ParentAwake (killTask s t) t none := by
  unfold killTask
  simp only
  have hs₁ : Still (some t) s ((s.modify t fun k => { k with exitStatus := -1 }).modify t
      (threadBlockPrepare .hanging)) := by
    refine (still_modify (some t) s t (mild_exitStatus (-1))).trans ?_
    exact ⟨calm_threadBlockPrepare (fun _ => rfl) nofun,
      modify_pc (f := threadBlockPrepare .hanging) (fun _ => rfl) _ t, rfl⟩
  generalize (s.modify t fun k => { k with exitStatus := -1 }).modify t
    (threadBlockPrepare .hanging) = s₁ at hs₁
  generalize orphans s₁ (s.tasks t).ipid = victims
  have hs₂ := hs₁.trans (still_killOrphans victims s₁)
  generalize victims.foldl (fun s v => s.modify v killOrphan) s₁ = s₂ at hs₂
  have hparent : (s₂.tasks t).parentPid = (s.tasks t).parentPid := (hs₂.calm.task t).parentPid
  rw [← hparent]
  obtain ⟨hs₃, hawake⟩ := wakeParent_spec (t := t) (hs₂.calm.pids h.pids)
    (fun u => (hs₂.calm.task u).ready (h.ready u))
  exact ⟨hs₂.trans hs₃, hawake⟩

/-- A kill while every task is outside of the windows. -/
theorem Synced.kill (h : Synced s) (hout : ∀ u, inWindow (s.tasks u).pc = false) (pid : Nat) :
    Synced (threadKillPid s pid) := by
  unfold threadKillPid
  cases killTarget s pid with
  | none => exact h
  | some t =>
    obtain ⟨hs, hparent⟩ := killTask_spec h t
    have hout' : ∀ u, inWindow ((killTask s t).tasks u).pc = false := by
      intro u
      rw [hs.pc u]
      exact hout u
    have hn : ∀ u, some t = some u → ParentAwake (killTask s t) u none := by
      intro u hu
      cases hu
      exact hparent
    simp only
    split
    · exact h
    split
    · exact h.outsideStep hs.calm.setCurrent hn nofun (fun u _ _ => hs.pc u) hout' nofun
    refine h.outsideStep hs.calm hn nofun (fun u _ _ => hs.pc u) hout' ?_
    intro u hu hw
    exact h.awake u (hs.current ▸ hu) (hs.calm.of_waiting hw)

end Kill

/-! ## Runs -/

/-- The running task in user mode. -/
theorem inUser_some (h : s.inUser = some t) :
    s.current = some t ∧ ∃ r, (s.tasks t).pc = .user r := by
  obtain ⟨hcur, huser⟩ := Option.filter_eq_some_iff.mp h
  refine ⟨hcur, ?_⟩
  cases hpc : (s.tasks t).pc with
  | user r => exact ⟨r, rfl⟩
  | scan | reap | block | orphans | notify | unblock | sigchld | sigReady | hang =>
    rw [hpc] at huser
    cases huser

/-- A timer that runs out wakes, and never puts to sleep. -/
theorem Synced.itimer (h : Synced s) (t : Slot) : Synced (itimerTick s t) := by
  unfold itimerTick
  simp only
  split
  · exact h
  split
  · exact h.still (still_modify none s t (mild_threadReady.comp mild_interrupt))
  · exact h

/-- A slot that is freed leaves the table and the list. -/
theorem reapDied_calm (s : Sched) (t : Slot) :
    Calm none none s { s.modify t (fun k => { k with slotUsed := false }) with
      allList := s.allList.filter (· ≠ t) } := by
  refine ⟨softer_modify (f := fun k => { k with slotUsed := false })
    ⟨rfl, rfl, rfl, id, .inl, .inl⟩, fun u hu => ?_, fun hl u => ?_⟩
  · by_cases heq : u = t
    · simp [heq, Sched.modify] at hu
    · simpa [heq, Sched.modify] using hu
  · by_cases heq : u = t
    · simp [heq, Sched.modify]
    · simp [heq, Sched.modify, hl u]

/-- A preemption outside of the window puts the running task back. -/
theorem Synced.preempt {s' : Sched} (h : Synced s) (hgood : Unsplit s .preempt)
    (hstep : step s .preempt = some s') : Synced s' := by
  obtain ⟨t, hcur, rfl⟩ := Option.map_eq_some_iff.mp hstep
  have hs : Still none s
      (s.modify t fun k => if k.status = .running then readyEnqueue k else k) := by
    refine still_modify none s t fun k => ?_
    split
    · exact mild_readyEnqueue k
    · exact mild_id k
  refine h.outsideStep hs.calm.setCurrent nofun nofun (fun u _ _ => hs.pc u) ?_ nofun
  intro u
  refine (congrArg inWindow (hs.pc u)).trans ?_
  by_cases hu : s.current = some u
  · exact hgood u hu
  · exact h.outside u hu

/-- The scheduler takes a ready task. -/
theorem Synced.dispatch {s' : Sched} {t : Slot} (h : Synced s)
    (hstep : step s (.dispatch t) = some s') : Synced s' := by
  obtain ⟨⟨hnone, -⟩, hs'⟩ := Option.ite_none_right_eq_some.mp hstep
  cases hs'
  have hs : Still none s (s.modify t fun k => { readyRemove k with status := .running }) :=
    still_modify none s t fun _ => ⟨fun _ _ => ⟨rfl, rfl, rfl, nofun, nofun, nofun⟩, rfl, rfl⟩
  refine h.outsideStep hs.calm.setCurrent nofun nofun (fun u _ _ => hs.pc u) ?_ ?_
  · intro u
    refine (congrArg inWindow (hs.pc u)).trans (h.outside u ?_)
    rw [hnone]
    nofun
  · intro u hu
    cases hu
    rw [modify_same]
    nofun

/-- Every event keeps the invariant, as long as no parent is preempted in its window. -/
theorem Synced.of_step {s' : Sched} {e : Event} (h : Synced s) (hgood : Unsplit s e)
    (hstep : step s e = some s') : Synced s' := by
  cases e with
  | preempt => exact h.preempt hgood hstep
  | dispatch t => exact h.dispatch hstep
  | advance =>
    obtain ⟨t, hcur, hadv⟩ := Option.bind_eq_some_iff.mp hstep
    exact h.of_advance hcur hadv
  | wait call =>
    obtain ⟨t, huser, rfl⟩ := Option.map_eq_some_iff.mp hstep
    exact h.goto (inUser_some huser).1 (Still.refl none s) nofun trivial
  | exit status =>
    obtain ⟨t, huser, rfl⟩ := Option.map_eq_some_iff.mp hstep
    exact h.goto (inUser_some huser).1 (still_modify none s t (mild_exitStatus status)) nofun
      trivial
  | kill pid =>
    obtain ⟨t, huser, rfl⟩ := Option.map_eq_some_iff.mp hstep
    obtain ⟨hcur, r, hpc⟩ := inUser_some huser
    refine h.kill (fun u => ?_) pid
    by_cases hu : u = t
    · rw [hu, hpc]
      rfl
    · exact h.outside_other hcur hu
  | itimer t =>
    cases hstep
    exact h.itimer t
  | reapDied t =>
    obtain ⟨-, hs'⟩ := Option.ite_none_right_eq_some.mp hstep
    cases hs'
    exact h.still ⟨reapDied_calm s t,
      modify_pc (f := fun k => { k with slotUsed := false }) (fun _ => rfl) s t, rfl⟩

/-- A parent at the top of its loop, with a zombie, reports one. -/
theorem Synced.reports (h : Synced s) (hcur : s.current = some p)
    (hpc : (s.tasks p).pc = .scan call) (hz : Zombie s p call c) : Reports s p call := by
  rcases hscan : waitScan s.tasks call (s.tasks p).ipid s.allList false with ⟨_ | target, b⟩
  · exact absurd hz ((scan_zombie h).1 b hscan c)
  have hfirst : step s .advance = some (s.goto p (.reap call target)) := by
    show s.current.bind (advance s) = _
    rw [hcur, Option.bind_some]
    simp only [advance, hpc, hscan]
  generalize hs₁ : s.goto p (.reap call target) = s₁ at hfirst
  have hreport : call.report (s₁.tasks target) = call.report (s.tasks target) := by
    subst hs₁
    by_cases heq : target = p
    · rw [heq, Sched.goto, modify_same]
      cases call <;> rfl
    · rw [Sched.goto, modify_other heq]
  have hcur₁ : s₁.current = some p := by
    subst hs₁
    exact hcur
  have hpc₁ : (s₁.tasks p).pc = .reap call target := by
    subst hs₁
    exact goto_pc_same ..
  have hsecond : step s₁ .advance = advance s₁ p := by
    show s₁.current.bind (advance s₁) = _
    rw [hcur₁, Option.bind_some]
  simp only [advance, hpc₁] at hsecond
  refine ⟨target, _, (scan_zombie h).2 target b hscan,
    (run_cons_of_eq_some hfirst).trans ((run_cons_of_eq_some hsecond).trans (run_nil ..)), ?_⟩
  · split
    · rw [goto_pc_same, hreport]
    · rw [modify_pc fun k => (mild_threadExit k).2.1, goto_pc_same, hreport]

/-- In every run without a preemption inside a window no wake-up is lost,
and a parent that looks for a zombie reports one. -/
theorem handshake_of_unsplit {s₀ s : Sched} (hstart : Start s₀) (events : List Event)
    (hgood : Along step Unsplit s₀ events) (hrun : run step s₀ events = some s) : Handshake s := by
  have h : Synced s :=
    run_invariant_of_along (fun _ _ _ h hg hs => h.of_step hg hs) events s₀ s hstart.synced
      hgood hrun
  constructor
  · rintro p ⟨hused, hwaiting, ⟨call, c, hin, hz⟩, -⟩
    obtain ⟨call', hpc, hnone⟩ := h.waits p hwaiting
    rw [hpc] at hin
    rcases hin with heq | heq
    · cases heq
      exact hnone hused c hz
    · cases heq
  · rintro p call hcur hused (hpc | hpc) ⟨c, hz⟩
    · exact h.reports hcur hpc hz
    · exact absurd hz (h.blocks p call hpc c)

/-- A task table with a parent, pid 7 in slot 1, which runs, and its child,
pid 8 in slot 2, which is ready. -/
def family : Sched where
  tasks t :=
    { slotUsed := decide (t = 1 ∨ t = 2), pid := t.val + 6, parentPid := if t = 2 then 7 else -1,
      pgid := 0, status := if t = 1 then .running else if t = 2 then .ready else .died,
      inReady := decide (t = 2), exitStatus := 0, elapsedTicks := 0, sigchldHandler := false,
      sigchldPending := false, sleepIntr := false, sleepEintr := false, hasSpace := true,
      pc := .user none }
  allList := [1, 2]
  current := some 1

theorem start_family : Start family where
  pids := by
    unfold DistinctPids
    decide
  listed := by decide
  ready := by decide
  user _ := ⟨none, rfl⟩
  awake := by decide

/-- The parent waits; the child is preempted at the start of its exit, and
then wakes the parent, which finds it. -/
theorem handshake_of_unsplit_sample :
    ∃ s, run step family [.wait .wait, .advance, .advance, .dispatch 2, .exit 3, .preempt,
        .dispatch 2, .advance, .advance, .advance, .advance, .advance, .dispatch 1] = some s ∧
      (s.tasks 1).pc = .scan .wait ∧ (s.tasks 2).status = .hanging ∧ Handshake s := by
  refine exists_of_any (P := fun s => (s.tasks 1).pc = .scan .wait ∧ (s.tasks 2).status = .hanging)
    (by decide +kernel) ?_
  rintro s hrun ⟨hpc, hstatus⟩
  exact ⟨hpc, hstatus, handshake_of_unsplit start_family _ (by decide +kernel) hrun⟩

/-- The parent is preempted between its scan and `TASK_WAITING`, and the
child exits meanwhile. -/
theorem not_handshake_preempted :
    ∃ s, run step family [.wait .wait, .advance, .preempt, .dispatch 2, .exit 3, .advance,
        .advance, .advance, .advance, .dispatch 1, .advance] = some s ∧ LostWakeup s 1 := by
  refine exists_of_any (P := fun s => ((s.tasks 1).slotUsed = true ∧
      (s.tasks 1).status = .waiting ∧ (s.tasks 1).pc = .scan .wait) ∧
    ((s.tasks 2).slotUsed = true ∧ (s.tasks 2).parentPid = (s.tasks 1).ipid ∧
      (s.tasks 2).status = .hanging) ∧
    ∀ t, (s.tasks t).pc = .user none ∨ (s.tasks t).pc = .scan .wait) (by decide +kernel) ?_
  rintro s hrun ⟨⟨hused, hwaiting, hpc⟩, ⟨hused', hchild, hhanging⟩, hplaces⟩
  refine ⟨hused, hwaiting, ⟨.wait, 2, Or.inl hpc, ⟨hused', hchild, hhanging, rfl⟩⟩, ?_⟩
  -- no task is in its exit any more
  rintro ⟨t, -, -, -, hwakes⟩
  rcases hplaces t with heq | heq
  · rw [heq] at hwakes
    cases hwakes
  · rw [heq] at hwakes
    cases hwakes

end CoreZ.Proofs.Userprog
