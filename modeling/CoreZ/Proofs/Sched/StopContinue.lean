import CoreZ.Proofs.Userprog.WaitExit
import CoreZ.Sched.Wakeup

/-!
# `CoreZ.Proofs.Sched.StopContinue`: stopped tasks

`signal_send_task` answers a `SIGCONT` to a stopped task with `thread_ready`,
and `TASK_WAKE_MASK` does not have `TASK_STOPPED`: the call does nothing, and
the signal is not even pending afterwards. So a stopped task is never
continued. It leaves its status when it is killed, or when its parent is:
`kill_orphan_children` ends the children of a killed task, also the stopped
ones that no signal was sent to.

A run is a sequence of signals that calls of `sys_kill` send. A call with a
negative `pid` sends one to each task of the group, without a lock, so that
each is a step of its own (`sysKill_run`).
-/

set_option autoImplicit false

namespace CoreZ.Proofs.Sched.StopContinue

open CoreZ.Lib CoreZ.Userprog CoreZ.Sched.Wakeup
open CoreZ.Proofs.Userprog (family)
open Function

/-- A call of `sys_kill`, and the task that it sends the signal to now. -/
structure Send where
  caller : Slot
  pid : Int
  sig : Int
  target : Slot

/-- The call sends its signal to `t`. -/
def Addresses (m : Machine) (e : Send) (t : Slot) : Prop :=
  if e.pid < 0 then inGroup (m.task t) (-e.pid).toNat = true
  else pid2thread m.sched (if e.pid = 0 then (m.task e.caller).ipid else e.pid) = some t
  deriving Decidable

/-- One `signal_send_task` of a call. A caller that has killed itself does
not come back to the loop. -/
def step (m : Machine) (e : Send) : Option Machine :=
  if (m.task e.caller).status ≠ .hanging ∧ 0 ≤ e.sig ∧ e.sig < 32 ∧ Addresses m e e.target then
    some (signalSendTask m e.target e.sig.toNat)
  else none

/-- What a signal does to the task `t` while it is stopped: `SIGCONT` makes it
ready or lets it run, and only `SIGCONT` or a terminating signal to the task
ends the stop. -/
def Obeys (t : Slot) (m : Machine) (e : Send) : Prop :=
  (m.task t).status = .stopped →
    (e.sig = sigcont → e.target = t →
      ((signalSendTask m e.target e.sig.toNat).task t).status = .ready ∨
        ((signalSendTask m e.target e.sig.toNat).task t).status = .running) ∧
    (((signalSendTask m e.target e.sig.toNat).task t).status ≠ .stopped →
      Addresses m e t ∧ (e.sig = sigcont ∨ sigDefault e.sig.toNat = .term))

/-! ### The condition -/

/-- The signal ends the task that it is sent to, through
`thread_kill_pid`. -/
def Ends (m : Machine) (u : Slot) (sig : Nat) : Prop :=
  sig = sigkill ∨ (sig ≠ 0 ∧ (m.task u).sleepIntr = false ∧
    ((m.task u).status = .blocked ∨ (m.task u).status = .stopped) ∧
    sigDefaultTerminates m u sig = true)
  deriving Decidable

/-- `thread_kill_pid` with the `pid` of `u` kills the task `k`. -/
def Kills (m : Machine) (u k : Slot) : Prop :=
  killTarget m.sched (m.task u).pid = some k ∧ (m.task k).status.deadMask = false ∧
    (m.task k).hasSpace = true
  deriving Decidable

/-- The task is killed with `k`: it is `k`, or one of its children. -/
def FallsWith (m : Machine) (t k : Slot) : Prop :=
  t = k ∨ (t ∈ m.sched.allList ∧ (m.task t).parentPid = (m.task k).ipid)
  deriving Decidable

/-- The signal is no `SIGCONT` to `t` while it is stopped, and kills neither
it nor its parent unless the call is also addressed to `t`. -/
def Spares (t : Slot) (m : Machine) (e : Send) : Prop :=
  (m.task t).status = .stopped →
    ¬ (e.sig = sigcont ∧ e.target = t) ∧
    ∀ k, Ends m e.target e.sig.toNat → Kills m e.target k → FallsWith m t k → Addresses m e t

/-! ### What a signal does to a stopped task -/

variable {m : Machine} {s : Sched} {t u k : Slot} {sig : Nat}

/-- A change that leaves stopped tasks so leaves `t` so. -/
theorem modify_stopped {f : KTask → KTask} (hf : ∀ k, k.status = .stopped → (f k).status = .stopped)
    (h : (s.tasks t).status = .stopped) : ((s.modify u f).tasks t).status = .stopped := by
  show (update s.tasks u (f (s.tasks u)) t).status = .stopped
  by_cases hu : t = u
  · subst hu
    rw [update_self]
    exact hf _ h
  · rw [update_of_ne hu]
    exact h

/-- `TASK_STOPPED` is not in `TASK_WAKE_MASK`. -/
theorem threadReady_stopped (k : KTask) (h : k.status = .stopped) :
    (threadReady k).status = .stopped := by
  unfold threadReady
  rw [h]
  exact h

theorem wakeParent_status (s : Sched) (parentPid : Int) (h : (s.tasks t).status ≠ .waiting) :
    ((wakeParent s parentPid).tasks t).status = (s.tasks t).status := by
  unfold wakeParent
  split
  · split
    next p _ hwait =>
      have hne : t ≠ p := by
        rintro rfl
        exact h hwait
      exact congrArg KTask.status (update_of_ne hne ..)
    · rfl
  · rfl

theorem killOrphan_died (k : KTask) : (killOrphan k).status = .died := by
  unfold killOrphan
  generalize (if k.status = .died ∨ k.status = .hanging then k else releaseProgResource k) = k'
  unfold threadExit
  split
  next h => exact h
  · rfl

/-- `kill_orphan_children` ends its victims and leaves the others. -/
theorem killOrphans_status (victims : List Slot) (s : Sched) :
    ((victims.foldl (fun s v => s.modify v killOrphan) s).tasks t).status =
      if t ∈ victims then .died else (s.tasks t).status := by
  induction victims generalizing s with
  | nil => rfl
  | cons v vs ih =>
    rw [List.foldl_cons, ih]
    by_cases hv : t = v
    · subst hv
      have hdied : ((s.modify t killOrphan).tasks t).status = .died := by
        show (update s.tasks t _ t).status = _
        rw [update_self]
        exact killOrphan_died _
      simp [hdied]
    · have hsame : (s.modify v killOrphan).tasks t = s.tasks t := update_of_ne hv ..
      simp [hsame, hv]

/-- A stopped task stays stopped exactly when neither it nor its parent is
the task that is killed. -/
theorem killTask_stopped_iff (h : (m.task t).status = .stopped) :
    ((killTask m.sched k).tasks t).status = .stopped ↔ ¬ FallsWith m t k := by
  unfold killTask
  dsimp only
  generalize hs₁ : (m.sched.modify k fun k => { k with exitStatus := -1 }).modify k
    (threadBlockPrepare .hanging) = s₁
  have hown : t = k → (s₁.tasks t).status = .hanging := by
    rintro rfl
    rw [← hs₁]
    unfold Sched.modify
    simp only [update_self]
    rfl
  have hother : t ≠ k → s₁.tasks t = m.task t := by
    intro hne
    rw [← hs₁]
    exact (update_of_ne hne ..).trans (update_of_ne hne ..)
  have hlist : s₁.allList = m.sched.allList := by
    rw [← hs₁]
    rfl
  have hvictim : t ≠ k → (t ∈ orphans s₁ (m.sched.tasks k).ipid ↔
      t ∈ m.sched.allList ∧ (m.task t).parentPid = (m.task k).ipid) := by
    intro hne
    unfold orphans
    rw [List.mem_filter, hlist, hother hne, h]
    simp [Machine.task]
  -- `wake_parent` acts on waiting tasks only, and this task is not one
  have hnot : ((if t ∈ orphans s₁ (m.sched.tasks k).ipid then .died
      else (s₁.tasks t).status) : TaskStatus) ≠ .waiting := by
    split
    · nofun
    · by_cases hk : t = k
      · rw [hown hk]
        nofun
      · rw [hother hk, h]
        nofun
  rw [wakeParent_status _ _ (by rwa [killOrphans_status]), killOrphans_status]
  unfold FallsWith
  by_cases hk : t = k
  · rw [hown hk]
    refine iff_of_false ?_ fun hf => hf (.inl hk)
    split <;> nofun
  · rw [hother hk, h]
    simp only [hk, false_or, ← hvictim hk]
    split <;> simp_all

theorem threadKillPid_stopped_iff (h : (m.task t).status = .stopped) :
    ((threadKillPid m.sched (m.task u).pid).tasks t).status = .stopped ↔
      ∀ k, Kills m u k → ¬ FallsWith m t k := by
  unfold threadKillPid Kills
  cases hk : killTarget m.sched (m.task u).pid with
  | none => exact iff_of_true h fun k hkills => by cases hkills.1
  | some k =>
    have hkills : (∀ k', (some k = some k' ∧ (m.task k').status.deadMask = false ∧
        (m.task k').hasSpace = true) → ¬ FallsWith m t k') ↔
        ((m.task k).status.deadMask = false ∧ (m.task k).hasSpace = true → ¬ FallsWith m t k) :=
      ⟨fun h hlive => h k ⟨rfl, hlive⟩, fun h k' hk' => by
        cases hk'.1
        exact h hk'.2⟩
    rw [hkills]
    dsimp only
    split
    next hdead =>
      refine iff_of_true h fun hlive => ?_
      have hlive' : (m.sched.tasks k).status.deadMask = false ∧
        (m.sched.tasks k).hasSpace = true := hlive
      simp [hlive'] at hdead
    next hlive =>
      have hlive' : (m.task k).status.deadMask = false ∧ (m.task k).hasSpace = true := by
        simpa [Machine.task] using hlive
      rw [forall_prop_of_true hlive', ← killTask_stopped_iff h]
      split <;> rfl

/-- A signal leaves a stopped task stopped unless it kills it or its
parent. -/
theorem signalSendTask_stopped_iff (u : Slot) (sig : Nat) (h : (m.task t).status = .stopped) :
    ((signalSendTask m u sig).task t).status = .stopped ↔
      (Ends m u sig → ∀ k, Kills m u k → ¬ FallsWith m t k) := by
  have hkill := threadKillPid_stopped_iff (u := u) h
  -- in the branches without thread_kill_pid the signal does not end the task
  have hspared : ∀ {m' : Machine}, (m'.task t).status = .stopped → ¬ Ends m u sig →
      ((m'.task t).status = .stopped ↔
        (Ends m u sig → ∀ k, Kills m u k → ¬ FallsWith m t k)) :=
    fun hstays hno => iff_of_true hstays fun hend => absurd hend hno
  unfold signalSendTask
  split
  next hzero =>
    refine hspared h ?_
    rintro (hk | hk)
    · rw [hk] at hzero
      cases hzero
    · exact hk.1 hzero
  next hzero =>
  split
  next hk =>
    rw [forall_prop_of_true (.inl hk)]
    exact hkill
  next hk =>
  have hends : Ends m u sig ↔ (m.task u).sleepIntr = false ∧
      ((m.task u).status = .blocked ∨ (m.task u).status = .stopped) ∧
      sigDefaultTerminates m u sig = true := by
    unfold Ends
    rw [or_iff_right hk, and_iff_right hzero]
  split
  next hcont =>
    refine hspared (modify_stopped threadReady_stopped h) fun hend => ?_
    have hterm := (hends.mp hend).2.2
    rw [hcont.1] at hterm
    simp [sigDefaultTerminates, sigDefault, sigcont, sigkill] at hterm
  split
  next hsleep =>
    refine hspared (modify_stopped
      (fun k hk => threadReady_stopped { k with sleepEintr := true } hk) h) fun hend => ?_
    rw [hsleep] at hends
    cases (hends.mp hend).1
  next hsleep =>
  split
  next hwait =>
    refine hspared (modify_stopped threadReady_stopped h) fun hend => ?_
    rw [hwait] at hends
    obtain hs | hs := (hends.mp hend).2.1
    · cases hs
    · cases hs
  split
  next hend =>
    rw [forall_prop_of_true (hends.mpr ⟨by simpa using hsleep, hend⟩)]
    exact hkill
  next hend => exact hspared h fun hends' => hend (hends.mp hends').2

/-- A signal that ends a task is a terminating one. -/
theorem Ends.term (h : Ends m u sig) : sigDefault sig = .term := by
  obtain rfl | ⟨-, -, -, hterm⟩ := h
  · rfl
  · unfold sigDefaultTerminates at hterm
    obtain rfl | ⟨-, hterm⟩ := of_decide_eq_true hterm
    · rfl
    · exact hterm

theorem obeys_iff {e : Send} : Obeys t m e ↔ Spares t m e := by
  refine forall_congr' fun h => ?_
  have hstays := signalSendTask_stopped_iff e.target e.sig.toNat h
  constructor
  · rintro ⟨hcont, hleft⟩
    refine ⟨fun hto => ?_, fun k hends hkills hfalls => ?_⟩
    · -- SIGCONT ends nobody
      have hstop := hstays.mpr fun hends => by
        have hterm := hends.term
        rw [hto.1] at hterm
        cases hterm
      obtain hend | hend := hcont hto.1 hto.2
      · cases hend.symm.trans hstop
      · cases hend.symm.trans hstop
    · exact (hleft fun hstop => hstays.mp hstop hends k hkills hfalls).1
  · rintro ⟨hno, hkilled⟩
    refine ⟨fun hsig hto => absurd ⟨hsig, hto⟩ hno, fun hleft => ?_⟩
    rw [ne_eq, hstays] at hleft
    push Not at hleft
    obtain ⟨hends, k, hkills, hfalls⟩ := hleft
    exact ⟨hkilled k hends hkills hfalls, .inr hends.term⟩

/-- A call of `sys_kill` is a run of its signals. -/
theorem sysKill_run (m : Machine) (c : Slot) (pid sig : Int)
    (hc : (m.task c).status ≠ .hanging) :
    ∃ sends, run step m sends = some (sysKill m c pid sig) ∧
      ∀ e ∈ sends, e.caller = c ∧ e.pid = pid ∧ e.sig = sig := by
  have hnone : ∃ sends, run step m sends = some m ∧
      ∀ e ∈ sends, e.caller = c ∧ e.pid = pid ∧ e.sig = sig := ⟨[], rfl, nofun⟩
  unfold sysKill
  split
  · exact hnone
  next hsig =>
  have hrange : 0 ≤ sig ∧ sig < 32 := by omega
  split
  next hneg =>
    clear hnone hc
    -- by induction over the slots of the loop
    generalize List.finRange 64 = slots
    induction slots generalizing m with
    | nil => exact ⟨[], rfl, nofun⟩
    | cons u us ih =>
      rw [List.foldl_cons]
      obtain ⟨sends, hrun, hall⟩ := ih (sendGroup c (-pid).toNat sig.toNat m u)
      by_cases hsend : (m.task c).status ≠ .hanging ∧ inGroup (m.task u) (-pid).toNat = true
      · have hstep : step m ⟨c, pid, sig, u⟩ = some (sendGroup c (-pid).toNat sig.toNat m u) := by
          have hto : Addresses m ⟨c, pid, sig, u⟩ u := by
            rw [Addresses, if_pos hneg]
            exact hsend.2
          unfold step sendGroup
          rw [if_pos hsend, if_pos ⟨hsend.1, hrange.1, hrange.2, hto⟩]
        refine ⟨⟨c, pid, sig, u⟩ :: sends, (run_cons_of_eq_some hstep).trans hrun, ?_⟩
        exact List.forall_mem_cons.mpr ⟨⟨rfl, rfl, rfl⟩, hall⟩
      · have hskip : sendGroup c (-pid).toNat sig.toNat m u = m := if_neg hsend
        rw [hskip] at hrun ⊢
        exact ⟨sends, hrun, hall⟩
  next hneg =>
    split
    · exact hnone
    next u hu =>
      refine ⟨[⟨c, pid, sig, u⟩], ?_, by simp⟩
      refine (run_cons_of_eq_some ?_).trans (run_nil _ _)
      have hto : Addresses m ⟨c, pid, sig, u⟩ u := by
        rw [Addresses, if_neg hneg]
        exact hu
      exact if_pos ⟨hc, hrange.1, hrange.2, hto⟩

/-- The parent runs, and its child has stopped itself. -/
def stoppedChild : Machine :=
  .ofSched { family with
    tasks t := if t.val = 2 then threadBlockPrepare .stopped (family.tasks t) else family.tasks t }

/-- A parent that kills itself takes its stopped child along. -/
example : ¬ Spares 2 stoppedChild ⟨1, 0, sigkill, 1⟩ := by
  intro h
  have hspared := (h (by decide +kernel)).2 1 (by decide +kernel) (by decide +kernel)
    (by decide +kernel)
  exact absurd hspared (by decide +kernel)

end CoreZ.Proofs.Sched.StopContinue
