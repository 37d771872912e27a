import CoreZ.Proofs.Syscall.Futex.Invariant

/-!
# `CoreZ.Proofs.Syscall.Futex.Steps`: each step keeps the invariant

Most steps change the record of the task that makes them and one bucket (`Inv.act`). The
steps of a wake with a waiter in hand change the record of the waiter, too
(`Calls.hand`).

A wake takes a waiter in three steps: it disarms the timer (`Inv.disarm`),
marks the waiter as woken (`Inv.mark`), and makes it ready (`Inv.unblock`).
The waiter is counted in the last one, together with `woken++`.
-/

set_option autoImplicit false

namespace CoreZ.Proofs.Syscall.Futex

open CoreZ.Lib
open CoreZ.Lib.RefCount (count count_update)
open CoreZ.Sched (Task)
open CoreZ.Syscall.Futex
open Function

attribute [local simp] lockOf Sleeping TaskOk State.modify Settled

/-! ### The steps -/

variable {b ready : Nat} {ticks : Option (BitVec 32)}

section Steps

variable {s s' : State} {t u : Task} {a : WakeArgs} {stage : Stage} {todo : List Task}
  {id n : Nat}

@[simp] theorem setBucket_bucket (b : Nat) (x : Bucket) (c : Nat) :
    (s.setBucket b x).bucket c = if c = b then x else s.bucket c := by
  show update s.bucket b x c = _
  rw [update_apply]

section Bucket

variable {x : Bucket}

/-- The locks after a change of one bucket. -/
theorem setBucket_lock (b c : Nat) :
    ((s.setBucket b x).bucket c).lock = if c = b then x.lock else (s.bucket c).lock := by
  rw [setBucket_bucket, apply_ite Bucket.lock]

/-- A change of the waiters leaves the locks. -/
theorem setBucket_lock_eq (hx : x.lock = (s.bucket b).lock) (c : Nat) :
    ((s.setBucket b x).bucket c).lock = (s.bucket c).lock := by
  rw [setBucket_lock]
  split
  · rename_i hc
    rw [hc, hx]
  · rfl

/-- Tasks that stay in the changed bucket stay in their buckets. -/
theorem mem_setBucket (hx : ∀ v, v ≠ t → v ∈ (s.bucket b).waiters → v ∈ x.waiters) (v : Task)
    (hv : v ≠ t) (c : Nat) (hmem : v ∈ (s.bucket c).waiters) :
    v ∈ ((s.setBucket b x).bucket c).waiters := by
  rw [setBucket_bucket]
  split
  · rename_i hc
    rw [hc] at hmem
    exact hx v hv hmem
  · exact hmem

end Bucket

/-- A step of one task, in which nothing is counted. -/
theorem Inv.act {r : TaskRec} (h : Inv s) (hs : s'.task = update s.task t r)
    (hsame : s'.wakes = s.wakes ∧ s'.tally = s.tally ∧ s'.served = s.served ∧
      s'.counted = s.counted)
    (hlocks : Locks s') (hcalls : Calls s')
    (hwoken : wokenOf r.pc = wokenOf (s.task t).pc ∨ wokenOf r.pc = none)
    (hargs : argsOf r.pc = argsOf (s.task t).pc ∨ argsOf r.pc = none) : Inv s' := by
  obtain ⟨hwakes, htally, hserved, hcounted⟩ := hsame
  refine ⟨hlocks, hcalls, h.numbers.frame (t := t) ?_ ?_ ?_ hwakes htally, ?_, ?_⟩
  · intro v hv
    rw [hs, update_of_ne hv]
  · rw [hs, update_self]
    exact hwoken
  · rw [hs, update_self]
    exact hargs
  · rw [hcounted]
    exact h.balance.finite
  · rw [htally, hserved, hcounted]
    exact h.balance.sum

/-- A step that touches nothing but the record of one task, which is not in
`futex_do_wake`, has no lock and is not asleep afterwards. -/
theorem Inv.quiet (h : Inv s) (f : TaskRec → TaskRec) (hhand : ¬ InHand s t)
    (hlock : lockOf (s.task t) = none) (hlock' : lockOf (f (s.task t)) = none)
    (hwoken : wokenOf (f (s.task t)).pc = none) (hargs : argsOf (f (s.task t)).pc = none)
    (htask : TaskOk (f (s.task t)) (s.counted t))
    (hsleep : ¬ ((f (s.task t)).pc = .asleep ∧ (f (s.task t)).blocked = true)) :
    Inv (s.modify t f) := by
  refine h.act rfl ⟨rfl, rfl, rfl, rfl⟩ (h.locks.keep rfl (fun _ => rfl) (hlock'.trans hlock.symm))
    (h.calls.act_unlocked rfl (fun _ _ => rfl) hhand (handOf_of_lockOf hlock) htask
      (fun _ _ _ hv => hv) hlock' hsleep) (.inr hwoken) (.inr hargs)

/-- `futex_do_wait` begins. -/
theorem Inv.wait (h : Inv s) (hpc : (s.task t).pc = .idle) (uaddr val bitset : BitVec 32)
    (ticks : Option (BitVec 32)) :
    Inv (s.modify t fun r =>
      { r with
        futexReady := 0
        futexUaddr := uaddr
        futexPml4 := r.pml4Phys
        futexBitset := bitset
        pc := .waitLock val ticks }) := by
  have htask := h.calls.task t
  simp only [TaskOk, hpc] at htask
  refine h.quiet _ (h.calls.not_inHand ?_) ?_ rfl rfl rfl htask (by simp)
  · simp [hpc]
  · simp [hpc]

/-- `futex_do_wait` returns before it has put the task on the list. -/
theorem Inv.refuse {val : BitVec 32} (h : Inv s) (hpc : (s.task t).pc = .waitLock val ticks) :
    Inv (s.goto t .idle) := by
  have htask := h.calls.task t
  simp only [TaskOk, hpc] at htask
  refine h.quiet _ (h.calls.not_inHand ?_) ?_ rfl rfl rfl htask (by simp)
  · simp [hpc]
  · simp [hpc]

/-- A task that was woken goes on. -/
theorem Inv.resume (h : Inv s) (hpc : (s.task t).pc = .asleep)
    (hblocked : (s.task t).blocked = false) :
    Inv (s.modify t fun r => { r with sleepIntr := false, pc := .resumed }) := by
  have htask := h.calls.task t
  simp only [TaskOk, hpc] at htask
  refine h.quiet _ (h.calls.not_inHand ?_) ?_ rfl rfl rfl ⟨hblocked, (htask.2.2 hblocked).1⟩
    (by simp)
  · simp [hblocked]
  · simp [hpc]

/-- It reads its mark, and takes its timer away. -/
theorem Inv.read (h : Inv s) (hpc : (s.task t).pc = .resumed) :
    Inv (s.modify t fun r => { r with futexReady := 0, pc := .unlink r.futexReady }) := by
  have htask := h.calls.task t
  simp only [TaskOk, hpc] at htask
  refine h.quiet _ (h.calls.not_inHand ?_) ?_ rfl rfl rfl htask (by simp)
  · simp [hpc]
  · simp [hpc]

/-- A task is sound without its timer. -/
theorem TaskOk.disarm {r : TaskRec} {c : Option Nat} (h : TaskOk r c) :
    TaskOk { r with armed := false } c := by
  unfold TaskOk at *
  cases hpc : r.pc <;> simp_all

/-- A signal that is stored for a wait that was not counted. -/
theorem TaskOk.store {r : TaskRec} (h : TaskOk r none) :
    TaskOk { r with sleepEintr := true } none := by
  unfold TaskOk at *
  cases hpc : r.pc <;> simp_all

section Store

/-- The record of a task in a state in which a signal is stored for `t`: at most the flag
is new. -/
theorem store_task (s : State) (t v : Task) :
    ∃ e, (s.modify t fun r => { r with sleepEintr := true }).task v
      = { s.task v with sleepEintr := e } := by
  rw [modify_task]
  split
  · rename_i hv
    rw [hv]
    exact ⟨true, rfl⟩
  · exact ⟨_, rfl⟩

/-- No part of the calls but `TaskOk` and `Target` is about the flag. -/
theorem Calls.store (h : Calls s) (hhand : ¬ InHand s t) (hcounted : s.counted t = none) :
    Calls (s.modify t fun r => { r with sleepEintr := true }) := by
  have hstored := store_task s t
  generalize hs' : (s.modify t fun r => { r with sleepEintr := true }) = s' at hstored
  have hother : ∀ v, v ≠ t → s'.task v = s.task v := fun v hv => by
    rw [← hs', modify_task_of_ne hv]
  have hpc : ∀ v, (s'.task v).pc = (s.task v).pc := fun v => by
    obtain ⟨e, he⟩ := hstored v
    rw [he]
  have hsleep : ∀ v, Sleeping s' v ↔ Sleeping s v := fun v => by
    obtain ⟨e, he⟩ := hstored v
    rw [Sleeping, Sleeping, he]
  have hfits : ∀ u a v, Matches s' u a v ↔ Matches s u a v := fun u a v => by
    obtain ⟨e, he⟩ := hstored v
    obtain ⟨e', he'⟩ := hstored u
    rw [Matches, Matches, he, he']
  refine ⟨fun v => ?_, fun u a id stage todo n hu => ?_, fun v hv => ?_⟩
  · have hok := h.task v
    by_cases hv : v = t
    · subst hv
      rw [← hs', modify_task, if_pos rfl]
      show TaskOk _ (s.counted v)
      rw [hcounted] at hok ⊢
      exact hok.store
    · rw [hother v hv, ← hs']
      exact hok
  · rw [hpc u] at hu
    have hw := h.waker u a id stage todo n hu
    refine ⟨fun x hx => ?_, fun x hsl hm => hw.complete x ((hsleep x).mp hsl) ((hfits u a x).mp hm)⟩
    have htarget := hw.target x hx
    -- `t` is in no waker's hand, so the target is another task
    have heq := hother x fun hxt => hhand (hxt ▸ ⟨u, a, id, stage, todo, n, hu, hx⟩)
    exact ⟨(hsleep x).mpr htarget.sleeping, (hfits u a x).mpr htarget.fits, heq ▸ htarget.eintr,
      heq ▸ htarget.armed, heq ▸ htarget.ready⟩
  · have hbucket : (s'.task v).bucket = (s.task v).bucket := by
      obtain ⟨e, he⟩ := hstored v
      rw [he]
      rfl
    rw [hbucket, ← hs']
    refine h.queued v ?_
    rw [hsleep v, hpc v] at hv
    refine hv.imp_left fun hv => ⟨hv.1, ?_⟩
    rintro ⟨u, a, id, stage, todo, n, hu, hrem⟩
    exact hv.2 ⟨u, a, id, stage, todo, n, (hpc u).trans hu, hrem⟩

end Store

section

variable (h : Inv s)

include h

/-- The timer wakes a task that is not in the hand of a waker. -/
theorem Inv.timer (harmed : (s.task t).armed = true) (hhand : ¬ InHand s t) :
    Inv (s.timerWake t) := by
  have htask := h.calls.task t
  -- a wake that has come to its lock or its loop has no timer
  obtain ⟨hlock, hwoken, hargs⟩ : lockOf (s.task t) = none ∧ wokenOf (s.task t).pc = none ∧
      argsOf (s.task t).pc = none := by
    cases hpc : (s.task t).pc <;> simp_all [wokenOf, argsOf]
  by_cases hblocked : (s.task t).blocked = true
  · -- only a task in `asleep` is blocked, and its timer is one of a futex
    have hpc : (s.task t).pc = .asleep := by
      cases hpc : (s.task t).pc <;> simp_all
    simp only [TaskOk, hpc] at htask
    have heq : s.timerWake t = s.modify t fun r =>
        { r with armed := false, futexReady := 2, futexTimed := false, blocked := false } := by
      simp [State.timerWake, hblocked, htask.1 harmed]
    rw [heq]
    refine h.quiet _ hhand hlock hlock hwoken hargs ?_ (by simp)
    simp [hpc, htask.2.1 hblocked]
  · have heq : s.timerWake t = s.modify t fun r => { r with armed := false } := by
      simp [State.timerWake, hblocked]
    rw [heq]
    exact h.quiet _ hhand hlock hlock hwoken hargs htask.disarm fun hs => hblocked hs.2

/-- The senders are in no other part of the invariant. -/
theorem Inv.setSender (k : Nat) (x : Option Sending) : Inv (s.setSender k x) := by
  refine ⟨h.locks, ⟨h.calls.task, fun u a id stage todo n hu => ?_, h.calls.queued⟩,
    ⟨h.numbers.small, h.numbers.woken, h.numbers.ids, h.numbers.unused⟩,
    ⟨h.balance.finite, h.balance.sum⟩⟩
  have hw := h.calls.waker u a id stage todo n hu
  refine ⟨fun t ht => ?_, hw.complete⟩
  have htarget := hw.target t ht
  exact ⟨htarget.sleeping, htarget.fits, htarget.eintr, htarget.armed, htarget.ready⟩

/-- A signal is stored for a task that no wake has in hand or has counted. -/
theorem Inv.store (hhand : ¬ InHand s t) (hcounted : s.counted t = none) :
    Inv (s.modify t fun r => { r with sleepEintr := true }) :=
  h.act (r := { s.task t with sleepEintr := true }) rfl ⟨rfl, rfl, rfl, rfl⟩
    (h.locks.keep rfl (fun _ => rfl) rfl) (h.calls.store hhand hcounted) (.inl rfl) (.inl rfl)

/-- `thread_ready` ends a wait for which a signal is stored. -/
theorem Inv.threadReady
    (hstored : (s.task t).blocked = true → (s.task t).sleepEintr = true) :
    Inv (s.threadReady t) := by
  unfold State.threadReady
  split
  · rename_i hblocked
    have heintr := hstored hblocked
    have htask := h.calls.task t
    have hpc : (s.task t).pc = .asleep := by
      cases hpc : (s.task t).pc <;> simp_all
    have hhand : ¬ InHand s t := by
      rintro ⟨u, a, id, stage, todo, n, hu, hx⟩
      have htarget := (h.calls.waker u a id stage todo n hu).target t hx
      cases heintr.symm.trans htarget.eintr
    refine h.quiet _ hhand ?_ ?_ ?_ ?_ ?_ (by simp)
    · simp [hpc]
    · simp [hpc]
    · simp [wokenOf, hpc]
    · simp [argsOf, hpc]
    · simp_all
  · exact h

/-- A step of `signal_wake_interruptible`. -/
theorem Inv.send {k : Nat} (he : Undisturbed s (.send k)) (hstep : s.send k = some s') :
    Inv s' := by
  unfold State.send at hstep
  split at hstep
  · cases hstep
  · rename_i t hk
    cases hstep
    obtain ⟨hhand, hcounted⟩ := he.1 t hk
    exact (h.store hhand hcounted).setSender k _
  · rename_i t hk
    cases hstep
    exact (h.threadReady (he.2 t hk)).setSender k none

/-- The task is put on the list and has the lock. -/
theorem Inv.enqueue {val : BitVec 32} (hpc : (s.task t).pc = .waitLock val ticks)
    (hb : (s.task t).bucket = b) (hfree : (s.bucket b).lock = none) :
    Inv ((s.setBucket b ⟨(s.bucket b).waiters ++ [t], some t⟩).modify t fun r =>
      { r with sleepEintr := false, sleepIntr := true, pc := .waitPrepare ticks }) := by
  have htask := h.calls.task t
  simp only [TaskOk, hpc] at htask
  obtain ⟨hblocked, harmed, hcounted⟩ := htask
  refine h.act rfl ⟨rfl, rfl, rfl, rfl⟩ ?_ ?_ (.inr rfl) (.inr rfl)
  · exact h.locks.acquire rfl hfree (by simp [hpc]) (congrArg some hb) (setBucket_lock b)
  refine h.calls.act rfl (fun _ _ => rfl) (h.calls.not_inHand ?_) (congrArg handOf hpc)
    ⟨hblocked, harmed, hcounted⟩ ?_ ?_ ?_ ?_
  · simp [hpc]
  · exact mem_setBucket fun v _ hv => List.mem_append_left _ hv
  · intro a id stage todo n hw
    cases hw
  · intro hs
    cases hs.1
  · intro _
    subst hb
    show t ∈ ((s.setBucket _ _).bucket (s.task t).bucket).waiters
    rw [setBucket_bucket, if_pos rfl]
    exact List.mem_append_right _ List.mem_cons_self

/-- The task is blocked, and its lock is given back. No wake can miss it, since a wake for
it would have the same lock. -/
theorem Inv.prepare (hpc : (s.task t).pc = .waitPrepare ticks) : Inv (s.prepare t ticks) := by
  have htask := h.calls.task t
  simp only [TaskOk, hpc] at htask
  obtain ⟨-, harmed, hcounted⟩ := htask
  have hlock : lockOf (s.task t) = some (s.task t).bucket := by
    simp [hpc]
  have hmem := h.calls.queued t (.inr ⟨ticks, hpc⟩)
  refine h.act rfl ⟨rfl, rfl, rfl, rfl⟩ (h.locks.release rfl hlock rfl (setBucket_lock _)) ?_
    (.inr rfl) (.inr rfl)
  refine h.calls.act rfl (fun _ _ => rfl) (h.calls.not_inHand ?_) (congrArg handOf hpc) ?_
    (mem_setBucket fun _ _ hv => hv) ?_ ?_ ?_
  · simp [hpc]
  · simp [State.prepare, State.setBucket, harmed, hcounted]
  · intro a id stage todo n hw
    cases hw
  · intro _ u a id stage todo n hut hu hm
    have hbucket := bucket_of_matches hm
    unfold State.prepare at hbucket
    rw [modify_task, if_pos rfl, modify_task_of_ne hut] at hbucket
    refine hut (h.locks.eq_of_lockOf (b := (s.task t).bucket) ?_ hlock)
    simp only [lockOf, hu]
    exact congrArg some hbucket.symm
  · intro _
    show t ∈ ((s.setBucket _ _).bucket (s.task t).bucket).waiters
    rw [setBucket_bucket, if_pos rfl]
    exact hmem

/-- A task that was not marked takes itself out of the bucket. -/
theorem Inv.unlink (hpc : (s.task t).pc = .unlink ready) (hstep : s.unlink t ready = some s') :
    Inv s' := by
  have htask := h.calls.task t
  simp only [TaskOk, hpc] at htask
  simp only [State.unlink, Option.ite_none_left_eq_some, Option.some.injEq, ne_eq,
    Decidable.not_not] at hstep
  obtain ⟨hfree, rfl⟩ := hstep
  have hlock : lockOf (s.task t) = none := by simp [hpc]
  refine h.act rfl ⟨rfl, rfl, rfl, rfl⟩ (h.locks.keep rfl (setBucket_lock_eq hfree.symm) hlock.symm)
    ?_ (.inr rfl) (.inr rfl)
  refine h.calls.act_unlocked rfl (fun _ _ => rfl) (h.calls.not_inHand ?_) (congrArg handOf hpc)
    htask (mem_setBucket fun v hv hmem => (List.mem_erase_of_ne hv).mpr hmem) rfl ?_
  · simp [hpc]
  · simp

/-- The wake takes its lock: all the waiters that it is for are on the list. -/
theorem Inv.wakeLock (hpc : (s.task t).pc = .wakeLock a id)
    (hb : futexBucketFor a.uaddr (s.task t).pml4Phys = b) (hfree : (s.bucket b).lock = none) :
    Inv ((s.setBucket b ⟨(s.bucket b).waiters, some t⟩).goto t
      (.waking a id .scan (s.bucket b).waiters 0)) := by
  have htask := h.calls.task t
  simp only [TaskOk, hpc] at htask
  have hnot : ¬ Sleeping s t := by simp [hpc]
  refine h.act rfl ⟨rfl, rfl, rfl, rfl⟩ ?_ ?_ (.inl ?_) (.inl ?_)
  · exact h.locks.acquire rfl hfree (by simp [hpc]) (congrArg some hb) (setBucket_lock b)
  · refine h.calls.act_waking rfl (fun _ _ => rfl) (h.calls.not_inHand hnot) (congrArg handOf hpc)
      htask (mem_setBucket fun _ _ hv => hv) rfl hnot (fun x hx => by cases hx)
      fun v hs hm => .inl ?_
    have hbv : (s.task v).bucket = b := (bucket_of_matches hm).trans hb
    -- a wake that had taken it off the list would have the lock
    have hremoved : ¬ Removed s v := by
      rintro ⟨w, a', id', stage, todo, n, hw, hst⟩
      have htarget : stage.target = some v := by
        rcases hst with rfl | rfl <;> rfl
      have hwb := bucket_of_matches ((h.calls.waker _ _ _ _ _ _ hw).target v htarget).fits
      have hlock : lockOf (s.task w) = some b := by
        rw [← hbv, hwb]
        simp [hw]
      have := (h.locks b w).mpr hlock
      rw [hfree] at this
      cases this
    have hmem := h.calls.queued v (.inl ⟨hs, hremoved⟩)
    rw [hbv] at hmem
    exact hmem
  · rw [hpc]
    rfl
  · rw [hpc]
    rfl

/-- `futex_do_wake` begins and gets its number. -/
theorem Inv.wake (hpc : (s.task t).pc = .idle) (hsmall : a.nr.toNat < 2147483648) :
    Inv ({ s with wakes := s.wakes + 1 }.goto t (.wakeLock a s.wakes)) := by
  have htask := h.calls.task t
  simp only [TaskOk, hpc] at htask
  have hlock : lockOf (s.task t) = none := by simp [hpc]
  refine ⟨h.locks.keep rfl (fun _ => rfl) hlock.symm, ?_,
    h.numbers.act (t := t) (fun v hv => ?_) ?_ ?_ (Nat.le_succ _) (fun _ _ _ _ _ => rfl) ?_,
    ⟨h.balance.finite, h.balance.sum⟩⟩
  · refine h.calls.act_unlocked rfl (fun _ _ => rfl) (h.calls.not_inHand ?_) (congrArg handOf hpc)
      htask (fun _ _ _ hv => hv) rfl ?_
    · simp [hpc]
    · simp
  · unfold State.goto
    rw [modify_task_of_ne hv]
  · unfold State.goto
    rw [modify_task, if_pos rfl]
    intro a' ha
    cases ha
    exact hsmall
  · unfold State.goto
    rw [modify_task, if_pos rfl]
    intro id n hn
    cases hn
    -- the number is new
    refine ⟨Nat.lt_succ_self _, h.numbers.unused _ le_rfl, fun v m _ hm => ?_⟩
    exact absurd (h.numbers.woken v _ m hm).1 (Nat.lt_irrefl _)
  · intro id hid
    exact h.numbers.unused id (Nat.le_of_succ_le hid)

end

/-- A waiter that was counted returns 0, and another one does not. -/
theorem Settled.result_eq_zero_iff {eintr : Bool} {c : Option Nat} (h : Settled ready eintr c) :
    result ready eintr = 0 ↔ ∃ id, c = some id := by
  cases c with
  | none =>
    unfold result
    rcases h with rfl | rfl
    · simp
    · split <;> simp
  | some id =>
    obtain ⟨rfl, rfl⟩ := h
    simp [result]

/-- The end of a wait is settled with the counts. -/
theorem Balance.finish (h : Balance s)
    (hsettled : Settled ready (s.task t).sleepEintr (s.counted t)) :
    Balance (s.finish t ready) := by
  refine ⟨h.finite.update t none, fun id => ?_⟩
  show s.tally id = s.servedAfter t ready id + count (update s.counted t none) id
  have hone := count_update h.finite t none id
  rw [if_neg (c := none = some id) (by simp)] at hone
  have hsum := h.sum id
  unfold State.servedAfter
  cases hc : s.counted t with
  | none =>
    rw [hc, if_neg (by simp)] at hone
    show _ = s.served id + _
    omega
  | some id' =>
    have hzero : result ready (s.task t).sleepEintr = 0 := by
      rw [hsettled.result_eq_zero_iff]
      exact ⟨id', hc⟩
    rw [hc] at hone
    simp only [hzero, if_true]
    rw [update_apply]
    by_cases hid : id = id'
    · subst hid
      rw [if_pos rfl] at hone ⊢
      omega
    · rw [if_neg hid]
      rw [if_neg (by simpa using Ne.symm hid)] at hone
      omega

/-- The wait returns. -/
theorem Inv.finish (h : Inv s) (hpc : (s.task t).pc = .finish ready) : Inv (s.finish t ready) := by
  have htask := h.calls.task t
  simp only [TaskOk, hpc] at htask
  obtain ⟨hblocked, hsettled⟩ := htask
  have hlock : lockOf (s.task t) = none := by simp [hpc]
  refine ⟨h.locks.keep rfl (fun _ => rfl) hlock.symm, ?_,
    h.numbers.frame (t := t) ?_ (.inr ?_) (.inr ?_) rfl rfl, h.balance.finish hsettled⟩
  · refine h.calls.act_unlocked rfl (fun v hv => update_of_ne hv _ _) (h.calls.not_inHand ?_)
      (congrArg handOf hpc) ⟨hblocked, rfl, update_self ..⟩ (fun _ _ _ hv => hv) rfl ?_
    · simp [hpc]
    · simp
  all_goals unfold State.finish
  · intro v hv
    rw [modify_task_of_ne hv]
  · rw [modify_task, if_pos rfl]
    rfl
  · rw [modify_task, if_pos rfl]
    rfl

/-- A task in `futex_do_wake` is not blocked. -/
theorem Calls.waking_ok (h : Calls s) (hu : (s.task u).pc = .waking a id stage todo n) :
    (s.task u).blocked = false ∧ (s.task u).armed = false ∧ s.counted u = none := by
  have htask := h.task u
  simp only [TaskOk, hu] at htask
  exact htask

/-- The wake goes on in its list, with the next waiter in hand or not. -/
theorem Inv.scan {stage' : Stage} {todo' : List Task}
    (h : Inv s) (hu : (s.task u).pc = .waking a id .scan todo n)
    (hstage : ∀ x, stage'.target = some x →
      stage' = .selected x ∧ Sleeping s x ∧ Matches s u a x ∧ (s.task x).sleepEintr = false)
    (htodo : ∀ x, Sleeping s x → Matches s u a x → x ∈ todo → x ∈ todo' ∨ stage'.target = some x) :
    Inv (s.goto u (.waking a id stage' todo' n)) := by
  have hok := h.calls.waking_ok hu
  have hnot : ¬ Sleeping s u := by simp [hu]
  refine h.act rfl ⟨rfl, rfl, rfl, rfl⟩ (h.locks.keep rfl (fun _ => rfl) ?_) ?_ (.inl ?_) (.inl ?_)
  · simp [hu]
  · refine h.calls.act_waking rfl (fun _ _ => rfl) (h.calls.not_inHand hnot)
      (congrArg handOf hu) hok
      (fun _ _ _ hv => hv) rfl hnot hstage fun x hs hm => ?_
    rcases (h.calls.waker _ _ _ _ _ _ hu).complete x hs hm with hmem | hx
    · exact htodo x hs hm hmem
    · cases hx
  · rw [hu]
    rfl
  · rw [hu]
    rfl

/-- The wake returns. -/
theorem Inv.leave (h : Inv s) (hu : (s.task u).pc = .waking a id .scan todo n) :
    Inv (s.leave u a) := by
  have hok := h.calls.waking_ok hu
  refine h.act rfl ⟨rfl, rfl, rfl, rfl⟩ ?_ ?_ (.inr rfl) (.inr rfl)
  · exact h.locks.release rfl (by simp [hu]) rfl (setBucket_lock _)
  · refine h.calls.act_unlocked rfl (fun _ _ => rfl) (h.calls.not_inHand ?_)
      (congrArg handOf hu) hok
      (mem_setBucket fun _ _ hv => hv) rfl ?_
    · simp [hu]
    · simp

end Steps

/-! ### The waiter in hand -/

section Hand

variable {s s' : State} {t u : Task} {a : WakeArgs} {stage stage' : Stage} {todo : List Task}
  {id n n' : Nat}

/-- The same wait, for the same wakes. -/
structure SameWait (r r' : TaskRec) : Prop where
  pc : r'.pc = r.pc
  pml4Phys : r'.pml4Phys = r.pml4Phys
  uaddr : r'.futexUaddr = r.futexUaddr
  pml4 : r'.futexPml4 = r.futexPml4
  bitset : r'.futexBitset = r.futexBitset

/-- What a step of a wake with a waiter in hand changes: the waiter, but not its point and
for which wakes it is, and how far the wake is. -/
structure HandStep (s s' : State) (t u : Task) (pc : Pc) : Prop where
  other : ∀ v, v ≠ t → v ≠ u → s'.task v = s.task v
  waker : s'.task u = { s.task u with pc := pc }
  same : SameWait (s.task t) (s'.task t)
  blocked : (s'.task t).blocked = true → (s.task t).blocked = true
  lock : ∀ b, (s'.bucket b).lock = (s.bucket b).lock
  waiters : ∀ b v, v ≠ t → v ∈ (s.bucket b).waiters → v ∈ (s'.bucket b).waiters
  counted : ∀ v, v ≠ t → s'.counted v = s.counted v

/-- A step of the waker puts nobody to sleep. -/
theorem HandStep.sleeping (hs : HandStep s s' t u (.waking a id stage' todo n')) {v : Task}
    (hv : Sleeping s' v) : Sleeping s v := by
  by_cases hvu : v = u
  · unfold Sleeping at hv
    rw [hvu, hs.waker] at hv
    cases hv.1
  by_cases hvt : v = t
  · subst hvt
    exact ⟨hs.same.pc ▸ hv.1, hs.blocked hv.2⟩
  · unfold Sleeping at hv
    rw [hs.other v hvt hvu] at hv
    exact hv

/-- It changes no address and no bitset, either. -/
theorem HandStep.fits_iff {pc : Pc} (hs : HandStep s s' t u pc) {v w : Task} {a' : WakeArgs} :
    Matches s' w a' v ↔ Matches s w a' v := by
  have hfields : ∀ v, (s'.task v).futexUaddr = (s.task v).futexUaddr ∧
      (s'.task v).futexPml4 = (s.task v).futexPml4 ∧
      (s'.task v).futexBitset = (s.task v).futexBitset ∧
      (s'.task v).pml4Phys = (s.task v).pml4Phys := by
    intro v
    by_cases hvt : v = t
    · rw [hvt]
      exact ⟨hs.same.uaddr, hs.same.pml4, hs.same.bitset, hs.same.pml4Phys⟩
    by_cases hvu : v = u
    · rw [hvu, hs.waker]
      exact ⟨rfl, rfl, rfl, rfl⟩
    · rw [hs.other v hvt hvu]
      exact ⟨rfl, rfl, rfl, rfl⟩
  obtain ⟨huaddr, hpml4, hbitset, -⟩ := hfields v
  obtain ⟨-, -, -, hphys⟩ := hfields w
  unfold Matches
  rw [huaddr, hpml4, hbitset, hphys]

/-- The step keeps the invariant, if what it does to the waiter is right. -/
theorem Calls.hand (h : Calls s) (hl : Locks s) (hu : (s.task u).pc = .waking a id stage todo n)
    (hstage : stage.target = some t) (hs : HandStep s s' t u (.waking a id stage' todo n'))
    (htask : TaskOk (s'.task t) (s'.counted t))
    (htarget : ∀ x, stage'.target = some x → Target s' u a stage' x)
    (hcomplete : Sleeping s' t → stage' = .disarmed t ∨ stage' = .marked t) : Calls s' := by
  have hok := h.waking_ok hu
  refine ⟨fun v => ?_, fun w a' id' st todo' m hw => ?_, fun v hv => ?_⟩
  · by_cases hvt : v = t
    · rw [hvt]
      exact htask
    rw [hs.counted v hvt]
    by_cases hvu : v = u
    · rw [hvu, hs.waker]
      exact hok
    · rw [hs.other v hvt hvu]
      exact h.task v
  · by_cases hwu : w = u
    · rw [hwu, hs.waker] at hw
      cases hw
      rw [hwu]
      -- the waker itself: what it was looking for, it has in its hand or on its list
      refine ⟨htarget, fun v hsl hm => ?_⟩
      rcases (h.waker _ _ _ _ _ _ hu).complete v (hs.sleeping hsl) (hs.fits_iff.mp hm) with
        hmem | hx
      · exact .inl hmem
      rw [hstage] at hx
      cases hx
      rcases hcomplete hsl with hst | hst <;> rw [hst] <;> exact .inr rfl
    · -- another waker: its own target is another task
      have hwt : w ≠ t := by
        rintro rfl
        have hsl := ((h.waker _ _ _ _ _ _ hu).target w hstage).sleeping.1
        rw [hs.same.pc, hsl] at hw
        cases hw
      rw [hs.other w hwt hwu] at hw
      refine (h.waker _ _ _ _ _ _ hw).frame ?_ ?_ ?_
      · rw [hs.other w hwt hwu]
      · intro x hx
        refine hs.other x ?_ ?_
        · rintro rfl
          exact hwu (h.hand_unique hl hw hx hu hstage)
        · rintro rfl
          have hsl := ((h.waker _ _ _ _ _ _ hw).target x hx).sleeping.1
          cases hu.symm.trans hsl
      · intro x hsl hm
        exact ⟨hs.sleeping hsl, hs.fits_iff.mp hm⟩
  · have hvu : v ≠ u := by
      rintro rfl
      rcases hv with ⟨hsl, -⟩ | ⟨ticks, hp⟩
      · have := (hs.sleeping hsl).1
        cases hu.symm.trans this
      · rw [hs.waker] at hp
        cases hp
    by_cases hvt : v = t
    · -- the waiter is off the list, or not asleep any more
      subst hvt
      rcases hv with ⟨hsl, hnot⟩ | ⟨ticks, hp⟩
      · refine absurd ⟨u, a, id, stage', todo, n', ?_, hcomplete hsl⟩ hnot
        rw [hs.waker]
      · rw [hs.same.pc, ((h.waker _ _ _ _ _ _ hu).target v hstage).sleeping.1] at hp
        cases hp
    · have heq := hs.other v hvt hvu
      rw [heq]
      refine hs.waiters _ v hvt (h.queued v ?_)
      rcases hv with ⟨hsl, hnot⟩ | hp
      · refine .inl ⟨hs.sleeping hsl, ?_⟩
        rintro ⟨w, a', id', st, todo', m, hw, hrem⟩
        have htw : st.target = some v := by
          rcases hrem with rfl | rfl <;> rfl
        have hwu : w ≠ u := by
          rintro rfl
          cases hu.symm.trans hw
          rw [hstage] at htw
          exact hvt (Option.some.inj htw).symm
        have hwt : w ≠ t := by
          rintro rfl
          have hsl := ((h.waker _ _ _ _ _ _ hu).target w hstage).sleeping.1
          cases hsl.symm.trans hw
        refine hnot ⟨w, a', id', st, todo', m, ?_, hrem⟩
        rw [hs.other w hwt hwu]
        exact hw
      · rw [heq] at hp
        exact .inr hp

/-- The waker keeps the lock of its bucket. -/
theorem Locks.hand (h : Locks s) (hu : (s.task u).pc = .waking a id stage todo n)
    (ht : (s.task t).pc = .asleep) (hs : HandStep s s' t u (.waking a id stage' todo n')) :
    Locks s' := by
  refine h.frame hs.lock fun v => ?_
  by_cases hvu : v = u
  · rw [hvu, hs.waker]
    simp [hu]
  by_cases hvt : v = t
  · rw [hvt]
    simp [hs.same.pc, ht]
  · rw [hs.other v hvt hvu]

/-- The state after a step of a wake with a waiter in hand. -/
theorem handStep_mk (s s' s₁ : State) (f : TaskRec → TaskRec) (pc : Pc)
    (hs' : (s₁.modify t f).goto u pc = s') (htu : t ≠ u)
    (htask : s₁.task = s.task) (hsame : SameWait (s.task t) (f (s.task t)))
    (hblocked : (f (s.task t)).blocked = true → (s.task t).blocked = true)
    (hlock : ∀ b, (s₁.bucket b).lock = (s.bucket b).lock)
    (hwaiters : ∀ b v, v ≠ t → v ∈ (s.bucket b).waiters → v ∈ (s₁.bucket b).waiters)
    (hcounted : ∀ v, v ≠ t → s₁.counted v = s.counted v) :
    HandStep s s' t u pc ∧ s'.task t = f (s.task t) := by
  subst hs'
  have htarget : ((s₁.modify t f).goto u pc).task t = f (s.task t) := by
    unfold State.goto
    rw [modify_task_of_ne htu, modify_task, if_pos rfl, htask]
  refine ⟨⟨fun v hvt hvu => ?_, ?_, ?_, ?_, hlock, hwaiters, hcounted⟩, htarget⟩
  · unfold State.goto
    rw [modify_task_of_ne hvu, modify_task_of_ne hvt, htask]
  · unfold State.goto
    rw [modify_task, if_pos rfl, modify_task_of_ne htu.symm, htask]
  · rw [htarget]
    exact hsame
  · rw [htarget]
    exact hblocked

/-- The points of the other tasks stay. -/
theorem HandStep.pc_other {pc : Pc} (hs : HandStep s s' t u pc) (v : Task) (hv : v ≠ u) :
    (s'.task v).pc = (s.task v).pc := by
  by_cases hvt : v = t
  · rw [hvt]
    exact hs.same.pc
  · rw [hs.other v hvt hv]

/-- What is known of the waiter in hand. -/
theorem Calls.target_ok (h : Calls s) (hu : (s.task u).pc = .waking a id stage todo n)
    (hstage : stage.target = some t) :
    Target s u a stage t ∧ t ≠ u ∧ (s.task t).pc = .asleep ∧ (s.task t).blocked = true ∧
      s.counted t = none ∧ (s.task t).sleepEintr = false := by
  have hw := (h.waker _ _ _ _ _ _ hu).target t hstage
  have hs := hw.sleeping
  have htask := h.task t
  simp only [TaskOk, hs.1] at htask
  have htu : t ≠ u := by
    rintro rfl
    cases hu.symm.trans hs.1
  exact ⟨hw, htu, hs.1, hs.2, htask.2.1 hs.2, hw.eintr⟩

/-- `list_remove` and `thread_timer_disarm` -/
theorem Inv.disarm (h : Inv s) (hu : (s.task u).pc = .waking a id (.selected t) todo n) :
    Inv (s.wakeStep u a id todo n (.selected t)) := by
  obtain ⟨hw, htu, hpc, hblocked, hcounted, heintr⟩ := h.calls.target_ok hu rfl
  obtain ⟨hs, htarget⟩ := handStep_mk s (s.wakeStep u a id todo n (.selected t))
    (s.setBucket (futexBucketFor a.uaddr (s.task u).pml4Phys)
      ⟨(s.bucket (futexBucketFor a.uaddr (s.task u).pml4Phys)).waiters.erase t,
        (s.bucket (futexBucketFor a.uaddr (s.task u).pml4Phys)).lock⟩)
    (fun r => { r with armed := false, futexTimed := false })
    (.waking a id (.disarmed t) todo n) rfl htu rfl ⟨rfl, rfl, rfl, rfl, rfl⟩ (fun hb => hb)
    (setBucket_lock_eq rfl)
    (fun b v hv => mem_setBucket (fun v hv hmem => (List.mem_erase_of_ne hv).mpr hmem) v hv b)
    (fun _ _ => rfl)
  have hsleep : Sleeping s t := ⟨hpc, hblocked⟩
  refine ⟨h.locks.hand hu hpc hs, h.calls.hand h.locks hu rfl hs ?_ ?_ ?_, ?_,
    ⟨h.balance.finite, h.balance.sum⟩⟩
  · rw [htarget]
    simp [hpc, hblocked]
    exact hcounted
  · intro x hx
    cases hx
    refine ⟨?_, hs.fits_iff.mpr hw.fits, ?_, fun _ => ?_, fun hne => by cases hne⟩
    · unfold Sleeping
      rw [htarget]
      exact hsleep
    · rw [htarget]
      exact heintr
    · rw [htarget]
  · exact fun _ => .inl rfl
  · refine h.numbers.frame hs.pc_other (.inl ?_) (.inl ?_) rfl rfl <;> rw [hs.waker, hu] <;> rfl

/-- The store to `futex_ready` -/
theorem Inv.mark (h : Inv s) (hu : (s.task u).pc = .waking a id (.disarmed t) todo n) :
    Inv (s.wakeStep u a id todo n (.disarmed t)) := by
  obtain ⟨hw, htu, hpc, hblocked, hcounted, heintr⟩ := h.calls.target_ok hu rfl
  have harmed := hw.armed (by simp)
  obtain ⟨hs, htarget⟩ := handStep_mk s (s.wakeStep u a id todo n (.disarmed t)) s
    (fun r => { r with futexReady := 1 }) (.waking a id (.marked t) todo n) rfl htu rfl
      ⟨rfl, rfl, rfl, rfl, rfl⟩ (fun hb => hb)
    (fun _ => rfl) (fun _ _ _ hv => hv) (fun _ _ => rfl)
  have hsleep : Sleeping s t := ⟨hpc, hblocked⟩
  refine ⟨h.locks.hand hu hpc hs, h.calls.hand h.locks hu rfl hs ?_ ?_ ?_, ?_,
    ⟨h.balance.finite, h.balance.sum⟩⟩
  · rw [htarget]
    simp [hpc, hblocked, harmed]
    exact hcounted
  · intro x hx
    cases hx
    refine ⟨?_, hs.fits_iff.mpr hw.fits, ?_, fun _ => ?_, fun _ => ?_⟩
    · unfold Sleeping
      rw [htarget]
      exact hsleep
    · rw [htarget]
      exact heintr
    · rw [htarget]
      exact harmed
    · rw [htarget]
  · exact fun _ => .inr rfl
  · refine h.numbers.frame hs.pc_other (.inl ?_) (.inl ?_) rfl rfl <;> rw [hs.waker, hu] <;> rfl

/-- One more is counted. -/
theorem Balance.count {s : State} (h : Balance s) (hcounted : s.counted t = none) :
    ∀ j, update s.tally id (s.tally id + 1) j =
      s.served j + RefCount.count (update s.counted t (some id)) j := by
  intro j
  have hone := count_update h.finite t (some id) j
  have hsum := h.sum j
  rw [hcounted, if_neg (by simp)] at hone
  rw [update_apply]
  by_cases hj : j = id
  · subst hj
    rw [if_pos rfl] at hone ⊢
    omega
  · rw [if_neg hj]
    rw [if_neg (by simpa using Ne.symm hj)] at hone
    omega

/-- `thread_unblock` and `woken++` -/
theorem Inv.unblock (h : Inv s) (hu : (s.task u).pc = .waking a id (.marked t) todo n) :
    Inv (s.wakeStep u a id todo n (.marked t)) := by
  obtain ⟨hw, htu, hpc, hblocked, hcounted, heintr⟩ := h.calls.target_ok hu rfl
  have harmed := hw.armed (by simp)
  obtain ⟨hs, htarget⟩ := handStep_mk s (s.wakeStep u a id todo n (.marked t))
    { s with
      counted := update s.counted t (some id)
      tally := update s.tally id (s.tally id + 1) }
    (fun r => { r with blocked := false }) (.waking a id .scan todo (n + 1)) rfl htu rfl
    ⟨rfl, rfl, rfl, rfl, rfl⟩ (fun hb => by cases hb) (fun _ => rfl) (fun _ _ _ hv => hv)
    (fun v hv => update_of_ne hv _ _)
  have hmine : wokenOf (s.task u).pc = some (id, n) := by rw [hu]; rfl
  obtain ⟨hid, hcount⟩ := h.numbers.woken u id n hmine
  -- the numbers of two wakes differ
  have hids : ∀ v j m, v ≠ u → wokenOf (s.task v).pc = some (j, m) → j ≠ id := by
    rintro v j m hv hj rfl
    exact hv (h.numbers.ids v u j m n hj hmine)
  refine ⟨h.locks.hand hu hpc hs, h.calls.hand h.locks hu rfl hs ?_ ?_ ?_,
    h.numbers.act hs.pc_other ?_ ?_ le_rfl ?_ ?_,
    ⟨h.balance.finite.update t (some id), h.balance.count hcounted⟩⟩
  · rw [htarget]
    show TaskOk _ (update s.counted t (some id) t)
    simp [hpc, heintr, harmed, hw.ready rfl]
  · intro x hx
    cases hx
  · intro hsl
    unfold Sleeping at hsl
    rw [htarget] at hsl
    cases hsl.2
  · intro a' ha
    rw [hs.waker] at ha
    exact h.numbers.small u a' (by rw [hu]; exact ha)
  · intro j m hj
    rw [hs.waker] at hj
    cases hj
    refine ⟨hid, ?_, fun v m hv hm => hids v id m hv hm rfl⟩
    show update s.tally id (s.tally id + 1) id = n + 1
    rw [update_self, hcount]
  · intro v j m hv hj
    exact update_of_ne (hids v j m hv hj) _ _
  · intro j hj
    have hne : j ≠ id := (lt_of_lt_of_le hid hj).ne'
    exact (update_of_ne hne _ _).trans (h.numbers.unused j hj)

end Hand

end CoreZ.Proofs.Syscall.Futex
