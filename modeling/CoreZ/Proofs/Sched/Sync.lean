import CoreZ.Lib.Run
import CoreZ.Lib.RefCount
import CoreZ.Sched.Sync

/-!
# `CoreZ.Proofs.Sched.Sync`: semaphores and recursive locks in any schedule

`Consistent` says what locks and semaphores are for: one task inside a lock, holder
and repeat count as the task and its nesting, units neither lost nor made up, each
blocked task on one list once, and no task left on the list of a semaphore that has
units while nobody is on the way to take them.

The last point is the one that needs an invariant. An up gives its unit to nobody: it
wakes the first waiter, which makes another pass and may find the value taken by a task
that came in between. `Inv.pending` says that while somebody waits, there are at least
as many woken tasks as units.

The value of a semaphore is a byte and the repeat count a 32-bit number. The up at the
value 255 and the acquire at the repeat count 2³² - 1 wrap around, and are the steps
after which the state is not consistent (`sync_consistent_iff`).
-/

set_option autoImplicit false

namespace CoreZ.Proofs.Sched

open CoreZ.Lib
open CoreZ.Sched
open Function

/-! ### The property -/

/-- What holds in every state that is reached from the values `v`. -/
structure Consistent (v : Nat → Nat) (s : State) : Prop where
  /-- at most one task is inside a lock -/
  exclusive : ∀ l t u, 0 < s.depth l t → 0 < s.depth l u → t = u
  /-- the holder is the task inside -/
  holder : ∀ l t, (s.lock l).holder = some t ↔ 0 < s.depth l t
  /-- the repeat count is its nesting depth -/
  nesting : ∀ l t, (s.lock l).holder = some t → (s.lock l).holderRepeatNr = s.depth l t
  /-- units that were there and came are there or were taken -/
  balance : ∀ k, (s.sema k).value + s.downs k = initial v k + s.ups k
  /-- the tasks on a list are those that are blocked on the semaphore -/
  waiting : ∀ k t, t ∈ (s.sema k).waiters ↔ ∃ c, s.pc t = .blocked c ∧ c.sema = k
  /-- each of them is there once -/
  nodup : ∀ k, (s.sema k).waiters.Nodup
  /-- a task is blocked on a semaphore with units only while a woken task is on the way -/
  awake : ∀ t c, s.pc t = .blocked c → 0 < (s.sema c.sema).value →
    ∃ u c', s.pc u = .trying c' true ∧ c'.sema = c.sema

/-- The step does not wrap a counter around. -/
def NoWrap (s : State) : Event → Prop
  | .up _ k => (s.sema (.plain k)).value < 255
  | .acquire t l => (s.lock l).holder = some t → (s.lock l).holderRepeatNr < 4294967295
  | _ => True

/-! ### The invariant -/

/-- The semaphore that a woken task is on the way to. -/
def wokenOf : Pc → Option SemaId
  | .trying c true => some c.sema
  | _ => none

def wokenOn (s : State) : Task → Option SemaId := wokenOf ∘ s.pc

/-- Lists of waiters and the woken tasks. -/
structure Queues (s : State) : Prop where
  waiting : ∀ k t, t ∈ (s.sema k).waiters ↔ ∃ c, s.pc t = .blocked c ∧ c.sema = k
  nodup : ∀ k, (s.sema k).waiters.Nodup
  pending : ∀ k, (s.sema k).waiters ≠ [] → (s.sema k).value ≤ RefCount.count (wokenOn s) k
  finite : RefCount.FiniteRefs (wokenOn s)

/-- A lock and its semaphore: free with one unit, or held by a task at some depth. -/
structure LockOk (x : Lock) (value : Nat) (depth : Task → Nat) : Prop where
  free : x.holder = none → value = 1 ∧ ∀ t, depth t = 0
  held : ∀ t, x.holder = some t → value = 0 ∧ 0 < depth t ∧ x.holderRepeatNr = depth t ∧
    ∀ u, u ≠ t → depth u = 0

structure Inv (v : Nat → Nat) (s : State) : Prop where
  queues : Queues s
  locks : ∀ l, LockOk (s.lock l) (s.sema (.ofLock l)).value (s.depth l)
  repeat_lt : ∀ l, (s.lock l).holderRepeatNr < 4294967296
  value_lt : ∀ k, (s.sema k).value < 256
  balance : ∀ k, (s.sema k).value + s.downs k = initial v k + s.ups k

variable {x : Lock}

/-- The holder is the task inside of the lock. -/
theorem LockOk.holder_iff {value : Nat} {depth : Task → Nat} (h : LockOk x value depth) {t : Task} :
    x.holder = some t ↔ 0 < depth t := by
  constructor
  · exact fun ht => (h.held t ht).2.1
  · intro ht
    cases hx : x.holder with
    | none =>
      rw [(h.free hx).2 t] at ht
      omega
    | some u =>
      by_cases hut : t = u
      · rw [hut]
      · rw [(h.held u hx).2.2.2 t hut] at ht
        omega

/-- The invariant gives the property. -/
theorem Inv.consistent {v : Nat → Nat} {s : State} (h : Inv v s) : Consistent v s where
  exclusive l t u ht hu := by
    have ht := ((h.locks l).holder_iff).mpr ht
    have hu := ((h.locks l).holder_iff).mpr hu
    rw [ht] at hu
    exact Option.some.inj hu
  holder l t := (h.locks l).holder_iff
  nesting l t ht := ((h.locks l).held t ht).2.2.1
  balance := h.balance
  waiting := h.queues.waiting
  nodup := h.queues.nodup
  awake t c ht hv := by
    have hmem : t ∈ (s.sema c.sema).waiters := (h.queues.waiting _ t).mpr ⟨c, ht, rfl⟩
    have hle := h.queues.pending c.sema (List.ne_nil_of_mem hmem)
    -- so there is a woken task
    have hne : ¬ ∀ u, wokenOn s u ≠ some c.sema := by
      intro hall
      rw [(RefCount.count_eq_zero_iff h.queues.finite).mpr hall] at hle
      omega
    obtain ⟨u, hu⟩ := not_forall_not.mp hne
    have hu : wokenOf (s.pc u) = some c.sema := hu
    unfold wokenOf at hu
    split at hu
    · next c' hc' => exact ⟨u, c', hc', Option.some.inj hu⟩
    · cases hu

/-! ### Queues -/

variable {w : Bool} {c : Call} {l : Nat}

section Queues

variable {s : State} {t : Task}

theorem wokenOn_setPc (s : State) (t : Task) (p : Pc) :
    wokenOn (s.setPc t p) = update (wokenOn s) t (wokenOf p) :=
  comp_update wokenOf s.pc t p

/-- A task that is not blocked is on no list. -/
theorem Queues.not_mem (h : Queues s) (ht : ∀ c, s.pc t ≠ .blocked c) (k : SemaId) :
    t ∉ (s.sema k).waiters := by
  intro hmem
  obtain ⟨c, hc, -⟩ := (h.waiting k t).mp hmem
  exact ht c hc

variable {p : Pc} {k : SemaId}

/-- A task goes on that is not blocked, before or after. -/
theorem blocked_setPc (ht : ∀ c, s.pc t ≠ .blocked c) (hp : ∀ c, p ≠ .blocked c) (u : Task)
    (c : Call) : (s.setPc t p).pc u = .blocked c ↔ s.pc u = .blocked c := by
  by_cases hu : u = t
  · subst hu
    have hself : (s.setPc u p).pc u = p := update_self _ _ _
    rw [hself]
    exact ⟨fun h => absurd h (hp c), fun h => absurd h (ht c)⟩
  · have hne : (s.setPc t p).pc u = s.pc u := update_of_ne hu _ _
    rw [hne]

/-- A task in none of the functions starts a call. -/
theorem Queues.start (h : Queues s) (ht : s.pc t = .idle) (c : Call) :
    Queues (s.setPc t (.trying c false)) := by
  have hblocked := blocked_setPc (s := s) (t := t) (p := .trying c false) (by simp [ht]) (by simp)
  have hwoken : wokenOn (s.setPc t (.trying c false)) = wokenOn s := by
    rw [wokenOn_setPc]
    refine update_eq_self_iff.mpr ?_
    show none = wokenOf (s.pc t)
    rw [ht]
    rfl
  refine ⟨fun k u => ?_, h.nodup, fun k hk => ?_, ?_⟩
  · simp only [hblocked]
    exact h.waiting k u
  · rw [hwoken]
    exact h.pending k hk
  · rw [hwoken]
    exact h.finite

/-- The queues look at the lists, at the values of the semaphores that have waiters, and at
the tasks. -/
theorem Queues.congr {s' : State} (h : Queues s)
    (hwaiters : ∀ j, (s'.sema j).waiters = (s.sema j).waiters)
    (hvalue : ∀ j, (s.sema j).waiters ≠ [] → (s'.sema j).value ≤ (s.sema j).value)
    (hpc : s'.pc = s.pc) : Queues s' := by
  have hwoken : wokenOn s' = wokenOn s := by
    unfold wokenOn
    rw [hpc]
  refine ⟨?_, fun j => ?_, fun j hj => ?_, ?_⟩
  · simp only [hwaiters, hpc]
    exact h.waiting
  · rw [hwaiters]
    exact h.nodup j
  · rw [hwaiters] at hj
    rw [hwoken]
    exact le_trans (hvalue j hj) (h.pending j hj)
  · rw [hwoken]
    exact h.finite

/-- A task at this point is on the list of no semaphore but `k`, and on the way to no other. -/
def Concerns (k : SemaId) (p : Pc) : Prop := ∀ c, p = .blocked c ∨ p = .trying c true → c.sema = k

/-- A task that was woken goes on with its own semaphore. -/
theorem Concerns.wokenOf_ne {j : SemaId} (h : Concerns k p) (hj : j ≠ k) : wokenOf p ≠ some j := by
  unfold wokenOf
  split
  · exact fun heq => hj ((Option.some.inj heq).symm.trans (h _ (.inr rfl)))
  · nofun

section

variable (h : Queues s)

include h

/-- A step of task `t` at semaphore `k` leaves the other semaphores as they are. -/
theorem Queues.set {x : Semaphore} (hold : Concerns k (s.pc t)) (hnew : Concerns k p)
    (hmem : ∀ u, u ∈ x.waiters ↔ ∃ c, update s.pc t p u = .blocked c ∧ c.sema = k)
    (hnodup : x.waiters.Nodup)
    (hpending : x.waiters ≠ [] → x.value ≤ RefCount.count (update (wokenOn s) t (wokenOf p)) k) :
    Queues ((s.setSema k x).setPc t p) := by
  refine ⟨?_, ?_, ?_, ?_⟩
  · refine (forall_update_iff s.sema fun j y => ∀ u, u ∈ y.waiters ↔
      ∃ c, update s.pc t p u = .blocked c ∧ c.sema = j).mpr ⟨hmem, fun j hj u => ?_⟩
    rw [h.waiting j u]
    by_cases hu : u = t
    · subst hu
      rw [update_self]
      constructor
      · exact fun ⟨c, hc, hcj⟩ => absurd (hcj.symm.trans (hold c (.inl hc))) hj
      · exact fun ⟨c, hc, hcj⟩ => absurd (hcj.symm.trans (hnew c (.inl hc))) hj
    · rw [update_of_ne hu]
  · exact (forall_update_iff s.sema fun _ y => y.waiters.Nodup).mpr ⟨hnodup, fun j _ => h.nodup j⟩
  · rw [wokenOn_setPc]
    refine (forall_update_iff s.sema fun j y => y.waiters ≠ [] → y.value ≤
      RefCount.count (update (wokenOn s) t (wokenOf p)) j).mpr ⟨hpending, fun j hj hne => ?_⟩
    have hcount := RefCount.count_update h.finite t (wokenOf p) j
    have hle := h.pending j hne
    have hother : wokenOn s t ≠ some j := hold.wokenOf_ne hj
    simp only [hother, hnew.wokenOf_ne hj, if_false] at hcount
    omega
  · rw [wokenOn_setPc]
    exact h.finite.update t (wokenOf p)

/-- A pass takes a unit. -/
theorem Queues.take (ht : s.pc t = .trying c w) (hk : c.sema = k) (hv : 0 < (s.sema k).value) :
    Queues ((s.setSema k { s.sema k with value := (s.sema k).value - 1 }).setPc t .idle) := by
  have hblocked := blocked_setPc (s := s) (t := t) (p := .idle) (by simp [ht]) (by simp)
  refine h.set ?_ (fun c hc => by simp at hc) (fun u => ?_) (h.nodup k) fun hne => ?_
  · rintro c' (hc | hc) <;> rw [ht] at hc <;> cases hc
    exact hk
  · rw [h.waiting k u]
    simp only [← hblocked]
    rfl
  · -- the unit and, if the task was woken, the task are gone
    have hle := h.pending k hne
    have hcount := RefCount.count_update h.finite t none k
    have hone : (if wokenOn s t = some k then 1 else 0) ≤ 1 := by split <;> omega
    show (s.sema k).value - 1 ≤ RefCount.count (update (wokenOn s) t none) k
    omega

/-- A pass finds no unit, and the task is the last on the list. -/
theorem Queues.block (ht : s.pc t = .trying c w) (hk : c.sema = k) (hv : (s.sema k).value = 0) :
    Queues ((s.setSema k { s.sema k with waiters := (s.sema k).waiters ++ [t] }).setPc t
      (.blocked c)) := by
  have hnot := h.not_mem (t := t) (by simp [ht]) k
  refine h.set ?_ ?_ (fun u => ?_) ?_ fun _ => ?_
  · rintro c' (hc | hc) <;> rw [ht] at hc <;> cases hc
    exact hk
  · rintro c' (hc | hc) <;> cases hc
    exact hk
  · by_cases hu : u = t
    · subst hu
      rw [update_self]
      exact ⟨fun _ => ⟨c, rfl, hk⟩, fun _ => by simp⟩
    · rw [update_of_ne hu, ← h.waiting k u]
      simp [hu]
  · refine List.nodup_append.mpr ⟨h.nodup k, List.nodup_singleton t, ?_⟩
    rintro a ha b hb rfl
    rw [List.mem_singleton.mp hb] at ha
    exact hnot ha
  · show (s.sema k).value ≤ _
    omega

/-- What an up does: with nobody on the list it adds a unit, and otherwise the first
waiter is on its way too. -/
theorem up_cases (k : SemaId) :
    ((s.sema k).waiters = [] ∧
      s.up k = State.setSema { s with ups := update s.ups k (s.ups k + 1) } k
        { value := ((s.sema k).value + 1) % 256, waiters := [] }) ∨
    ∃ w ws c, (s.sema k).waiters = w :: ws ∧ s.pc w = .blocked c ∧ c.sema = k ∧
      s.up k = (State.setSema { s with ups := update s.ups k (s.ups k + 1) } k
        { value := ((s.sema k).value + 1) % 256, waiters := ws }).setPc w (.trying c true) := by
  unfold State.up Semaphore.up
  cases hw : (s.sema k).waiters with
  | nil => exact .inl ⟨rfl, rfl⟩
  | cons w ws =>
    obtain ⟨c, hc, hk⟩ := (h.waiting k w).mp (by simp [hw])
    refine .inr ⟨w, ws, c, rfl, hc, hk, ?_⟩
    simp only [List.head?_cons, List.tail_cons, State.wake]
    have hpc : (State.setSema { s with ups := update s.ups k (s.ups k + 1) } k
      { value := ((s.sema k).value + 1) % 256, waiters := ws }).pc w = .blocked c := hc
    rw [hpc]
    rfl

/-- The first of the queue is woken. -/
theorem Queues.up (k : SemaId) : Queues (s.up k) := by
  obtain ⟨hnil, heq⟩ | ⟨w, ws, c, hw, hpc, hk, heq⟩ := up_cases h k
  · rw [heq]
    refine h.congr ?_ ?_ rfl
    · exact (forall_update_iff s.sema fun j x => x.waiters = (s.sema j).waiters).mpr
        ⟨hnil.symm, fun _ _ => rfl⟩
    · exact (forall_update_iff s.sema fun j x => (s.sema j).waiters ≠ [] →
        x.value ≤ (s.sema j).value).mpr ⟨fun hne => absurd hnil hne, fun _ _ _ => le_rfl⟩
  · rw [heq]
    have hnodup := h.nodup k
    rw [hw, List.nodup_cons] at hnodup
    have hcount := RefCount.count_update h.finite w (some k) k
    have hwas : wokenOn s w = none := by
      show wokenOf (s.pc w) = none
      rw [hpc]
      rfl
    have hset : Queues ((s.setSema k { value := ((s.sema k).value + 1) % 256, waiters := ws }
      ).setPc w
        (.trying c true)) := by
      refine h.set ?_ ?_ (fun u => ?_) hnodup.2 fun _ => ?_
      · rintro c' (hc | hc) <;> rw [hpc] at hc <;> cases hc
        exact hk
      · rintro c' (hc | hc) <;> cases hc
        exact hk
      · by_cases hu : u = w
        · -- the first waiter is on the list no more
          subst hu
          exact ⟨fun hmem => absurd hmem hnodup.1, fun ⟨c', hc', _⟩ => absurd hc' (by simp)⟩
        · rw [update_of_ne hu, ← h.waiting k u, hw]
          simp [hu]
      · -- one unit more, one woken task more
        have hle := h.pending k (by simp [hw])
        rw [hwas] at hcount
        simp only [reduceCtorEq, if_false, if_true] at hcount
        show ((s.sema k).value + 1) % 256 ≤ RefCount.count (update _ w (some c.sema)) k
        rw [hk]
        omega
    exact hset.congr (fun _ => rfl) (fun _ _ => le_rfl) rfl

/-- An up changes the value of its semaphore. -/
theorem up_sema (k j : SemaId) :
    ((s.up k).sema j).value = if j = k then ((s.sema k).value + 1) % 256 else (s.sema j).value := by
  have hset : ∀ ws, (update s.sema k
      { value := ((s.sema k).value + 1) % 256, waiters := ws } j).value
        = if j = k then ((s.sema k).value + 1) % 256 else (s.sema j).value := by
    intro ws
    rw [update_apply]
    split <;> rfl
  obtain ⟨-, heq⟩ | ⟨w, ws, c, -, -, -, heq⟩ := up_cases h k
  · rw [heq]
    exact hset []
  · rw [heq]
    exact hset ws

/-- An up leaves locks and counts of other calls alone. -/
theorem up_frame (k : SemaId) :
    (s.up k).lock = s.lock ∧ (s.up k).depth = s.depth ∧ (s.up k).downs = s.downs ∧
      (s.up k).ups = update s.ups k (s.ups k + 1) := by
  obtain ⟨-, heq⟩ | ⟨w, ws, c, -, -, -, heq⟩ := up_cases h k
  · rw [heq]
    exact ⟨rfl, rfl, rfl, rfl⟩
  · rw [heq]
    exact ⟨rfl, rfl, rfl, rfl⟩

end

end Queues

/-! ### Steps -/

section Steps

variable {v : Nat → Nat} {s s' : State} {t : Task}

/-- The queues do not look at locks and counts. -/
theorem Queues.frame (h : Queues s) (hsema : s'.sema = s.sema) (hpc : s'.pc = s.pc) : Queues s' :=
  h.congr (fun _ => by rw [hsema]) (fun _ _ => by rw [hsema]) hpc

/-- An up on a semaphore that is not at 255. -/
theorem up_counts {k : SemaId} (hq : Queues s) (hlt : ∀ j, (s.sema j).value < 256)
    (hb : ∀ j, (s.sema j).value + s.downs j = initial v j + s.ups j) (hv : (s.sema k).value < 255) :
    (∀ j, ((s.up k).sema j).value < 256) ∧
      ∀ j, ((s.up k).sema j).value + (s.up k).downs j = initial v j + (s.up k).ups j := by
  obtain ⟨-, -, hdowns, hups⟩ := up_frame hq k
  refine ⟨fun j => ?_, fun j => ?_⟩
  · rw [up_sema hq k j]
    split
    · exact Nat.mod_lt _ (by omega)
    · exact hlt j
  · rw [up_sema hq k j, hdowns, hups, update_apply]
    have hj := hb j
    split
    · subst j
      omega
    · exact hj

variable {d : Task → Nat}

/-- The lock `l` and the depths of its tasks change. -/
theorem locks_update {f : Nat → Nat} (hl : LockOk x (f l) d)
    (h : ∀ j, j ≠ l → LockOk (s.lock j) (f j) (s.depth j)) (j : Nat) :
    LockOk (update s.lock l x j) (f j) (update s.depth l d j) := by
  by_cases hj : j = l
  · subst hj
    rw [update_self, update_self]
    exact hl
  · rw [update_of_ne hj, update_of_ne hj]
    exact h j hj

theorem Inv.repeat_update (h : Inv v s) (hx : x.holderRepeatNr < 4294967296) (j : Nat) :
    (update s.lock l x j).holderRepeatNr < 4294967296 :=
  (forall_update_iff s.lock fun _ x => x.holderRepeatNr < 4294967296).mpr
    ⟨hx, fun j _ => h.repeat_lt j⟩ j

/-- A lock that is held, at a depth that only its holder has. -/
theorem lockOk_held {n : Nat} (hn : 0 < n) (hother : ∀ u, u ≠ t → d u = 0) :
    LockOk ⟨some t, n⟩ 0 (update d t n) := by
  refine ⟨nofun, fun u hu => ?_⟩
  cases hu
  refine ⟨rfl, ?_, ?_, fun u hu => ?_⟩
  · rw [update_self]
    exact hn
  · rw [update_self]
  · rw [update_of_ne hu]
    exact hother u hu

section

variable (h : Inv v s)

include h

/-- A task begins a call. -/
theorem Inv.start (ht : s.pc t = .idle) (c : Call) : Inv v (s.setPc t (.trying c false)) :=
  ⟨h.queues.start ht c, h.locks, h.repeat_lt, h.value_lt, h.balance⟩

/-- `sema_up` on a semaphore that is not at 255. -/
theorem Inv.up {k : Nat} (hv : (s.sema (.plain k)).value < 255) : Inv v (s.up (.plain k)) := by
  obtain ⟨hlock, hdepth, -, -⟩ := up_frame h.queues (.plain k)
  obtain ⟨hlt, hb⟩ := up_counts h.queues h.value_lt h.balance hv
  refine ⟨h.queues.up _, fun l => ?_, ?_, hlt, hb⟩
  · rw [hlock, hdepth, up_sema h.queues, if_neg (by simp)]
    exact h.locks l
  · rw [hlock]
    exact h.repeat_lt

section

variable (ht : (s.lock l).holder = some t)

include ht

/-- The holder goes to another level of the lock. -/
theorem Inv.relock {n : Nat} (hn : 0 < n) (hlt : n < 4294967296) :
    Inv v ((s.setDepth l t n).setLock l ⟨some t, n⟩) := by
  obtain ⟨hv, -, -, hother⟩ := (h.locks l).held t ht
  refine ⟨h.queues.frame rfl rfl, ?_, h.repeat_update hlt, h.value_lt, h.balance⟩
  refine locks_update (f := fun j => (s.sema (.ofLock j)).value) ?_ fun j _ => h.locks j
  rw [hv]
  exact lockOk_held hn hother

/-- The holder enters once more. -/
theorem Inv.again (hr : (s.lock l).holderRepeatNr < 4294967295) :
    Inv v ((s.setLock l ⟨some t, ((s.lock l).holderRepeatNr + 1) % 4294967296⟩).setDepth l t
      (s.depth l t + 1)) := by
  obtain ⟨-, -, hnr, -⟩ := (h.locks l).held t ht
  rw [Nat.mod_eq_of_lt (by omega), hnr]
  exact h.relock ht (by omega) (by omega)

/-- The holder leaves one level, and is still inside. -/
theorem Inv.leave (hr : 1 < (s.lock l).holderRepeatNr) :
    Inv v ((s.setDepth l t (s.depth l t - 1)).setLock l
      { holder := some t, holderRepeatNr := (s.lock l).holderRepeatNr - 1 }) := by
  obtain ⟨-, -, hnr, -⟩ := (h.locks l).held t ht
  have hlt := h.repeat_lt l
  rw [hnr] at hr hlt ⊢
  exact h.relock ht (by omega) (by omega)

/-- The holder leaves the lock, and its semaphore gets the unit back. -/
theorem Inv.release (hr : ¬ 1 < (s.lock l).holderRepeatNr) :
    Inv v (((s.setDepth l t (s.depth l t - 1)).setLock l
      { holder := none, holderRepeatNr := 0 }).up (.ofLock l)) := by
  have hq : Queues ((s.setDepth l t (s.depth l t - 1)).setLock l
      { holder := none, holderRepeatNr := 0 }) := h.queues.frame rfl rfl
  obtain ⟨hlock, hdepth, -, -⟩ := up_frame hq (.ofLock l)
  have hsema := up_sema hq (.ofLock l)
  obtain ⟨hv, hpos, hnr, hother⟩ := (h.locks l).held t ht
  have hv' : (((s.setDepth l t (s.depth l t - 1)).setLock l
      { holder := none, holderRepeatNr := 0 }).sema (.ofLock l)).value = 0 := hv
  obtain ⟨hlt, hb⟩ := up_counts hq h.value_lt h.balance (hv'.trans_lt (by decide))
  refine ⟨hq.up _, fun j => ?_, fun j => ?_, hlt, hb⟩
  · rw [hlock, hdepth]
    refine locks_update (s := s) (f := fun j => (State.sema _ (.ofLock j)).value) ?_
      (fun j hj => ?_) j
    · rw [hsema (.ofLock l), if_pos rfl, hv']
      refine ⟨fun _ => ⟨rfl, fun u => ?_⟩, nofun⟩
      by_cases hu : u = t
      · rw [hu, update_self]
        omega
      · rw [update_of_ne hu]
        exact hother u hu
    · rw [hsema (.ofLock j), if_neg (by simpa using hj)]
      exact h.locks j
  · rw [hlock]
    exact h.repeat_update (by decide) j

end

/-- A pass finds no unit. -/
theorem Inv.block (ht : s.pc t = .trying c w) (hv : (s.sema c.sema).value = 0) :
    Inv v ((s.setSema c.sema { s.sema c.sema with
      waiters := (s.sema c.sema).waiters ++ [t] }).setPc t (.blocked c)) := by
  have hvalue : ∀ j, (update s.sema c.sema { s.sema c.sema with
      waiters := (s.sema c.sema).waiters ++ [t] } j).value = (s.sema j).value := by
    exact (forall_update_iff s.sema fun j x => x.value = (s.sema j).value).mpr ⟨rfl, fun _ _ => rfl⟩
  refine ⟨h.queues.block ht rfl hv, fun l => ?_, h.repeat_lt, fun j => ?_, fun j => ?_⟩
  · show LockOk _ (update s.sema c.sema _ (.ofLock l)).value _
    rw [hvalue]
    exact h.locks l
  · show (update s.sema c.sema _ j).value < 256
    rw [hvalue]
    exact h.value_lt j
  · show (update s.sema c.sema _ j).value + _ = _
    rw [hvalue]
    exact h.balance j

/-- A pass takes a unit. For a lock the unit is the permission to enter. -/
theorem Inv.taken (ht : s.pc t = .trying c w) (hv : 0 < (s.sema c.sema).value) :
    Inv v ((s.setSema c.sema { s.sema c.sema with
      value := (s.sema c.sema).value - 1 }).taken t c) := by
  have hq := h.queues.take ht rfl hv
  obtain ⟨sema, hsema⟩ : ∃ f, f = update s.sema c.sema { s.sema c.sema with
      value := (s.sema c.sema).value - 1 } := ⟨_, rfl⟩
  have hvalue : ∀ j, (sema j).value = (s.sema j).value - if j = c.sema then 1 else 0 := by
    rw [hsema]
    refine (forall_update_iff s.sema fun j x =>
      x.value = (s.sema j).value - if j = c.sema then 1 else 0).mpr ⟨?_, fun j hj => ?_⟩
    · rw [if_pos rfl]
    · rw [if_neg hj, Nat.sub_zero]
  have hvalue_lt : ∀ j, (sema j).value < 256 := by
    intro j
    rw [hvalue]
    have := h.value_lt j
    omega
  have hbalance : ∀ j, (sema j).value + update s.downs c.sema (s.downs c.sema + 1) j
      = initial v j + s.ups j := by
    intro j
    have hb := h.balance j
    rw [hvalue]
    by_cases hj : j = c.sema
    · subst hj
      rw [if_pos rfl, update_self]
      omega
    · rw [if_neg hj, update_of_ne hj]
      omega
  subst hsema
  cases c with
  | down k =>
    refine ⟨hq.frame rfl rfl, fun l => ?_, h.repeat_lt, hvalue_lt, hbalance⟩
    have hlock := h.locks l
    exact hlock
  | acquire l =>
    refine ⟨hq.frame rfl rfl, ?_, h.repeat_update (show 1 < 4294967296 by decide), hvalue_lt,
      hbalance⟩
    -- a lock with a unit has no holder
    have hnone : (s.lock l).holder = none := by
      by_contra hne
      obtain ⟨u, hu⟩ := Option.ne_none_iff_exists'.mp hne
      have hv : 0 < (s.sema (.ofLock l)).value := hv
      rw [((h.locks l).held u hu).1] at hv
      omega
    obtain ⟨hone, hzero⟩ := (h.locks l).free hnone
    refine locks_update (f := fun j => (update s.sema (.ofLock l) _ (.ofLock j)).value) ?_
      fun j hj => ?_
    · rw [update_self]
      show LockOk _ ((s.sema (.ofLock l)).value - 1) _
      rw [hone]
      show LockOk _ 0 (update (s.depth l) t (s.depth l t + 1))
      rw [hzero t]
      exact lockOk_held Nat.one_pos fun u _ => hzero u
    · rw [update_of_ne (by simpa using hj)]
      exact h.locks j

/-- Every event keeps the invariant. -/
theorem step_inv {e : Event} (he : NoWrap s e) (hstep : step s e = some s') : Inv v s' := by
  cases e with
  | down t k =>
    simp only [step] at hstep
    split at hstep
    · next ht =>
      cases hstep
      exact h.start ht _
    · cases hstep
  | acquire t l =>
    simp only [step] at hstep
    split at hstep
    · next ht =>
      split at hstep
      · next hl =>
        cases hstep
        exact h.again hl (he hl)
      · cases hstep
        exact h.start ht _
    · cases hstep
  | pass t =>
    simp only [step] at hstep
    split at hstep
    · next c w ht =>
      cases hstep
      unfold Semaphore.pass
      by_cases hv : (s.sema c.sema).value = 0
      · rw [if_pos hv]
        exact h.block ht hv
      · rw [if_neg hv]
        exact h.taken ht (by omega)
    · cases hstep
  | up t k =>
    simp only [step] at hstep
    split at hstep
    · cases hstep
      exact h.up he
    · cases hstep
  | release t l =>
    simp only [step] at hstep
    split at hstep
    · next ht =>
      split at hstep
      · next hr =>
        cases hstep
        exact h.leave ht.2 hr
      · next hr =>
        cases hstep
        exact h.release ht.2 hr
    · cases hstep

/-- After a step that wraps a counter around the state is not consistent. -/
theorem noWrap_of_consistent {e : Event} (hstep : step s e = some s') (hc : Consistent v s') :
    NoWrap s e := by
  cases e with
  | up t k =>
    simp only [step] at hstep
    split at hstep
    · cases hstep
      have hlt := h.value_lt (.plain k)
      by_contra hwrap
      have hfull : (s.sema (.plain k)).value = 255 := by
        have : ¬ (s.sema (.plain k)).value < 255 := hwrap
        omega
      -- the value is 0 after the up: 256 units are lost
      obtain ⟨-, -, hdowns, hups⟩ := up_frame h.queues (.plain k)
      have hb := h.balance (.plain k)
      have hb' := hc.balance (.plain k)
      rw [up_sema h.queues, if_pos rfl, hdowns, hups, update_self, hfull] at hb'
      omega
    · cases hstep
  | acquire t l =>
    intro hl
    simp only [step] at hstep
    split at hstep
    · cases hstep
      have hlt := h.repeat_lt l
      by_contra hwrap
      have hfull : (s.lock l).holderRepeatNr = 4294967295 := by omega
      -- the repeat count is 0, and the task is still inside
      have hnest := hc.nesting l t (by simp [State.setDepth, State.setLock])
      simp only [State.setDepth, State.setLock, update_self, hfull] at hnest
      omega
    · cases hstep
  | down t k => trivial
  | pass t => trivial
  | release t l => trivial

end

/-- It holds at the start. -/
theorem init_inv (v : Nat → Nat) : Inv v (State.init v) := by
  have hwoken : ∀ t, wokenOn (State.init v) t = none := fun _ => rfl
  have hwaiters : ∀ k, ((State.init v).sema k).waiters = [] := by
    intro k
    cases k with
    | plain k => rfl
    | ofLock l => rfl
  refine ⟨⟨fun k t => ?_, fun k => ?_, fun k hk => absurd (hwaiters k) hk, fun k => ?_⟩,
    fun l => ?_,
    fun _ => ?_, fun k => ?_, fun _ => rfl⟩
  · rw [hwaiters k]
    refine ⟨fun hmem => absurd hmem (by simp), ?_⟩
    rintro ⟨c, hc, -⟩
    cases hc
  · rw [hwaiters k]
    exact List.nodup_nil
  · have hempty : RefCount.holders (wokenOn (State.init v)) k = ∅ := by
      ext t
      simp [RefCount.holders, hwoken t]
    rw [hempty]
    exact Set.finite_empty
  · exact ⟨fun _ => ⟨rfl, fun _ => rfl⟩, fun t ht => absurd ht (by simp [State.init])⟩
  · show 0 < 4294967296
    omega
  · cases k with
    | plain k => exact Nat.mod_lt _ (by omega)
    | ofLock l =>
      show 1 < 256
      omega

end Steps

/-! ### Runs -/

/-- All states of a run are consistent exactly when none of its steps wraps a counter
around. -/
theorem sync_consistent_iff (v : Nat → Nat) (es : List Event) (s : State)
    (hrun : run step (State.init v) es = some s) :
    (∀ es', es' <+: es → ∀ u, run step (State.init v) es' = some u → Consistent v u) ↔
      Along step NoWrap (State.init v) es :=
  forall_prefix_iff_along (I := Inv v) (fun _ h => h.consistent)
    (fun _ _ _ _ h he hstep => step_inv h he hstep)
    (fun _ _ _ _ h hstep hc => noWrap_of_consistent h hstep hc) (init_inv v) hrun

/-- Task 1 waits for a lock that task 0 holds twice, and gets it. -/
def handOver : List Event :=
  [.acquire 0 0, .pass 0, .acquire 0 0, .acquire 1 0, .pass 1, .release 0 0, .release 0 0, .pass 1]

/-- A lock is handed from one task to the next. -/
theorem sync_consistent_handOver :
    (∃ s, run step (State.init fun _ => 0) handOver = some s) ∧
      (∀ es', es' <+: handOver → ∀ u, run step (State.init fun _ => 0) es' = some u →
        Consistent (fun _ => 0) u) := by
  obtain ⟨s, hs⟩ : ∃ s, run step (State.init fun _ => 0) handOver = some s := ⟨_, rfl⟩
  refine ⟨⟨s, hs⟩, (sync_consistent_iff (fun _ => 0) handOver s hs).mpr ?_⟩
  refine Along.cons (fun h => absurd h (by decide)) rfl
    (Along.cons trivial rfl (Along.cons ?_ rfl ?_))
  · intro _
    decide
  refine Along.cons (fun h => absurd h (by decide)) rfl (Along.cons trivial rfl ?_)
  exact Along.cons trivial rfl (Along.cons trivial rfl (Along.cons trivial rfl (along_nil _ _ _)))

/-- One up on a semaphore that starts at 255 loses all its units. -/
theorem not_consistent_up_full :
    ∃ s, run step (State.init fun _ => 255) [.up 0 0] = some s ∧ ¬ Consistent (fun _ => 255) s := by
  refine ⟨_, rfl, fun h => ?_⟩
  exact absurd (h.balance (.plain 0)) (by decide)

end CoreZ.Proofs.Sched
