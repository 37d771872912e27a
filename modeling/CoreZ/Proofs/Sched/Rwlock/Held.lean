import Mathlib.Data.List.Count
import Mathlib.Data.List.Nodup
import Mathlib.Tactic.Ring
import CoreZ.Lib.Run
import CoreZ.Lib.Permit
import CoreZ.Sched.Rwlock

/-!
# `CoreZ.Proofs.Sched.Rwlock.Held`: who has which semaphore of the lock

The three semaphores are used as mutexes, so each is 1 and free or 0 and had by one
(`CoreZ.Lib.Permit`). Who that is can be read off the points at which the tasks are: the
gate is had by a task inside a call or by the writer, `rmutex` by a task inside a call,
and `wlock` by the writer, by a task in `rwlock_write_release`, or by the readers as a
group. `Held` says this together with what `readers` counts, and each kind of step has a
lemma that keeps it.
-/

set_option autoImplicit false

namespace CoreZ.Proofs.Sched.Rwlock

open CoreZ.Lib
open CoreZ.Sched (Task)
open CoreZ.Sched.Rwlock

/-! ### The lock without its queues

A pass that blocks changes none of what `View` keeps, so exclusion can be shown here. -/

structure View where
  value : SemaName → Nat
  readers : Nat
  point : Task → Point
  reading : List Task
  writing : List Task

def view (s : State) : View where
  value k := (s.sema k).value
  readers := s.readers
  point := s.point
  reading := s.reading
  writing := s.writing

def View.goto (v : View) (t : Task) (p : Point) : View :=
  { v with point := Function.update v.point t p }

def View.set (v : View) (k : SemaName) (n : Nat) : View :=
  { v with value := Function.update v.value k n }

/-! ### Who has which semaphore -/

/-- The task has taken the gate in its call. -/
def hasGate : Point → Bool
  | .rdMutex | .rdCount | .rdWlock | .rdUpMutex | .rdUpGate => true
  | .wrWlock | .wrUpWlock | .wrUpGate => true
  | _ => false

def hasMutex : Point → Bool
  | .rdCount | .rdWlock | .rdUpMutex => true
  | .relCount | .relUpWlock | .relUpMutex => true
  | _ => false

/-- The task is counted in `readers`, though it is inside a call. -/
def counted : Point → Bool
  | .rdWlock | .rdUpMutex | .rdUpGate | .relMutex | .relCount => true
  | _ => false

/-- The gate belongs to a task inside a call, or to the writer. -/
def GateHolder (v : View) : Task ⊕ Task → Prop
  | .inl t => hasGate (v.point t) = true
  | .inr t => t ∈ v.writing

def MutexHolder (v : View) (t : Task) : Prop := hasMutex (v.point t) = true

/-- The readers as a group have `wlock`: from the pass of the first one to the up of the
last one. -/
def GroupHolds (v : View) (group : List Task) : Prop :=
  (group ≠ [] ∧ ∀ t, v.point t ≠ .rdWlock) ∨ ∃ t, v.point t = .relUpWlock

/-- `wlock` belongs to the readers, to a task in `rwlock_write_release` or to the writer. -/
def WlockHolder (v : View) (group : List Task) : Option (Task ⊕ Task) → Prop
  | none => GroupHolds v group
  | some (.inl t) => v.point t = .wrUpWlock
  | some (.inr t) => t ∈ v.writing

/-- The invariant. `group` are the tasks that `readers` counts. -/
structure Held (v : View) (group : List Task) : Prop where
  gate : Permit (v.value .gate) (GateHolder v)
  rmutex : Permit (v.value .rmutex) (MutexHolder v)
  wlock : Permit (v.value .wlock) (WlockHolder v group)
  readers : v.readers = group.length
  small : v.readers < 4294967296
  count : ∀ t, group.count t = v.reading.count t + (counted (v.point t)).toNat
  entering : ∀ t, v.point t = .rdWlock → group.length = 1
  leaving : ∀ t, v.point t = .relUpWlock → group = []
  nodup : v.writing.Nodup

section Holders

variable {v : View} {t : Task} {p : Point} {group : List Task}

theorem goto_point (u : Task) : (v.goto t p).point u = if u = t then p else v.point u := by
  show Function.update v.point t p u = _
  rw [Function.update_apply]

theorem has_goto (has : Point → Bool) (u : Task) :
    has ((v.goto t p).point u) = if u = t then has p else has (v.point u) := by
  rw [goto_point]
  split <;> rfl

variable {has : Point → Bool}

/-- A move between two places with the same holding. -/
theorem has_goto_same (h : has p = has (v.point t)) (u : Task) :
    has ((v.goto t p).point u) = true ↔ has (v.point u) = true := by
  rw [has_goto has]
  split
  · rename_i hu
    rw [hu, h]
  · exact Iff.rfl

/-- A move that takes. -/
theorem has_goto_take (h : has p = true) (u : Task) :
    has ((v.goto t p).point u) = true ↔ has (v.point u) = true ∨ u = t := by
  rw [has_goto has]
  split
  · rename_i hu
    simp [h, hu]
  · rename_i hu
    simp [hu]

/-- A move that gives up. -/
theorem has_goto_give (h : has p = false) (u : Task) :
    has ((v.goto t p).point u) = true ↔ has (v.point u) = true ∧ u ≠ t := by
  rw [has_goto has]
  split
  · rename_i hu
    simp [h, hu]
  · rename_i hu
    simp [hu]

/-- The holders of the gate after a move that does not concern it. -/
theorem gateHolder_same (h : hasGate p = hasGate (v.point t)) (x : Task ⊕ Task) :
    GateHolder (v.goto t p) x ↔ GateHolder v x := by
  cases x with
  | inl u => exact has_goto_same h u
  | inr u => exact Iff.rfl

theorem gateHolder_take (h : hasGate p = true) (x : Task ⊕ Task) :
    GateHolder (v.goto t p) x ↔ GateHolder v x ∨ x = .inl t := by
  cases x with
  | inl u =>
    rw [Sum.inl.injEq]
    exact has_goto_take h u
  | inr u => exact ⟨Or.inl, fun h => h.resolve_right (by simp)⟩

theorem gateHolder_give (h : hasGate p = false) (x : Task ⊕ Task) :
    GateHolder (v.goto t p) x ↔ GateHolder v x ∧ x ≠ .inl t := by
  cases x with
  | inl u =>
    rw [Ne, Sum.inl.injEq]
    exact has_goto_give h u
  | inr u => exact ⟨fun h => ⟨h, by simp⟩, And.left⟩

/-- The points at which a task has to do with `wlock` on its own or for the readers. -/
def plain : Point → Bool
  | .rdWlock | .relUpWlock | .wrUpWlock => false
  | _ => true

/-- A move between plain places is seen at no other place. -/
theorem goto_point_of_not_plain {q : Point} (hp : plain p = true) (ht : plain (v.point t) = true)
    (hq : plain q = false) {u : Task} : (v.goto t p).point u = q ↔ v.point u = q := by
  rw [goto_point]
  split
  · rename_i hu
    subst hu
    constructor
    · rintro rfl
      simp [hp] at hq
    · rintro rfl
      simp [ht] at hq
  · exact Iff.rfl

/-- The holders of the write lock after such a move. -/
theorem wlockHolder_same (hp : plain p = true) (ht : plain (v.point t) = true)
    (x : Option (Task ⊕ Task)) :
    WlockHolder (v.goto t p) group x ↔ WlockHolder v group x := by
  rcases x with _ | u | u
  · show GroupHolds _ _ ↔ GroupHolds _ _
    simp [GroupHolds, goto_point_of_not_plain hp ht (q := .rdWlock) rfl,
      goto_point_of_not_plain hp ht (q := .relUpWlock) rfl]
  · exact goto_point_of_not_plain hp ht rfl
  · exact Iff.rfl

end Holders

/-! ### What follows from the invariant -/

section Held

variable {v : View} {t u : Task} {p : Point} {group : List Task}

/-- Whoever is in the part of the code that has the mutex is there alone. -/
theorem Held.alone (h : Held v group) (ht : hasMutex (v.point t) = true)
    (hu : hasMutex (v.point u) = true) : u = t :=
  h.rmutex.unique u t hu ht

/-- While the first reader is at `wlock`, nobody has it. -/
theorem Held.wlock_free (h : Held v group) (ht : v.point t = .rdWlock) :
    0 < v.value .wlock := by
  have hgate : GateHolder v (.inl t) := by
    show hasGate (v.point t) = true
    rw [ht]
    rfl
  have hmutex : hasMutex (v.point t) = true := by
    rw [ht]
    rfl
  refine Nat.pos_of_ne_zero fun hzero => ?_
  obtain ⟨x, hx⟩ := h.wlock.held hzero
  rcases x with _ | u | u
  · rcases hx with ⟨-, hnone⟩ | ⟨u, hu⟩
    · exact hnone t ht
    -- the last reader has the mutex, too
    have hut := h.alone hmutex (u := u) (by rw [hu]; rfl)
    rw [hut, ht] at hu
    cases hu
  · have hu : v.point u = .wrUpWlock := hx
    have hut := h.gate.unique (.inl u) (.inl t)
      (by show hasGate (v.point u) = true; rw [hu]; rfl) hgate
    rw [Sum.inl.inj hut, ht] at hu
    cases hu
  · have hut := h.gate.unique (.inr u) (.inl t) hx hgate
    cases hut

/-- While a task holds the lock for writing, nobody else holds it. -/
theorem Held.exclusive (h : Held v group) (ht : t ∈ v.writing) :
    v.reading = [] ∧ ∀ u ∈ v.writing, u = t := by
  refine ⟨?_, fun u hu => ?_⟩
  · have hnot : ¬ GroupHolds v group := by
      intro hgroup
      have := h.wlock.unique none (some (.inr t)) hgroup ht
      cases this
    have hnil : group = [] := by
      refine Classical.byContradiction fun hne => hnot (.inl ⟨hne, fun u hu => ?_⟩)
      have := h.gate.unique (.inl u) (.inr t) (by show hasGate (v.point u) = true; rw [hu]; rfl) ht
      cases this
    refine List.eq_nil_iff_forall_not_mem.mpr fun u hu => ?_
    have hcount := h.count u
    have hpos : 0 < v.reading.count u := List.count_pos_iff.mpr hu
    rw [hnil, List.count_nil] at hcount
    omega
  · exact Sum.inr.inj (h.gate.unique (.inr u) (.inr t) hu ht)

/-! ### The steps -/

/-- The readers that are counted. -/
theorem count_same (has : Point → Bool) (hcount : has p = has (v.point t)) (u : Task) :
    (has ((v.goto t p).point u)).toNat = (has (v.point u)).toNat := by
  rw [has_goto has]
  split
  · rename_i hu
    rw [hu, hcount]
  · rfl

/-- A step that has nothing to do with `wlock`. -/
theorem Held.move {v' : View} (h : Held v group) (hp : plain p = true)
    (ht : plain (v.point t) = true) (hpoint : v'.point = (v.goto t p).point)
    (hwriting : v'.writing = v.writing) (hreaders : v'.readers = v.readers)
    (hwlock : v'.value .wlock = v.value .wlock)
    (hgate : Permit (v'.value .gate) (GateHolder (v.goto t p)))
    (hmutex : Permit (v'.value .rmutex) (MutexHolder (v.goto t p)))
    (hcount : ∀ u, group.count u = v'.reading.count u + (counted ((v.goto t p).point u)).toNat) :
    Held v' group := by
  obtain ⟨value, readers, point, reading, writing⟩ := v'
  subst hpoint hwriting hreaders
  constructor
  · exact hgate
  · exact hmutex
  · have hv : value .wlock = v.value .wlock := hwlock
    show Permit (value .wlock) _
    rw [hv]
    exact h.wlock.congr (wlockHolder_same hp ht)
  · exact h.readers
  · exact h.small
  · exact hcount
  · intro u hu
    exact h.entering u ((goto_point_of_not_plain hp ht rfl).mp hu)
  · intro u hu
    exact h.leaving u ((goto_point_of_not_plain hp ht rfl).mp hu)
  · exact h.nodup

/-- The group of a task that stays counted, or not counted. -/
theorem Held.count_goto (h : Held v group) (hcounted : counted p = counted (v.point t)) (u : Task) :
    group.count u = v.reading.count u + (counted ((v.goto t p).point u)).toNat := by
  rw [count_same counted hcounted]
  exact h.count u

section Plain

variable (h : Held v group) (hp : plain p = true) (ht : plain (v.point t) = true)

include h hp ht

/-- A call begins. -/
theorem Held.begin (hgate : hasGate p = hasGate (v.point t))
    (hmutex : hasMutex p = hasMutex (v.point t)) (hcounted : counted p = counted (v.point t)) :
    Held (v.goto t p) group :=
  h.move hp ht rfl rfl rfl rfl (h.gate.congr (gateHolder_same hgate))
    (h.rmutex.congr (has_goto_same hmutex)) (h.count_goto hcounted)

/-- A task takes the gate. -/
theorem Held.takeGate (hgate : hasGate p = true) (hmutex : hasMutex p = hasMutex (v.point t))
    (hcounted : counted p = counted (v.point t)) (hfree : 0 < v.value .gate) :
    Held ((v.set .gate (v.value .gate - 1)).goto t p) group :=
  h.move hp ht rfl rfl rfl rfl (h.gate.take hfree (gateHolder_take hgate))
    (h.rmutex.congr (has_goto_same hmutex)) (h.count_goto hcounted)

/-- A reader takes the mutex of the count. -/
theorem Held.takeMutex (hgate : hasGate p = hasGate (v.point t)) (hmutex : hasMutex p = true)
    (hcounted : counted p = counted (v.point t)) (hfree : 0 < v.value .rmutex) :
    Held ((v.set .rmutex (v.value .rmutex - 1)).goto t p) group :=
  h.move hp ht rfl rfl rfl rfl (h.gate.congr (gateHolder_same hgate))
    (h.rmutex.take hfree (has_goto_take hmutex)) (h.count_goto hcounted)

/-- And gives it back. -/
theorem Held.giveMutex (hgate : hasGate p = hasGate (v.point t)) (hmutex : hasMutex p = false)
    (hhas : hasMutex (v.point t) = true) (hcounted : counted p = counted (v.point t)) :
    Held ((v.set .rmutex ((v.value .rmutex + 1) % 256)).goto t p) group :=
  h.move hp ht rfl rfl rfl rfl (h.gate.congr (gateHolder_same hgate))
    (h.rmutex.give hhas (has_goto_give hmutex)) (h.count_goto hcounted)

end Plain

section

variable (h : Held v group)

include h

/-- The gate is given back at the end of a call. -/
theorem Held.giveGate {r : List Task} (ht : plain (v.point t) = true)
    (hhas : hasGate (v.point t) = true) (hmutex : hasMutex (v.point t) = false)
    (hcount : ∀ u, r.count u = v.reading.count u +
      if u = t then (counted (v.point t)).toNat else 0) :
    Held { (v.set .gate ((v.value .gate + 1) % 256)).goto t .idle with reading := r } group := by
  refine h.move (t := t) (p := .idle) rfl ht rfl rfl rfl rfl
    (h.gate.give (a := .inl t) hhas (gateHolder_give rfl))
      (h.rmutex.congr (has_goto_same hmutex.symm))
    fun u => ?_
  rw [hcount u, has_goto counted, h.count u]
  split
  · rename_i hu
    rw [hu]
    rfl
  · rfl

/-- A reader begins its release; it stays counted. -/
theorem Held.beginRelease (ht : v.point t = .idle) (hmem : t ∈ v.reading) :
    Held ({ v with reading := v.reading.erase t }.goto t .relMutex) group := by
  refine h.move (t := t) (p := .relMutex) rfl (by rw [ht]; rfl) rfl rfl rfl rfl
    (h.gate.congr (gateHolder_same (by rw [ht]; rfl)))
    (h.rmutex.congr (has_goto_same (by rw [ht]; rfl))) fun u => ?_
  show _ = (v.reading.erase t).count u + _
  have hu := h.count u
  rw [has_goto counted, List.count_erase]
  by_cases hut : u = t
  · have hpos : 0 < v.reading.count t := List.count_pos_iff.mpr hmem
    rw [hut] at hu ⊢
    rw [ht] at hu
    rw [hu]
    simp [counted]
    omega
  · simp [hut, Ne.symm hut, hu]

/-- While a task that has the mutex is at another point, no task is at these two. -/
theorem Held.nobody {q : Point} (ht : hasMutex (v.point t) = true) (hq : hasMutex q = true)
    (hne : v.point t ≠ q) (u : Task) : v.point u ≠ q := by
  intro hu
  have hut := h.alone ht (u := u) (by rw [hu]; exact hq)
  rw [hut] at hu
  exact hne hu

/-- A step inside the mutex after which `readers` counts others. Nobody is at the points of
the first and of the last reader, so only the task itself can be there afterwards. -/
theorem Held.recount {n : Nat} {group' : List Task} (hmutex : hasMutex (v.point t) = true)
    (ht : plain (v.point t) = true) (hgate : hasGate p = hasGate (v.point t))
    (hp : hasMutex p = true) (hn : n = group'.length) (hsmall : n < 4294967296)
    (hcount : ∀ u, group'.count u = v.reading.count u + (counted ((v.goto t p).point u)).toNat)
    (hgroup : (group' ≠ [] ∧ p ≠ .rdWlock) ∨ p = .relUpWlock ↔ group ≠ [])
    (hfirst : p = .rdWlock → group'.length = 1) (hlast : p = .relUpWlock → group' = []) :
    Held ({ v with readers := n }.goto t p) group' := by
  have hnoFirst := h.nobody hmutex (q := .rdWlock) rfl (fun he => by simp [he, plain] at ht)
  have hnoLast := h.nobody hmutex (q := .relUpWlock) rfl (fun he => by simp [he, plain] at ht)
  constructor
  · exact h.gate.congr (gateHolder_same (v := v) hgate)
  · exact h.rmutex.congr (has_goto_same (v := v) (hp.trans hmutex.symm))
  · refine h.wlock.congr ?_
    rintro (_ | u | u)
    · show GroupHolds _ _ ↔ GroupHolds _ _
      simp only [GroupHolds, goto_point]
      grind
    · simp only [WlockHolder, goto_point]
      grind [plain, hasMutex]
    · exact Iff.rfl
  · exact hn
  · exact hsmall
  · exact hcount
  · intro u hu
    rw [goto_point] at hu
    grind
  · intro u hu
    rw [goto_point] at hu
    grind
  · exact h.nodup

/-- The reader is counted. It is the first one if nobody was. -/
theorem Held.countIn (ht : v.point t = .rdCount) (hsmall : v.readers + 1 < 4294967296) :
    Held ({ v with readers := v.readers + 1 }.goto t
      (if v.readers + 1 = 1 then .rdWlock else .rdUpMutex)) (t :: group) := by
  have hfirst : v.readers + 1 = 1 ↔ group = [] := by
    rw [h.readers, ← List.length_eq_zero_iff]
    omega
  rw [if_congr hfirst rfl rfl]
  refine h.recount (by rw [ht]; rfl) (by rw [ht]; rfl) (by rw [ht]; split <;> rfl)
    (by split <;> rfl) (by rw [h.readers, List.length_cons]) hsmall (fun u => ?_) ?_ ?_ ?_
  · have hu := h.count u
    rw [has_goto counted, List.count_cons]
    grind [counted]
  all_goals grind

/-- The reader is not counted any more. It was the last one if nobody is left. -/
theorem Held.countOut (ht : v.point t = .relCount) :
    Held ({ v with readers := v.readers - 1 }.goto t
      (if v.readers - 1 = 0 then .relUpWlock else .relUpMutex)) (group.erase t) := by
  have hmem : t ∈ group := by
    refine List.count_pos_iff.mp ?_
    rw [h.count t, ht]
    exact Nat.succ_pos _
  have hlen : v.readers - 1 = (group.erase t).length := by
    rw [h.readers, List.length_erase_of_mem hmem]
  have hlast : v.readers - 1 = 0 ↔ group.erase t = [] := by
    rw [hlen, List.length_eq_zero_iff]
  rw [if_congr hlast rfl rfl]
  refine h.recount (by rw [ht]; rfl) (by rw [ht]; rfl) (by rw [ht]; split <;> rfl)
    (by split <;> rfl) hlen (lt_of_le_of_lt (Nat.sub_le _ _) h.small) (fun u => ?_) ?_ ?_ ?_
  · have hu := h.count u
    rw [has_goto counted, List.count_erase]
    grind [counted]
  all_goals grind

/-- A step at `wlock` by a task that keeps the mutex or does without it. -/
theorem Held.atWlock {n : Nat} {w : List Task} (hmutex : hasMutex p = hasMutex (v.point t))
    (hcounted : counted p = counted (v.point t))
    (hgate : Permit (v.value .gate) (GateHolder { v.goto t p with writing := w }))
    (hwlock : Permit n (WlockHolder { v.goto t p with writing := w } group))
    (hentering : ∀ u, (v.goto t p).point u = .rdWlock → group.length = 1)
    (hleaving : ∀ u, (v.goto t p).point u = .relUpWlock → group = []) (hnodup : w.Nodup) :
    Held { (v.set .wlock n).goto t p with writing := w } group where
  gate := hgate
  rmutex := h.rmutex.congr (has_goto_same (v := v) hmutex)
  wlock := hwlock
  readers := h.readers
  small := h.small
  count := h.count_goto hcounted
  entering := hentering
  leaving := hleaving
  nodup := hnodup

/-- The first reader takes `wlock` for all of them. -/
theorem Held.takeForGroup (ht : v.point t = .rdWlock) :
    Held ((v.set .wlock (v.value .wlock - 1)).goto t .rdUpMutex) group := by
  have hmutex : hasMutex (v.point t) = true := by rw [ht]; rfl
  have hnoLast := h.nobody hmutex (q := .relUpWlock) rfl (by simp [ht])
  have honly : ∀ u, v.point u = .rdWlock → u = t := fun u hu => h.alone hmutex (by rw [hu]; rfl)
  have hlen := h.entering t ht
  refine h.atWlock (by rw [ht]; rfl) (by rw [ht]; rfl) (h.gate.congr (gateHolder_same ?_))
    (h.wlock.take (a := none) (h.wlock_free ht) ?_) (fun _ _ => hlen) (fun u hu => ?_) h.nodup
  · rw [ht]
    rfl
  · rintro (_ | u | u)
    · have hne : group ≠ [] := by
        rintro rfl
        cases hlen
      refine ⟨fun _ => .inr rfl, fun _ => .inl ⟨hne, fun u hu => ?_⟩⟩
      rw [goto_point] at hu
      grind
    · simp only [WlockHolder, goto_point]
      grind
    · simp [WlockHolder, View.set]
  · rw [goto_point] at hu
    grind

/-- The last reader gives `wlock` back. -/
theorem Held.giveForGroup (ht : v.point t = .relUpWlock) :
    Held ((v.set .wlock ((v.value .wlock + 1) % 256)).goto t .relUpMutex) group := by
  have hmutex : hasMutex (v.point t) = true := by rw [ht]; rfl
  have hnoFirst := h.nobody hmutex (q := .rdWlock) rfl (by simp [ht])
  have honly : ∀ u, v.point u = .relUpWlock → u = t := fun u hu =>
    h.alone hmutex (by rw [hu]; rfl)
  have hnil := h.leaving t ht
  refine h.atWlock (by rw [ht]; rfl) (by rw [ht]; rfl) (h.gate.congr (gateHolder_same ?_))
    (h.wlock.give (a := none) (.inr ⟨t, ht⟩) ?_) (fun u hu => ?_) (fun _ _ => hnil) h.nodup
  · rw [ht]
    rfl
  · rintro (_ | u | u)
    · simp only [WlockHolder, GroupHolds, goto_point]
      grind
    · simp only [WlockHolder, goto_point]
      grind
    · simp [WlockHolder, View.set]
  · rw [goto_point] at hu
    grind

/-- The writer takes `wlock` and holds the lock. -/
theorem Held.beginWrite (ht : v.point t = .wrWlock) (hfree : 0 < v.value .wlock) :
    Held { (v.set .wlock (v.value .wlock - 1)).goto t .idle with writing := t :: v.writing }
      group := by
  have hgate : GateHolder v (.inl t) := by
    show hasGate (v.point t) = true
    rw [ht]
    rfl
  have hmem : ∀ u, u ∉ v.writing := by
    intro u hu
    have := h.gate.unique (.inl t) (.inr u) hgate hu
    cases this
  have hplain : plain (v.point t) = true := by rw [ht]; rfl
  have hsame : ∀ x, WlockHolder (v.goto t .idle) group x ↔ WlockHolder v group x :=
    wlockHolder_same rfl hplain
  have hpoint : ∀ {q}, plain q = false → ∀ u, (v.goto t .idle).point u = q → v.point u = q :=
    fun hq u => (goto_point_of_not_plain rfl hplain hq).mp
  refine h.atWlock (by rw [ht]; rfl) (by rw [ht]; rfl) (h.gate.handOn (b := .inr t) hgate ?_)
    (h.wlock.take (a := some (.inr t)) hfree ?_) (fun u hu => h.entering u (hpoint rfl u hu))
    (fun u hu => h.leaving u (hpoint rfl u hu)) (List.nodup_cons.mpr ⟨hmem t, h.nodup⟩)
  · -- the gate stays with the task
    rintro (u | u)
    · simp only [GateHolder, View.goto, Function.update_apply]
      grind [hasGate]
    · simp only [GateHolder]
      grind [View.goto]
  · rintro (_ | u | u)
    · exact (hsame none).trans (by simp)
    · exact (hsame (some (.inl u))).trans (by simp)
    · simp only [WlockHolder]
      grind [View.goto]

/-- The writer begins its release: the lock is not held, but the gate and `wlock` still
are. -/
theorem Held.endWrite (ht : v.point t = .idle) (hmem : t ∈ v.writing) :
    Held ({ v with writing := v.writing.erase t }.goto t .wrUpWlock) group := by
  have hmem_erase : ∀ u, u ∈ v.writing.erase t ↔ u ∈ v.writing ∧ u ≠ t := by
    intro u
    rw [h.nodup.mem_erase_iff, and_comm]
  have hstep := h.atWlock (t := t) (p := .wrUpWlock) (n := v.value .wlock) (w := v.writing.erase t)
    (by rw [ht]; rfl) (by rw [ht]; rfl) (h.gate.handOn (a := .inr t) (b := .inl t) hmem ?_)
    (h.wlock.handOn (a := some (.inr t)) (b := some (.inl t)) hmem ?_)
    (fun u hu => h.entering u ?_) (fun u hu => h.leaving u ?_) (h.nodup.erase t)
  · rwa [View.set, Function.update_eq_self] at hstep
  · rintro (u | u)
    · simp only [GateHolder, goto_point]
      grind [hasGate]
    · simp only [GateHolder]
      grind
  · rintro (_ | u | u)
    · simp only [WlockHolder, GroupHolds, goto_point]
      grind
    · simp only [WlockHolder, goto_point]
      grind
    · simp only [WlockHolder]
      grind
  · rw [goto_point] at hu
    grind
  · rw [goto_point] at hu
    grind

/-- The task gives `wlock` back. -/
theorem Held.giveWlock (ht : v.point t = .wrUpWlock) :
    Held ((v.set .wlock ((v.value .wlock + 1) % 256)).goto t .wrUpGate) group := by
  refine h.atWlock (by rw [ht]; rfl) (by rw [ht]; rfl) (h.gate.congr (gateHolder_same ?_))
    (h.wlock.give (a := some (.inl t)) ht ?_) (fun u hu => h.entering u ?_)
    (fun u hu => h.leaving u ?_) h.nodup
  · rw [ht]
    rfl
  · rintro (_ | u | u)
    · simp only [WlockHolder, GroupHolds, goto_point]
      grind
    · simp only [WlockHolder, goto_point]
      grind
    · simp [WlockHolder, View.set]
  · rw [goto_point] at hu
    grind
  · rw [goto_point] at hu
    grind

end

end Held

end CoreZ.Proofs.Sched.Rwlock
