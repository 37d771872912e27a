import CoreZ.Proofs.Mm.Cow.Isolation

/-!
# `CoreZ.Proofs.Mm.Cow.ForkPermissions`: read-only pages behind `fork`

`share_user_space_cow` sets `COW_FLAG` in every present entry, whether the
page was writable or not, and no other bit says which it was.
`page_cow_resolve` then gives `PTE_W` to every page with the flag. So a
page that was read-only before the fork becomes writable with the first
write fault, or the first kernel access for write, in the parent or in the
child (`not_readOnly_fault`).

`fork_readOnly_iff` is exact: behind a fork, in any run in which nobody
asks for write access to the page, the page stays read-only in parent and
child exactly when no step of the run resolves it. A page of the second
gigabyte has one entry in all spaces, so there a step of any process counts
(`Hits`); `fork` itself does not mark such a page.
-/

set_option autoImplicit false

namespace CoreZ.Proofs.Mm.Cow

open CoreZ.Lib
open CoreZ.Mm.Cow

/-! ### The property and its condition -/

/-- The page is not writable in the space. -/
def ReadOnly (a v : Nat) (s : Vm) : Prop := writable (s.pte a v) = false
  deriving Decidable

/-- The entry of page `w` in space `b` is that of page `v` in space `a`. -/
def Hits (b w a v : Nat) : Prop := (b = a ∨ sharedPage w = true) ∧ w = v
  deriving Decidable

/-- The step maps a new page there, or is an `mprotect` with `PROT_WRITE`
on it. -/
def Asks (a v : Nat) : CowOp → Prop
  | .getPage b w _ _ | .mapReserved b w _ _ => Hits b w a v
  | .applyProt b w prot => Hits b w a v ∧ prot &&& protWrite ≠ 0
  | _ => False

/-- `page_cow_resolve` finds a frame of the pool's memory, the page
present and marked, and a new frame where it needs one. -/
def Resolvable (s : Vm) (a v : Nat) (val : Pte) (grant : Option Frame) : Prop :=
  inMemory (frameOf val) = true ∧ present (s.pte a v) = true ∧ isCow (s.pte a v) = true ∧
    (1 < s.owner (frameOf val) → ∃ g, grant = some g ∧ 0 < s.pool g)

/-- The step is a write fault or a kernel access for write at the page,
and the page can be resolved. -/
def Resolves (a v : Nat) (s : Vm) : CowOp → Prop
  | .fault b w val grant => Hits b w a v ∧
      (userStart ≤ w ∧ w < userEnd ∧ present val = true ∧ isCow val = true) ∧
      Resolvable s b w val grant
  | .walk b w val grant => Hits b w a v ∧
      (present val = true ∧ isUser val = true ∧ ¬ writable val = true ∧ isCow val = true) ∧
      Resolvable s b w val grant
  | _ => False

/-! ### One entry -/

section Entry

variable {s t : Vm} {a b v w : Nat}

theorem ReadOnly.congr (hs : ReadOnly a v s) (hpte : t.pte = s.pte) : ReadOnly a v t := by
  rw [ReadOnly, hpte]
  exact hs

/-- What space `a` has for page `v` behind a store to the table. -/
theorem pte_setPte_hits {e : Pte} :
    (s.setPte b w e).pte a v = if Hits b w a v then e else s.pte a v := by
  rw [pte_setPte]
  refine if_congr ?_ rfl rfl
  rw [Hits, eq_comm (a := a), eq_comm (a := v)]

/-- A store to the table that gives nothing. -/
theorem ReadOnly.setPte (hs : ReadOnly a v s) (b w : Nat) {e : Pte} (he : writable e = false) :
    ReadOnly a v (s.setPte b w e) := by
  rw [ReadOnly, pte_setPte_hits]
  split
  · exact he
  · exact hs

/-- A store to the table at another page. -/
theorem readOnly_setPte_of_ne {e : Pte} (hne : ¬ Hits b w a v) :
    ReadOnly a v (s.setPte b w e) ↔ ReadOnly a v s := by
  rw [ReadOnly, pte_setPte_hits, if_neg hne, ReadOnly]

theorem not_readOnly_setPte (hhits : Hits b w a v) (e : Pte) :
    ¬ ReadOnly a v (s.setPte b w (e ||| pteW)) := by
  rw [ReadOnly, pte_setPte_hits, if_pos hhits]
  simp [writable, pteW]

theorem pageCowResolve_of_not {val : Pte} {grant : Option Frame}
    (h : ¬ Resolvable s a v val grant) : (pageCowResolve s a v val grant).1 = s := by
  rw [pageCowResolve]
  simp only
  split
  · rfl
  next hmem =>
    split
    · rfl
    next hpres =>
      split
      · rfl
      next hcow =>
        have hneed : ¬ (1 < s.owner (frameOf val) → ∃ g, grant = some g ∧ 0 < s.pool g) :=
          fun hframe => h ⟨not_not.mp hmem, not_not.mp hpres, not_not.mp hcow, hframe⟩
        obtain ⟨hown, hnone⟩ := Classical.not_imp.mp hneed
        rw [if_pos hown]
        -- the frame that is needed cannot be had
        cases grant with
        | none => rfl
        | some g =>
          rw [poolAllocPage, if_neg fun hg => hnone ⟨g, rfl, hg⟩]

/-- What `page_cow_resolve` makes of the page it is called for. -/
theorem readOnly_pageCowResolve {val : Pte} {grant : Option Frame} (hhits : Hits b w a v)
    (hs : ReadOnly a v s) :
    ReadOnly a v (pageCowResolve s b w val grant).1 ↔ ¬ Resolvable s b w val grant := by
  constructor
  · intro hro hres
    obtain ⟨hmem, hpres, hcow, hframe⟩ := hres
    rw [pageCowResolve, if_neg (not_not.mpr hmem), if_neg (not_not.mpr hpres),
      if_neg (not_not.mpr hcow)] at hro
    by_cases hown : s.owner (frameOf val) > 1
    · obtain ⟨g, rfl, hg⟩ := hframe hown
      rw [if_pos hown, poolAllocPage, if_pos hg] at hro
      exact not_readOnly_setPte hhits _ hro
    · rw [if_neg hown] at hro
      exact not_readOnly_setPte hhits _ hro
  · intro hno
    rw [pageCowResolve_of_not hno]
    exact hs

/-- Other pages are left as they are. -/
theorem readOnly_pageCowResolve_of_ne {val : Pte} {grant : Option Frame}
    (hne : ¬ Hits b w a v) (hs : ReadOnly a v s) :
    ReadOnly a v (pageCowResolve s b w val grant).1 := by
  refine pageCowResolve_rule hs (fun _ _ => ⟨fun g _ _ => ?_, fun _ => ?_⟩) grant
  · rw [readOnly_setPte_of_ne hne]
    exact hs.congr rfl
  · rw [readOnly_setPte_of_ne hne]
    exact hs

/-- A call of `page_cow_resolve` behind a check of its caller. -/
theorem readOnly_resolve_if {val : Pte} {grant : Option Frame} (check : Prop) [Decidable check]
    (hs : ReadOnly a v s) :
    ReadOnly a v (if check then (pageCowResolve s b w val grant).1 else s) ↔
      ¬ (Hits b w a v ∧ check ∧ Resolvable s b w val grant) := by
  by_cases hcheck : check
  · rw [if_pos hcheck]
    by_cases hpage : Hits b w a v
    · rw [readOnly_pageCowResolve hpage hs]
      simp [hcheck, hpage]
    · exact ⟨fun _ h => hpage h.1, fun _ => readOnly_pageCowResolve_of_ne hpage hs⟩
  · rw [if_neg hcheck]
    exact ⟨fun _ h => hcheck h.2.1, fun _ => hs⟩

end Entry

/-! ### The functions that do not ask -/

section Functions

variable {s : Vm} {a v : Nat} (hs : ReadOnly a v s)

include hs

theorem ReadOnly.tame {t : Vm} (ht : Tame s t) : ReadOnly a v t := by
  rcases ht.pte a v with heq | hw
  · rw [ReadOnly, heq]
    exact hs
  · exact hw

/-- A page that is mapped elsewhere. -/
theorem ReadOnly.addPage {b w : Nat} (g : Frame) (hne : ¬ Hits b w a v) :
    ReadOnly a v (addPage s b w g) := by
  exact ReadOnly.congr ((readOnly_setPte_of_ne hne).mpr hs) rfl

theorem ReadOnly.applyProt {b w prot : Nat}
    (hask : ¬ (Hits b w a v ∧ prot &&& protWrite ≠ 0)) : ReadOnly a v (applyProt s b w prot) := by
  rw [CoreZ.Mm.Cow.applyProt]
  split
  · by_cases hpage : Hits b w a v
    · have hprot : prot &&& protWrite = 0 := by
        by_contra h
        exact hask ⟨hpage, h⟩
      refine hs.setPte b w ?_
      rw [writable_prot, hprot]
      rfl
    · exact (readOnly_setPte_of_ne hpage).mpr hs
  · exact hs

end Functions

/-! ### One step -/

/-- A step that does not ask for write access gives it exactly when it
resolves the page. -/
theorem cowStep_readOnly {s s' : Vm} {op : CowOp} {a v : Nat} (hask : ¬ Asks a v op)
    (hs : ReadOnly a v s) (hstep : cowStep s op = some s') :
    ReadOnly a v s' ↔ ¬ Resolves a v s op := by
  -- most steps resolve nothing
  have hquiet : ∀ {t : Vm}, ReadOnly a v t → ¬ Resolves a v s op →
      (ReadOnly a v t ↔ ¬ Resolves a v s op) := fun ht hr => ⟨fun _ => hr, fun _ => ht⟩
  rw [cowStep] at hstep
  split at hstep
  · cases hstep
    cases op with
    | create b => exact hquiet (hs.tame (tame_createSpace s b)) not_false
    | fork b c tables => exact hquiet (hs.tame (tame_sysFork s b c tables)) not_false
    | fault b w val grant => exact readOnly_resolve_if _ hs
    | walk b w val grant => exact readOnly_resolve_if _ hs
    | getPage b w grant tables =>
      refine hquiet (getAPage_rule hs (fun g _ _ _ => ?_) grant tables) not_false
      exact ReadOnly.addPage (hs.congr rfl) g hask
    | reserve b w u => exact hquiet (hs.congr rfl) not_false
    | mapReserved b w grant tables =>
      refine hquiet (mapReservedPage_rule hs (fun g _ => ?_) grant tables) not_false
      exact ReadOnly.addPage (hs.congr rfl) g hask
    | applyProt b w prot => exact hquiet (hs.applyProt hask) not_false
    | unmap b w => exact hquiet (hs.tame (tame_freeUserPage s b w)) not_false
    | exit b => exact hquiet (hs.tame (tame_taskReleaseSpace s b)) not_false
    | store b w off x => exact hquiet (hs.tame (tame_store s b w off x)) not_false
  · cases hstep

/-! ### The runs behind a fork -/

/-- The child's page is a marked one, or there is none, or it is the page
of the parent. -/
theorem readOnly_child {s : Vm} {a b v : Nat} (hs : ReadOnly a v s) :
    ReadOnly b v (sysFork s a b true) := by
  have hempty : ReadOnly b v (createSpace s b) := by
    rw [ReadOnly, pte_clear (s := s) (t := createSpace s b) rfl rfl]
    cases hv : sharedPage v with
    | false =>
      rw [if_pos ⟨rfl, rfl⟩]
      decide
    | true =>
      have hsame : s.pte b v = s.pte a v := by
        rw [Vm.pte, Vm.pte, hv]
        rfl
      rw [if_neg fun hc => Bool.false_ne_true hc.2.symm, hsame]
      exact hs
  rw [sysFork, if_pos rfl, shareUserSpaceCow]
  exact List.foldlRecOn (List.range userEnd) _ hempty
    fun t ht w _ => ht.tame (tame_sharePage t a b w)

/-- Behind a fork, in any run without a call that asks for write access
to the page, a page that the parent could not write before stays read-only
in parent and child exactly when no write fault and no kernel access
resolves it. -/
theorem fork_readOnly_iff (s t : Vm) (a b v : Nat) (hro : writable (s.pte a v) = false)
    (ops : List CowOp) (hask : ∀ op ∈ ops, ¬ Asks a v op ∧ ¬ Asks b v op)
    (hrun : run cowStep (sysFork s a b true) ops = some t) :
    (∀ pre, pre <+: ops → ∀ u, run cowStep (sysFork s a b true) pre = some u →
        writable (u.pte a v) = false ∧ writable (u.pte b v) = false) ↔
      Along cowStep (fun u op => ¬ Resolves a v u op ∧ ¬ Resolves b v u op)
        (sysFork s a b true) ops := by
  have hparent : ReadOnly a v (sysFork s a b true) := ReadOnly.tame hro (tame_sysFork s a b true)
  refine along_iff_forall_prefix (I := fun u => ReadOnly a v u ∧ ReadOnly b v u) ?_
    ⟨hparent, readOnly_child hro⟩ hrun
  intro u op u' hop hu hstep
  rw [cowStep_readOnly (hask op hop).1 hu.1 hstep, cowStep_readOnly (hask op hop).2 hu.2 hstep]

/-- A process with one page, which `mprotect` has made read-only. -/
def readPage : Vm := applyProt onePage 1 0x8048 1

/-- The child stores to the page, which faults, and forks. -/
theorem fork_readOnly_iff_store :
    ∃ t, run cowStep (sysFork readPage 1 2 true) [.store 2 0x8048 0 7, .fork 2 3 true] = some t ∧
      writable (t.pte 1 0x8048) = false ∧ writable (t.pte 2 0x8048) = false := by
  obtain ⟨s, -, hfork, -, -, -, hl⟩ :=
    exists_cowStep_fork (s := readPage) (by decide) (by decide)
  have hlive : s.live 2 = true ∧ s.live 3 = false := by
    rw [hl]
    decide
  have h1 : cowStep s (.store 2 0x8048 0 7) = some (store s 2 0x8048 0 7) := if_pos hlive.1
  have hstore : (store s 2 0x8048 0 7).live = s.live := by
    rw [store]
    split <;> rfl
  have h2 : cowStep (store s 2 0x8048 0 7) (.fork 2 3 true)
      = some (sysFork (store s 2 0x8048 0 7) 2 3 true) := by
    rw [cowStep, CowOp.possible, hstore, hlive.1, hlive.2]
    rfl
  have hrun : run cowStep s [.store 2 0x8048 0 7, .fork 2 3 true]
      = some (sysFork (store s 2 0x8048 0 7) 2 3 true) := by
    rw [run_cons_of_eq_some h1, run_cons_of_eq_some h2, run_nil]
  rw [← hfork] at hrun
  have hkept := (fork_readOnly_iff readPage _ 1 2 0x8048 (by decide) _ (by simp [Asks]) hrun).mpr
    ⟨⟨not_false, not_false⟩, fun _ _ => ⟨⟨not_false, not_false⟩, fun _ _ => trivial⟩⟩
  exact ⟨_, hrun, hkept _ (List.prefix_refl _) _ hrun⟩

/-- The page is read-only and no copy-on-write page before the fork. One
write fault of the child makes its page writable. -/
theorem not_readOnly_fault :
    writable (readPage.pte 1 0x8048) = false ∧ isCow (readPage.pte 1 0x8048) = false ∧
      ∃ s t, run cowStep (start true (fun _ => true) fun _ _ => 0)
          [.create 1, .getPage 1 0x8048 (some 0x100) true, .applyProt 1 0x8048 1, .fork 1 2 true]
          = some s ∧
        cowStep s (.fault 2 0x8048 (s.pte 2 0x8048) (some 0x101)) = some t ∧
        writable (t.pte 2 0x8048) = true := by
  refine ⟨by decide, by decide, ?_⟩
  obtain ⟨s, hstep, hfork, -, hs, hpool, hl⟩ :=
    exists_cowStep_fork (s := readPage) (by decide) (by decide)
  have hlive : s.live 2 = true := by
    rw [hl]
    decide
  have hfault : cowStep s (.fault 2 0x8048 (s.pte 2 0x8048) (some 0x101))
      = some (handleCowFault s 2 0x8048 (s.pte 2 0x8048) (some 0x101)) := if_pos hlive
  refine ⟨s, _, ?_, hfault, ?_⟩
  · -- the run to the read-only page, and the fork
    have h3 : cowStep onePage (.applyProt 1 0x8048 1) = some readPage := rfl
    rw [run_cons_of_eq_some cowStep_oneSpace, run_cons_of_eq_some cowStep_onePage,
      run_cons_of_eq_some h3, run_cons_of_eq_some hstep, run_nil]
  · have hro : ReadOnly 2 0x8048 s := hfork ▸ readOnly_child (a := 1) (by decide)
    have hres : Resolves 2 0x8048 s (.fault 2 0x8048 (s.pte 2 0x8048) (some 0x101)) := by
      have hfree : 0 < s.pool 0x101 := by
        rw [hpool]
        decide
      rw [Resolves, Resolvable, hs]
      exact ⟨by decide, by decide, by decide, by decide, by decide, fun _ => ⟨0x101, rfl, hfree⟩⟩
    have hask : ¬ Asks 2 0x8048 (.fault 2 0x8048 (s.pte 2 0x8048) (some 0x101)) := not_false
    by_contra hw
    rw [Bool.not_eq_true] at hw
    exact (cowStep_readOnly hask hro hfault).mp hw hres

end CoreZ.Proofs.Mm.Cow
