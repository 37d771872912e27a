import CoreZ.Proofs.Mm.Cow.Isolation

/-!
# `CoreZ.Proofs.Mm.Cow.WriteXorExec`: no page is writable and executable

`pte_wx` never makes an entry that is both, and every function that writes
a whole entry goes through it. Two write an entry from the flags of an
older one. `page_cow_resolve` adds `PTE_W` to an entry that may be
executable: the copy-on-write page of a program's code. `user_remap_page`
keeps the low twelve bits, and so drops the `PTE_NX` of a writable page.
In runs without these two cases (`NoNewExec`), `WriteXorExec` holds in
every state.

The loaders are sequences of `getPage`, `applyRx` and `store` steps here,
`brk` and the growth of the stack are `getPage` steps.
-/

set_option autoImplicit false

namespace CoreZ.Proofs.Mm.Cow

open CoreZ.Lib
open CoreZ.Mm.Cow

inductive WxOp where
  | page (op : CowOp)
  | applyRx (a v : Nat)
  | remap (a v : Nat) (grant : Option Frame)

def wxStep (s : Vm) : WxOp → Option Vm
  | .page op => cowStep s op
  | .applyRx a v => if s.live a then some (applyRx s a v) else none
  | .remap a v grant => if s.live a then some (userRemapPage s a v grant) else none

/-! ### The property and its condition -/

def WriteXorExec (s : Vm) : Prop :=
  ∀ a v, ¬ (present (s.pte a v) = true ∧ writable (s.pte a v) = true ∧ noExec (s.pte a v) = false)

/-- The entry whose flags `page_cow_resolve` keeps is not executable: the
one its caller has read for a copy, the one it finds for a page that is
claimed. -/
def ResolvesNoExec (s : Vm) (a v : Nat) (val : Pte) : Prop :=
  present (s.pte a v) = true → isCow (s.pte a v) = true →
    if s.owner (frameOf val) > 1 then noExec val = true else noExec (s.pte a v) = true

/-- The condition on one step, at the state before it. -/
def NoNewExec (s : Vm) : WxOp → Prop
  | .page (.fault a v val _) | .page (.walk a v val _) => ResolvesNoExec s a v val
  -- there is no writable page to remap, or no frame to map it to
  | .remap a v grant => present (s.pte a v) = true → writable (s.pte a v) = true →
      poolAllocPage s grant = none
  | _ => True

/-! ### One step -/

/-- A writable entry is not executable. -/
def XorEntry (e : Pte) : Prop := writable e = true → noExec e = true

/-- `PTE_NX` is usable, and all entries are as they should be. -/
structure Strict (s : Vm) : Prop where
  nx : s.nxUsable = true
  entries : ∀ a v, XorEntry (s.pte a v)

/-- The invariant gives the property. -/
theorem Strict.writeXorExec {s : Vm} (h : Strict s) : WriteXorExec s := by
  intro a v hwx
  have := h.entries a v hwx.2.1
  rw [hwx.2.2] at this
  cases this

/-- An entry without write access. -/
theorem xorEntry_of_not_writable {e : Pte} (h : writable e = false) : XorEntry e := by
  intro hw
  rw [h] at hw
  cases hw

/-- What `mprotect` and `apply_rx` store. -/
theorem xorEntry_prot {w x : Bool} {e : Pte} :
    XorEntry ((e &&& offMask) ||| pteWx true (pteP ||| pteU) w x) := by
  intro hw
  rw [writable_prot] at hw
  rw [noExec_prot, hw, Bool.not_true, Bool.and_false]
  rfl

section Functions

variable {s s' : Vm} (h : Strict s)

include h

/-- Steps that give no write access. -/
theorem Strict.tame (ht : Tame s s') : Strict s' := by
  refine ⟨ht.nx.trans h.nx, fun a v => ?_⟩
  rcases ht.pte a v with heq | hw
  · rw [heq]
    exact h.entries a v
  · exact xorEntry_of_not_writable hw

/-- The entries stay. -/
theorem Strict.congr (hpte : s'.pte = s.pte) (hnx : s'.nxUsable = s.nxUsable) : Strict s' :=
  h.tame (tame_of_pte hpte hnx)

/-- A store of a sound entry. -/
theorem Strict.setPte (a v : Nat) {e : Pte} (he : XorEntry e) : Strict (s.setPte a v e) := by
  refine ⟨h.nx, ?_⟩
  intro b w
  rw [pte_setPte]
  split
  · exact he
  · exact h.entries b w

/-- A new page is writable, and not executable. -/
theorem Strict.addPage (a v : Nat) (g : Frame) : Strict (addPage s a v g) := by
  have hfresh : XorEntry (physOf g ||| pteWx s.nxUsable (pteP ||| pteU) true false) := by
    intro _
    rw [h.nx, noExec_phys, noExec_pteWx]
    rfl
  exact (h.setPte a v hfresh).congr rfl rfl

theorem Strict.takeFrame (g : Frame) : Strict (takeFrame s g) := h.congr rfl rfl

/-- By the rule of `get_a_page`. -/
theorem Strict.getAPage (a v : Nat) (grant : Option Frame) (tables : Bool) :
    Strict (getAPage s a v grant tables) := by
  refine getAPage_rule h (fun g _ _ _ => ?_) grant tables
  have hu : Strict (s.setUsed a v true) := h.congr rfl rfl
  exact (hu.takeFrame g).addPage a v g

theorem Strict.mapReservedPage (a v : Nat) (grant : Option Frame) (tables : Bool) :
    Strict (mapReservedPage s a v grant tables) :=
  mapReservedPage_rule h (fun g _ => (h.takeFrame g).addPage a v g) grant tables

/-- Whatever the rights that are asked for. -/
theorem Strict.applyProt (a v prot : Nat) : Strict (applyProt s a v prot) := by
  rw [CoreZ.Mm.Cow.applyProt]
  split
  · refine h.setPte a v ?_
    rw [h.nx]
    exact xorEntry_prot
  · exact h

/-- A page of the image becomes executable, and is not writable any more. -/
theorem Strict.applyRx (a v : Nat) : Strict (applyRx s a v) := by
  rw [CoreZ.Mm.Cow.applyRx]
  split
  · refine h.setPte a v ?_
    rw [h.nx]
    exact xorEntry_prot
  · exact h

/-- A fault gives back write access, so that the page must not be executable. -/
theorem Strict.resolve {a v : Nat} {val : Pte} (hcare : ResolvesNoExec s a v val)
    (grant : Option Frame) : Strict (pageCowResolve s a v val grant).1 := by
  refine pageCowResolve_rule h (fun hpres hcow => ?_) grant
  have hno := hcare hpres hcow
  constructor
  · intro g _ hown
    rw [if_pos hown] at hno
    have hcopy : XorEntry (physOf g ||| (val &&& cowKeep) ||| pteW) := by
      intro _
      rw [noExec_cowCopy]
      exact hno
    exact ((h.takeFrame g).setPte a v hcopy).congr rfl rfl
  · intro hown
    rw [if_neg (by omega)] at hno
    refine h.setPte a v ?_
    intro _
    rw [noExec_cowClaim]
    exact hno

/-- A page that moves loses its NX bit, so that it must not be writable. -/
theorem Strict.userRemapPage {a v : Nat} {grant : Option Frame}
    (hcare : NoNewExec s (.remap a v grant)) : Strict (userRemapPage s a v grant) := by
  rw [CoreZ.Mm.Cow.userRemapPage]
  split
  · exact h
  next hpres =>
    cases halloc : poolAllocPage s grant with
    | none => exact h
    | some r =>
      obtain ⟨t, g⟩ := r
      obtain ⟨-, rfl⟩ := poolAllocPage_eq_some halloc
      -- the page is not writable, and stays so
      have hro : writable (s.pte a v) = false := by
        by_contra hw
        have := hcare (not_not.mp hpres) (Bool.not_eq_false _ ▸ hw)
        rw [halloc] at this
        cases this
      have hset := Strict.setPte (s := (CoreZ.Proofs.Mm.Cow.takeFrame s g).setMem g
        (s.mem (frameOf (s.pte a v)))) (h.congr rfl rfl) a v
        (xorEntry_of_not_writable ((writable_remap g (s.pte a v)).trans hro))
      simp only
      split
      · exact hset.congr rfl rfl
      · exact hset

end Functions

/-! ### Runs -/

/-- Every step, with the condition on faults and moves. -/
theorem wxStep_strict {s s' : Vm} {op : WxOp} (h : Strict s) (hcare : NoNewExec s op)
    (hstep : wxStep s op = some s') : Strict s' := by
  cases op with
  | page op =>
    rw [wxStep, cowStep] at hstep
    split at hstep
    · cases hstep
      cases op with
      | create a => exact h.tame (tame_createSpace s a)
      | fork a b tables => exact h.tame (tame_sysFork s a b tables)
      | fault a v val grant =>
        show Strict (handleCowFault s a v val grant)
        rw [handleCowFault]
        split
        · exact h.resolve hcare grant
        · exact h
      | walk a v val grant =>
        show Strict (userRangeWalk s a v val grant)
        rw [userRangeWalk]
        split
        · exact h.resolve hcare grant
        · exact h
      | getPage a v grant tables => exact h.getAPage a v grant tables
      | reserve a v u => exact h.congr rfl rfl
      | mapReserved a v grant tables => exact h.mapReservedPage a v grant tables
      | applyProt a v prot => exact h.applyProt a v prot
      | unmap a v => exact h.tame (tame_freeUserPage s a v)
      | exit a => exact h.tame (tame_taskReleaseSpace s a)
      | store a v off x => exact h.tame (tame_store s a v off x)
    · cases hstep
  | applyRx a v =>
    rw [wxStep] at hstep
    split at hstep
    · cases hstep
      exact h.applyRx a v
    · cases hstep
  | remap a v grant =>
    rw [wxStep] at hstep
    split at hstep
    · cases hstep
      exact h.userRemapPage hcare
    · cases hstep

/-- With `PTE_NX` usable, no entry is writable and executable in any run
whose faults and remappings meet the condition. -/
theorem write_xor_exec_of_noNewExec (avail : Frame → Bool) (mem : Frame → Nat → Nat)
    (ops : List WxOp) (s : Vm) (hrun : run wxStep (start true avail mem) ops = some s)
    (hcare : Along wxStep NoNewExec (start true avail mem) ops) : WriteXorExec s := by
  have hstart : Strict (start true avail mem) := by
    refine ⟨rfl, fun a v => xorEntry_of_not_writable ?_⟩
    rw [start_pte]
    decide
  have hs : Strict s := run_invariant_of_along
    (fun s op s' h hc hstep => wxStep_strict h hc hstep) ops _ s hstart hcare hrun
  exact hs.writeXorExec

/-- The child writes to a page of data behind `fork`. -/
theorem write_xor_exec_of_noNewExec_sample :
    ∃ s, run wxStep (start true (fun _ => true) fun _ _ => 0)
        [.page (.create 1), .page (.getPage 1 0x8048 (some 0x100) true), .page (.fork 1 2 true),
          .page (.fault 2 0x8048 0x8000000000100205 (some 0x101))] = some s ∧ WriteXorExec s := by
  obtain ⟨s, h3, -, -, hs, -, hl⟩ := exists_cowStep_fork (s := onePage) (by decide) (by decide)
  have hlive : s.live 2 = true := by
    rw [hl]
    decide
  have h4 : wxStep s (.page (.fault 2 0x8048 0x8000000000100205 (some 0x101)))
      = some (handleCowFault s 2 0x8048 0x8000000000100205 (some 0x101)) := if_pos hlive
  refine Reaches.exists (write_xor_exec_of_noNewExec _ _ _ _)
    (.cons trivial cowStep_oneSpace (.cons trivial cowStep_onePage (.cons trivial h3
      (.cons ?_ h4 .nil))))
  intro _ _
  split
  · decide
  · rw [hs]
    decide

/-! ### A write to shared code -/

/-- A process with one page of code. -/
def codePage : Vm := applyRx onePage 1 0x8048

/-- The child writes to a page of code behind `fork`: its copy is writable
and executable. -/
theorem not_write_xor_exec_fault :
    ∃ s, run wxStep (start true (fun _ => true) fun _ _ => 0)
        [.page (.create 1), .page (.getPage 1 0x8048 (some 0x100) true), .applyRx 1 0x8048,
          .page (.fork 1 2 true), .page (.fault 2 0x8048 0x100205 (some 0x101))] = some s ∧
      ¬ WriteXorExec s := by
  have h1 : wxStep (start true (fun _ => true) fun _ _ => 0) (.page (.create 1)) = some oneSpace :=
    rfl
  have h2 : wxStep oneSpace (.page (.getPage 1 0x8048 (some 0x100) true)) = some onePage := rfl
  have h3 : wxStep onePage (.applyRx 1 0x8048) = some codePage := rfl
  obtain ⟨s, hfork, -, -, hs, hpool, hl⟩ :=
    exists_cowStep_fork (s := codePage) (by decide) (by decide)
  have h4 : wxStep codePage (.page (.fork 1 2 true)) = some s := hfork
  have hlive : s.live 2 = true := by
    rw [hl]
    decide
  have h5 : wxStep s (.page (.fault 2 0x8048 0x100205 (some 0x101)))
      = some (handleCowFault s 2 0x8048 0x100205 (some 0x101)) := if_pos hlive
  refine ⟨_, by rw [run_cons_of_eq_some h1, run_cons_of_eq_some h2, run_cons_of_eq_some h3,
    run_cons_of_eq_some h4, run_cons_of_eq_some h5, run_nil], ?_⟩
  intro hwx
  -- the handler has read the entry that is there
  have hval : s.pte 2 0x8048 = 0x100205 := hs.trans (by decide)
  have hfree : 0 < s.pool 0x101 := by
    rw [hpool]
    decide
  have hbad : ∃ e : Pte, (handleCowFault s 2 0x8048 0x100205 (some 0x101)).pte 2 0x8048 = e ∧
      present e = true ∧ writable e = true ∧ noExec e = false := by
    rw [handleCowFault, if_pos (by decide), pageCowResolve, if_neg (by decide), hval,
      if_neg (by decide), if_neg (by decide), poolAllocPage, if_pos hfree]
    split
    · exact ⟨_, setPte_self, by decide, by decide, by decide⟩
    · exact ⟨_, setPte_self, by decide, by decide, by decide⟩
  obtain ⟨e, he, hpwx⟩ := hbad
  rw [← he] at hpwx
  exact hwx 2 0x8048 hpwx

end CoreZ.Proofs.Mm.Cow
