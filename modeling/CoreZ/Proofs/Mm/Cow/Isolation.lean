import CoreZ.Lib.Run
import CoreZ.Proofs.Mm.Cow.Tracked

/-!
# `CoreZ.Proofs.Mm.Cow.Isolation`: no store crosses address spaces

The steps of this system are those of single pages, so that a run is any
interleaving of system calls and faults of any tasks: `sys_mmap` is a
sequence of `unmap`, `reserve`, `mapReserved`, `applyProt` and `store`
steps, `sys_munmap` of `unmap` steps, `sys_mprotect` of `applyProt` steps.

Copy-on-write is meant to keep address spaces apart: a frame that two of
them map is writable in none (`Isolated`), so that no store of one is seen
by the other (`StoreHidden`). It does in every run whose steps are
`Careful`. Four steps break it: `apply_prot` gives `PTE_W` to a page that
is still shared and forgets its `COW_FLAG`, `page_cow_resolve` works on an
entry other than the one its caller has read, `fork` counts a frame
beyond 255, and a page that is mapped in the second gigabyte is mapped,
writable, in every space.
-/

set_option autoImplicit false

namespace CoreZ.Proofs.Mm.Cow

open CoreZ.Lib
open CoreZ.Lib.RefCount
open CoreZ.Mm.Cow
open Function

inductive CowOp where
  | create (a : Nat)
  | fork (a b : Nat) (tables : Bool)
  | fault (a v : Nat) (val : Pte) (grant : Option Frame)
  | walk (a v : Nat) (val : Pte) (grant : Option Frame)
  | getPage (a v : Nat) (grant : Option Frame) (tables : Bool)
  | reserve (a v : Nat) (u : Bool)
  | mapReserved (a v : Nat) (grant : Option Frame) (tables : Bool)
  | applyProt (a v prot : Nat)
  | unmap (a v : Nat)
  | exit (a : Nat)
  | store (a v off x : Nat)

namespace CowOp

/-- The address space of the task that takes the step. -/
def space : CowOp → Nat
  | create a | fork a _ _ | fault a _ _ _ | walk a _ _ _ | getPage a _ _ _ | reserve a _ _
  | mapReserved a _ _ _ | applyProt a _ _ | unmap a _ | exit a | store a _ _ _ => a

/-- The step itself. -/
def apply (s : Vm) : CowOp → Vm
  | create a => createSpace s a
  | fork a b tables => sysFork s a b tables
  | fault a v val grant => handleCowFault s a v val grant
  | walk a v val grant => userRangeWalk s a v val grant
  | getPage a v grant tables => getAPage s a v grant tables
  | reserve a v u => s.setUsed a v u
  | mapReserved a v grant tables => mapReservedPage s a v grant tables
  | applyProt a v prot => Mm.Cow.applyProt s a v prot
  | unmap a v => freeUserPage s a v
  | exit a => taskReleaseSpace s a
  | store a v off x => Mm.Cow.store s a v off x

/-- The spaces exist that the step works on, and new ones do not. -/
def possible (s : Vm) : CowOp → Bool
  | create a => !s.live a
  | fork a b _ => s.live a && !s.live b
  | op => s.live op.space

end CowOp

def cowStep (s : Vm) (op : CowOp) : Option Vm :=
  if op.possible s then some (op.apply s) else none

/-! ### The property and its condition -/

/-- A frame that two spaces map is writable in neither. -/
def Isolated (s : Vm) : Prop :=
  ∀ a v b w, s.live a = true → s.live b = true → a ≠ b →
    present (s.pte a v) = true → present (s.pte b w) = true →
    frameOf (s.pte a v) = frameOf (s.pte b w) →
    writable (s.pte a v) = false ∧ writable (s.pte b w) = false

/-- No store through one space changes what another one reads. -/
def StoreHidden (s : Vm) : Prop :=
  ∀ a v off x b w o, s.live a = true → s.live b = true → a ≠ b →
    load (store s a v off x) b w o = load s b w o

/-- The condition on one step, at the state before it. -/
def Careful (s : Vm) : CowOp → Prop
  -- the page is not one of the gigabyte that the spaces share
  | .getPage _ v _ _ | .mapReserved _ v _ _ => sharedPage v = false
  -- no count is at its limit
  | .fork a _ _ => ∀ v, present (s.pte a v) = true → forkPage v = true →
      s.owner (frameOf (s.pte a v)) ≠ 255
  -- the entry that was read names the frame of the entry that is there
  | .fault a v val _ | .walk a v val _ => present (s.pte a v) = true → isCow (s.pte a v) = true →
      frameOf val = frameOf (s.pte a v)
  -- write access is given to pages of this space alone
  | .applyProt a v prot => prot &&& protWrite ≠ 0 → present (s.pte a v) = true →
      ∀ b w, b ≠ a → present (s.pte b w) = true → frameOf (s.pte b w) ≠ frameOf (s.pte a v)
  | _ => True

/-- A writable entry is the only one of its frame. -/
def Exclusive (s : Vm) : Prop :=
  ∀ x f, slots s x = some f → writable (s.pte x.1 x.2) = true → refs s f ≤ 1

structure Guarded (s : Vm) : Prop where
  tracked : Tracked AtMost s
  exclusive : Exclusive s

variable {f : Frame} {a b v : Nat} {s : Vm}

/-- The invariant gives the property. -/
theorem Guarded.isolated (h : Guarded s) : Isolated s := by
  -- two spaces that map the frame are two references to it
  have key : ∀ a v b w, a ≠ b → present (s.pte a v) = true → present (s.pte b w) = true →
      frameOf (s.pte a v) = frameOf (s.pte b w) → writable (s.pte a v) = false := by
    intro a v b w hab ha hb hf
    by_contra hw
    rw [Bool.not_eq_false] at hw
    have hsa := slots_of_present ha
    have hsb := slots_of_present hb
    have hle := h.exclusive (a, v) _ hsa hw
    rw [← hf] at hsb
    have := eq_of_count_le_one h.tracked.fin hle hsa hsb
    exact hab (Prod.mk.inj this).1
  intro a v b w _ _ hab ha hb hf
  exact ⟨key a v b w hab ha hb hf, key b w a v hab.symm hb ha hf.symm⟩

/-- A store through a writable entry is not seen elsewhere. -/
theorem Isolated.storeHidden (h : Isolated s) : StoreHidden s := by
  intro a v off x b w o hla hlb hab
  rw [store]
  split
  · next hst =>
      have hpte : (s.setMem (frameOf (s.pte a v)) (update (s.mem (frameOf (s.pte a v)))
          off x)).pte = s.pte := rfl
      rw [load, load, hpte]
      by_cases hb : present (s.pte b w) = true
      · -- the page that is read lies in another frame
        have hne : frameOf (s.pte b w) ≠ frameOf (s.pte a v) := by
          intro heq
          have := (h a v b w hla hlb hab hst.1 hb heq.symm).1
          rw [hst.2] at this
          cases this
        rw [if_pos hb, if_pos hb, Vm.setMem]
        simp only
        rw [update_of_ne hne]
      · rw [if_neg hb, if_neg hb]
  · rfl

/-! ### One step -/

section Step

variable {s s' : Vm}

/-- Writable entries were writable before, and have no more company. -/
theorem Exclusive.mono (h : Exclusive s)
    (hpte : ∀ x f, slots s' x = some f → writable (s'.pte x.1 x.2) = true →
      slots s x = some f ∧ writable (s.pte x.1 x.2) = true)
    (hle : ∀ f, refs s' f ≤ refs s f) : Exclusive s' := by
  intro x f hx hw
  obtain ⟨hx, hw⟩ := hpte x f hx hw
  exact le_trans (hle f) (h x f hx hw)

section

variable (h : Guarded s)

include h

/-- The tables are as before. -/
theorem Guarded.congr (hpte : s'.pte = s.pte) (hl : ∀ a, s.live a = true → s'.live a = true)
    (ho : s'.owner = s.owner) (hp : s'.pool = s.pool) : Guarded s' := by
  have hs := slots_congr hpte
  refine ⟨h.tracked.congr ⟨hl, hs, ho, hp⟩, h.exclusive.mono ?_ ?_⟩
  · intro x f hx hw
    rw [hs] at hx
    rw [hpte] at hw
    exact ⟨hx, hw⟩
  · intro f
    rw [refs, refs, hs]

/-- Entries go, the others stay as they are. -/
theorem Guarded.shrink (ht : Tracked AtMost s')
    (hpte : ∀ x : Nat × Nat, s'.pte x.1 x.2 = s.pte x.1 x.2 ∨ s'.pte x.1 x.2 = 0) : Guarded s' := by
  have hsub : ∀ x f, slots s' x = some f → slots s x = some f ∧ s'.pte x.1 x.2 = s.pte x.1 x.2 := by
    intro x f hx
    rcases hpte x with heq | heq
    · rw [slots, heq] at hx
      exact ⟨hx, heq⟩
    · rw [slots, heq, entry_zero] at hx
      cases hx
  refine ⟨ht, h.exclusive.mono ?_ ?_⟩
  · intro x f hx hw
    obtain ⟨hx, heq⟩ := hsub x f hx
    rw [heq] at hw
    exact ⟨hx, hw⟩
  · intro f
    exact count_mono h.tracked.fin fun x hx => (hsub x f hx).1

/-- A frame of the pool gets its first entry. -/
theorem Guarded.map (ht : Tracked AtMost s') {g : Frame} (hg : 0 < s.pool g)
    (hs : slots s' = update (slots s) (a, v) (some g))
    (hpte : ∀ x, x ≠ (a, v) → s'.pte x.1 x.2 = s.pte x.1 x.2) : Guarded s' := by
  refine ⟨ht, ?_⟩
  intro x f hx hw
  have hc := h.tracked.refs_update hs f
  rcases slots_update_cases hs hx with ⟨rfl, hf⟩ | ⟨hxa, hx⟩
  · obtain rfl : g = f := Option.some.inj hf
    have h0 := h.tracked.refs_eq_zero hg
    rw [if_pos rfl] at hc
    omega
  rw [hpte x hxa] at hw
  have hle := h.exclusive x f hx hw
  have hfg : (some g : Option Frame) ≠ some f := by
    intro heq
    rw [(Option.some.inj heq).symm] at hx
    have := (h.tracked.home x g hx).2
    omega
  rw [if_neg hfg] at hc
  omega

/-- A new frame is mapped once. -/
theorem Guarded.addPage (hv : sharedPage v = false) {g : Frame} (hg : 0 < s.pool g)
    (hlive : s.live a = true) :
    Guarded (addPage (takeFrame s g) a v g) := by
  have hs : slots (Mm.Cow.addPage (takeFrame s g) a v g)
      = update (slots s) (a, v) (some g) := by
    rw [slots_addPage _ _ hv]
    rfl
  refine h.map (h.tracked.clobber hv hg hlive hs rfl rfl rfl) hg hs ?_
  intro x hx
  exact setPte_of_ne hv hx

/-- An entry is dropped, and its frame counted down or returned. -/
theorem Guarded.drop (hf : slots s (a, v) = some f) (hpte : s'.pte = (s.setPte a v 0).pte)
    (hl : s'.live = s.live) (ho : s'.owner = (pageFreeOrDecref s f).owner)
    (hp : s'.pool = (pageFreeOrDecref s f).pool) : Guarded s' := by
  have hv := h.tracked.apart a v f hf
  have hs : slots s' = update (slots s) (a, v) none := by
    rw [slots_congr hpte, slots_setPte _ _ hv, entry_zero]
  refine h.shrink (h.tracked.drop atMost_discipline hf hs hl ho hp) ?_
  intro x
  rw [hpte]
  by_cases hx : x = (a, v)
  · right
    rw [hx, setPte_self]
  · left
    exact setPte_of_ne hv hx

/-- `PTE_W` is given to an entry that is alone. -/
theorem Guarded.claim {e : Pte} (hf : slots s (a, v) = some f) (he : entry e = some f)
    (hle : writable e = true → refs s f ≤ 1) : Guarded (s.setPte a v e) := by
  have hv := h.tracked.apart a v f hf
  have hs : slots (s.setPte a v e) = slots s := by
    rw [slots_setPte _ _ hv, he, ← hf, update_eq_self]
  refine ⟨h.tracked.congr ⟨fun _ h => h, hs, rfl, rfl⟩, ?_⟩
  intro x g hx hw
  rw [refs, hs]
  rw [hs] at hx
  by_cases hxa : x = (a, v)
  · subst hxa
    rw [setPte_self] at hw
    obtain rfl : f = g := Option.some.inj (hf.symm.trans hx)
    exact hle hw
  · rw [setPte_of_ne hv hxa] at hw
    exact h.exclusive x g hx hw

end

end Step

/-! ### The functions -/

section Functions

variable {s : Vm} (h : Guarded s)

include h

/-- By the rule of `get_a_page`. -/
theorem Guarded.getAPage (hv : sharedPage v = false) (hlive : s.live a = true)
    (grant : Option Frame) (tables : Bool) :
    Guarded (getAPage s a v grant tables) := by
  refine getAPage_rule h (fun g hg _ _ => ?_) grant tables
  have hu : Guarded (s.setUsed a v true) := h.congr rfl (fun _ h => h) rfl rfl
  exact hu.addPage hv hg hlive

theorem Guarded.mapReservedPage (hv : sharedPage v = false) (hlive : s.live a = true)
    (grant : Option Frame) (tables : Bool) : Guarded (mapReservedPage s a v grant tables) :=
  mapReservedPage_rule h (fun _ hg => h.addPage hv hg hlive) grant tables

/-- By the rule of `free_user_page`. -/
theorem Guarded.freeUserPage (a v : Nat) : Guarded (freeUserPage s a v) := by
  refine freeUserPage_rule h fun f t hf hpte hl ho hp _ _ => ?_
  obtain ⟨h1, h2, -, -⟩ := pageFreeOrDecref_frame
  obtain ⟨h3, h4⟩ := pageFreeOrDecref_congr f ho hp
  exact h.drop hf (h1.trans hpte) (h2.trans hl) h3 h4

/-- Write access is given where the frame is not shared. -/
theorem Guarded.applyProt {prot : Nat} (hcare : Careful s (.applyProt a v prot)) :
    Guarded (applyProt s a v prot) := by
  rw [Mm.Cow.applyProt]
  split
  · next hpres =>
      refine h.claim (slots_of_present hpres) entry_prot ?_
      intro hw
      rw [writable_prot, decide_eq_true_eq] at hw
      -- no other space maps the frame, and this one maps it once
      have hmine : ∀ x, slots s x = some (frameOf (s.pte a v)) → x = (a, v) := by
        rintro ⟨b, w⟩ hx
        obtain ⟨hb, hfb⟩ := slots_present hx
        have hba : b = a := by
          by_contra hne
          exact hcare hw hpres b w hne hb hfb
        subst hba
        rw [h.tracked.alone b w v _ hx (slots_of_present hpres)]
      refine count_le_one h.tracked.fin ?_
      intro j k hj hk
      rw [hmine j hj, hmine k hk]
  · exact h

/-- A fault copies a frame that is shared, and claims back one that is not. -/
theorem Guarded.resolve {val : Pte} (hval : present val = true)
    (hcare : present (s.pte a v) = true → isCow (s.pte a v) = true →
      frameOf val = frameOf (s.pte a v)) (grant : Option Frame) :
    Guarded (pageCowResolve s a v val grant).1 := by
  refine pageCowResolve_rule h (fun hpres hcow => ?_) grant
  have hf := slots_of_present hpres
  rw [← hcare hpres hcow] at hf
  constructor
  · -- the copy
    intro g hg hown
    have hv := h.tracked.apart a v _ hf
    have hs := slots_cowCopy s a hv hval g (s.owner (frameOf val) - 1) (s.mem (frameOf val))
    refine h.map (h.tracked.move atMost_discipline hf hown hg hs rfl rfl rfl) hg hs ?_
    intro x hx
    exact setPte_of_ne hv hx
  · -- the page is claimed: its frame has one entry
    intro hown
    refine h.claim hf ?_ ?_
    · rw [entry_cowClaim]
      exact hf
    · intro _
      rcases h.tracked.counted (frameOf val) with hle | hle
      · exact hle
      · omega

/-- One page is shared. -/
theorem Guarded.sharePage (hab : a ≠ b) (hf : slots s (a, v) = some f) (hbv : slots s (b, v) = none)
    (hb : ∀ w, slots s (b, w) ≠ some f) (hlive : s.live b = true) (hown : s.owner f ≠ 255)
    (hok : forkPage v = true) : Guarded (sharePage a b s v) := by
  obtain ⟨hs, ho, hp, hl, hwa, hwb, hpte⟩ := sharePage_of_present hab hf hok
  refine ⟨h.tracked.share atMost_discipline (forkPage_spec hok).2 hf hbv hb hlive hown hs hl
    ho hp, ?_⟩
  intro x g hx hw
  -- a writable entry is neither of the two
  have hxa : x ≠ (a, v) := by
    rintro rfl
    rw [hwa] at hw
    cases hw
  have hxb : x ≠ (b, v) := by
    rintro rfl
    rw [hwb] at hw
    cases hw
  rw [hpte x hxa hxb] at hw
  rcases slots_update_cases hs hx with ⟨hxb', -⟩ | ⟨-, hx⟩
  · exact absurd hxb' hxb
  have hle := h.exclusive x g hx hw
  have hgf : g ≠ f := by
    rintro rfl
    exact hxa (eq_of_count_le_one h.tracked.fin hle hx hf)
  rw [h.tracked.refs_add hbv hs, if_neg hgf]
  exact hle

/-- A new space maps nothing. -/
theorem Guarded.createSpace (hdead : s.live a = false) : Guarded (createSpace s a) := by
  have hcs := h.tracked.slots_createSpace hdead
  refine ⟨h.tracked.createSpace hdead, h.exclusive.mono ?_ ?_⟩
  · intro x f hx hw
    rw [hcs] at hx
    refine ⟨hx, ?_⟩
    have hxa : x.1 ≠ a := by
      intro hxa
      have := h.tracked.slots_of_dead hdead x.2
      rw [← hxa, hx] at this
      cases this
    rwa [pte_clear (s := s) (t := Mm.Cow.createSpace s a) rfl rfl, if_neg fun hc => hxa hc.1] at hw
  · intro f
    rw [refs, refs, hcs]

/-- By induction over the pages. -/
theorem Guarded.sysFork (hab : a ≠ b) (hdead : s.live b = false) (tables : Bool)
    (hcare : Careful s (.fork a b tables)) : Guarded (sysFork s a b tables) := by
  refine h.tracked.fork_induct hab hdead ?_ h (h.createSpace hdead) hcare
  intro t v f ht hlive _ hf hbv hb hown hok
  exact ht.sharePage hab hf hbv hb hlive hown hok

/-- What is left of a space goes with its PML4. -/
theorem Guarded.freePml4 (a : Nat) : Guarded (freePml4 s a) := by
  have hpte : ∀ x : Nat × Nat, (Mm.Cow.freePml4 s a).pte x.1 x.2 = s.pte x.1 x.2 ∨
      (Mm.Cow.freePml4 s a).pte x.1 x.2 = 0 := by
    intro x
    rw [pte_clear (s := s) (t := Mm.Cow.freePml4 s a) (a := a) rfl rfl]
    split
    · exact Or.inr rfl
    · exact Or.inl rfl
  refine h.shrink (h.tracked.lose ?_ ?_ rfl rfl) hpte
  · intro x f hx
    rcases hpte x with heq | heq
    · rw [slots, heq] at hx
      exact hx
    · rw [slots, heq, entry_zero] at hx
      cases hx
  · intro b v f hf
    have hb : b ≠ a := by
      rintro rfl
      have hclear := pte_clear (s := s) (t := Mm.Cow.freePml4 s b) (a := b) rfl rfl b v
      by_cases hv : sharedPage v = false
      · rw [slots, hclear, if_pos ⟨rfl, hv⟩, entry_zero] at hf
        cases hf
      · rw [slots, hclear, if_neg fun hc => hv hc.2] at hf
        exact hv (h.tracked.apart b v f hf)
    exact if_neg hb

/-- Fewer entries map fewer frames. -/
theorem Guarded.taskReleaseSpace (a : Nat) : Guarded (taskReleaseSpace s a) := by
  have h0 : Guarded { s with bits := fun b => if b = a then 0 else s.bits b } :=
    h.congr rfl (fun _ h => h) rfl rfl
  refine Guarded.freePml4 (release_induct ?_ h0) a
  intro t v f ht hf
  obtain ⟨h1, h2, -, -⟩ := pageFreeOrDecref_frame
  refine ht.drop hf ?_ h2 rfl rfl
  funext b w
  rw [pte_setPte, pte_setPte, h1]

end Functions

/-! ### Runs -/

/-- Every careful step keeps the invariant. -/
theorem cowStep_guarded {s' : Vm} {op : CowOp} (h : Guarded s) (hcare : Careful s op)
    (hstep : cowStep s op = some s') : Guarded s' := by
  rw [cowStep] at hstep
  split at hstep
  · next hposs =>
      cases hstep
      cases op with
      | create a =>
        have hdead : s.live a = false := by simpa [CowOp.possible] using hposs
        exact h.createSpace hdead
      | fork a b tables =>
        obtain ⟨hab, hdead⟩ := fork_spaces hposs
        exact h.sysFork hab hdead tables hcare
      -- a fault and a walk resolve a copy in the same way
      | fault a v val grant =>
        show Guarded (handleCowFault s a v val grant)
        rw [handleCowFault]
        split
        · next hc => exact h.resolve hc.2.2.1 hcare grant
        · exact h
      | walk a v val grant =>
        show Guarded (userRangeWalk s a v val grant)
        rw [userRangeWalk]
        split
        · next hc => exact h.resolve hc.1 hcare grant
        · exact h
      | getPage a v grant tables => exact h.getAPage hcare hposs grant tables
      | reserve a v u => exact h.congr rfl (fun _ h => h) rfl rfl
      | mapReserved a v grant tables => exact h.mapReservedPage hcare hposs grant tables
      | applyProt a v prot => exact h.applyProt hcare
      | unmap a v => exact h.freeUserPage a v
      | exit a => exact h.taskReleaseSpace a
      | store a v off x =>
        show Guarded (store s a v off x)
        rw [store]
        split
        · exact h.congr rfl (fun _ h => h) rfl rfl
        · exact h
  · cases hstep

/-- In every run of careful steps, no frame of two spaces is writable in
either of them, and no store crosses spaces. -/
theorem isolated_of_careful (nx : Bool) (avail : Frame → Bool) (mem : Frame → Nat → Nat)
    (ops : List CowOp) (s : Vm) (hrun : run cowStep (start nx avail mem) ops = some s)
    (hcare : Along cowStep Careful (start nx avail mem) ops) : Isolated s ∧ StoreHidden s := by
  have hstart : Guarded (start nx avail mem) := by
    refine ⟨tracked_start atMost_discipline, fun x f hf => ?_⟩
    rw [slots_start] at hf
    cases hf
  have hs : Guarded s := run_invariant_of_along
    (fun s op s' h hc hstep => cowStep_guarded h hc hstep) ops _ s hstart hcare hrun
  exact ⟨hs.isolated, hs.isolated.storeHidden⟩

/-! ### A process with one page -/

theorem cowStep_oneSpace :
    cowStep (start true (fun _ => true) fun _ _ => 0) (.create 1) = some oneSpace := if_pos rfl

theorem cowStep_onePage :
    cowStep oneSpace (.getPage 1 0x8048 (some 0x100) true) = some onePage := if_pos rfl

/-- It forks. -/
theorem exists_cowStep_fork (hpres : present ((createSpace s 2).pte 1 0x8048) = true)
    (hposs : (CowOp.fork 1 2 true).possible s = true) :
    ∃ t, cowStep s (.fork 1 2 true) = some t ∧ sysFork s 1 2 true = t ∧
      t.pte 1 0x8048 = ((createSpace s 2).pte 1 0x8048 &&& ~~~pteW) ||| cowFlag ∧
      t.pte 2 0x8048 = physOf (frameOf ((createSpace s 2).pte 1 0x8048)) |||
        ((createSpace s 2).pte 1 0x8048 &&& cowKeep) ||| cowFlag ∧
      t.pool = s.pool ∧ t.live = (createSpace s 2).live := by
  obtain ⟨t, hfork, ht⟩ := exists_sysFork (by decide) hpres (by decide)
  refine ⟨t, ?_, hfork, ht⟩
  rw [cowStep, if_pos hposs, CowOp.apply, hfork]

/-- Write access before `fork`, a store of the child behind it. -/
theorem isolated_of_careful_sample :
    ∃ s, run cowStep (start true (fun _ => true) fun _ _ => 0)
        [.create 1, .getPage 1 0x8048 (some 0x100) true, .applyProt 1 0x8048 3, .fork 1 2 true,
          .store 2 0x8048 0 7] = some s ∧ Isolated s ∧ StoreHidden s := by
  have h3 : cowStep onePage (.applyProt 1 0x8048 3) = some (applyProt onePage 1 0x8048 3) :=
    if_pos rfl
  obtain ⟨s, h4, -, -, -, -, hl⟩ :=
    exists_cowStep_fork (s := applyProt onePage 1 0x8048 3) (by decide) (by decide)
  have hlive : s.live 2 = true := by
    rw [hl]
    decide
  have h5 : cowStep s (.store 2 0x8048 0 7) = some (store s 2 0x8048 0 7) := if_pos hlive
  refine Reaches.exists (isolated_of_careful _ _ _ _ _) (.cons trivial cowStep_oneSpace
    (.cons rfl cowStep_onePage (.cons ?_ h3 (.cons ?_ h4 (.cons trivial h5 .nil)))))
  · -- no other space has a page
    intro _ _ b w hb hpres
    rw [onePage_pte fun h => hb h.1] at hpres
    cases hpres
  · intro v _ _
    show (0 : Nat) ≠ 255
    decide

/-! ### `mprotect` behind `fork` -/

/-- Write access for one of two entries of a frame. -/
theorem not_isolated_applyProt {w prot : Nat} (hv : sharedPage v = false) (hla : s.live a = true)
    (hlb : s.live b = true) (hab : a ≠ b) (ha : slots s (a, v) = some f)
    (hb : slots s (b, w) = some f) (hprot : prot &&& protWrite ≠ 0) :
    ¬ Isolated (applyProt s a v prot) := by
  intro hiso
  obtain ⟨hpa, hfa⟩ := slots_present ha
  obtain ⟨hpb, hfb⟩ := slots_present hb
  rw [applyProt, if_pos hpa] at hiso
  obtain ⟨hpres, hframe⟩ := entry_eq_some.mp entry_prot
  have hne : (b, w) ≠ (a, v) := fun h => hab (Prod.mk.inj h).1.symm
  have hw := hiso a v b w hla hlb hab
  rw [setPte_self, setPte_of_ne hv hne] at hw
  have hno := (hw hpres hpb (by rw [hframe, hfa, hfb])).1
  rw [writable_prot, decide_eq_true hprot] at hno
  cases hno

/-- The parent calls `mprotect(0x8048000, 4096, PROT_READ | PROT_WRITE)`
behind `fork`: the shared frame is writable. -/
theorem not_isolated_mprotect :
    ∃ pages s, sysMprotect 0x8048000 0x1000 3 = .ok pages ∧
      run cowStep (start true (fun _ => true) fun _ _ => 0)
        ([.create 1, .getPage 1 0x8048 (some 0x100) true, .fork 1 2 true] ++
          pages.map fun v => .applyProt 1 v 3) = some s ∧ ¬ Isolated s := by
  have hpages : sysMprotect 0x8048000 0x1000 3 = .ok [0x8048] := by decide
  obtain ⟨s, h3, -, hs1, hs2, -, hl⟩ := exists_cowStep_fork (s := onePage) (by decide) (by decide)
  have hlive : s.live 1 = true ∧ s.live 2 = true := by
    rw [hl]
    decide
  have h4 : cowStep s (.applyProt 1 0x8048 3) = some (applyProt s 1 0x8048 3) := if_pos hlive.1
  refine ⟨[0x8048], applyProt s 1 0x8048 3, hpages, ?_, ?_⟩
  · show run cowStep _ [.create 1, .getPage 1 0x8048 (some 0x100) true, .fork 1 2 true,
      .applyProt 1 0x8048 3] = _
    rw [run_cons_of_eq_some cowStep_oneSpace, run_cons_of_eq_some cowStep_onePage,
      run_cons_of_eq_some h3, run_cons_of_eq_some h4, run_nil]
  · exact not_isolated_applyProt (f := 0x100) (by decide) hlive.1 hlive.2 (by decide)
      ((slots_of_pte hs1).trans (by decide))
      ((slots_of_pte hs2).trans (by decide)) (by decide)

end CoreZ.Proofs.Mm.Cow
