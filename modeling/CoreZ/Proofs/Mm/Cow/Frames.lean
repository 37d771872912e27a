import CoreZ.Lib.Run
import CoreZ.Proofs.Mm.Cow.Tracked

/-!
# `CoreZ.Proofs.Mm.Cow.Frames`: when a frame goes back to the pool

A frame of the pool is out of it while an entry refers to it, and is put
back once, when the last entry goes (`FramesReturned`). `Accounted` is the
invariant behind it: `frame_owner` is exact, every page that is mapped is
in the bitmap of its space, and the pool and the mapped frames together
are the stock the pool was built from.

The steps are `Tidy` when no page of the second gigabyte is mapped,
`page_cow_resolve` sees the entry its caller has read, no count is at its
limit, `user_remap_page` changes nothing, and no process exits with pages.
The last two lose frames always: `user_remap_page` drops a reference
without a word to `frame_owner`, and `task_release_space` detaches the
bitmap that `space_release_ex` looks pages up in. In the second gigabyte
the bitmaps are those of the spaces and the entry is one for all: a second
process that maps the page overwrites the entry of the first.
-/

set_option autoImplicit false

namespace CoreZ.Proofs.Mm.Cow

open CoreZ.Lib
open CoreZ.Lib.RefCount
open CoreZ.Mm.Cow
open Function

inductive FrameOp where
  | create (a : Nat)
  | getPage (a v : Nat) (grant : Option Frame) (tables : Bool)
  | fork (a b : Nat) (tables : Bool)
  | resolve (a v : Nat) (val : Pte) (grant : Option Frame)
  | remap (a v : Nat) (grant : Option Frame)
  | unmap (a v : Nat)
  | teardown (a : Nat)
  | exit (a : Nat)

namespace FrameOp

def apply (s : Vm) : FrameOp → Vm
  | create a => createSpace s a
  | getPage a v grant tables => getAPage s a v grant tables
  | fork a b tables => sysFork s a b tables
  | resolve a v val grant => (pageCowResolve s a v val grant).1
  | remap a v grant => userRemapPage s a v grant
  | unmap a v => freeUserPage s a v
  | teardown a => freeUserSpace s a
  | exit a => taskReleaseSpace s a

/-- The spaces exist that the step works on, and new ones do not. Both
callers of `page_cow_resolve` have read a present copy-on-write entry. -/
def possible (s : Vm) : FrameOp → Bool
  | create a => !s.live a
  | fork a b _ => s.live a && !s.live b
  | resolve a _ val _ => s.live a && present val && isCow val
  | getPage a _ _ _ | remap a _ _ | unmap a _ | teardown a | exit a => s.live a

end FrameOp

def frameStep (s : Vm) (op : FrameOp) : Option Vm :=
  if op.possible s then some (op.apply s) else none

/-! ### The property and its condition -/

/-- A frame that is mapped is not in the pool, and every other frame is in
it as often as at the start. -/
def FramesReturned (avail : Frame → Bool) (s : Vm) : Prop :=
  ∀ f, (∀ a v, present (s.pte a v) = true → frameOf (s.pte a v) = f → s.pool f = 0) ∧
    ((∀ a v, present (s.pte a v) = true → frameOf (s.pte a v) ≠ f) → s.pool f = stock avail f)

/-- The condition on one step, at the state before it. -/
def Tidy (s : Vm) : FrameOp → Prop
  -- the page is not one of the gigabyte that the spaces share
  | .getPage _ v _ _ => sharedPage v = false
  -- no count is at its limit
  | .fork a _ _ => ∀ v, present (s.pte a v) = true → forkPage v = true →
      s.owner (frameOf (s.pte a v)) ≠ 255
  -- the entry that was read names the frame of the entry that is there
  | .resolve a v val _ => present (s.pte a v) = true → isCow (s.pte a v) = true →
      frameOf val = frameOf (s.pte a v)
  -- there is no page to remap, or no frame to map it to
  | .remap a v grant => present (s.pte a v) = true → poolAllocPage s grant = none
  -- the process has unmapped its pages
  | .exit a => ∀ v, present (s.pte a v) = false
  | _ => True

/-! ### The invariant -/

/-- The pool and the frames that are mapped are the stock. -/
def Balanced (avail : Frame → Bool) (s : Vm) : Prop :=
  ∀ f, s.pool f + min (refs s f) 1 = stock avail f

/-- Every page that is mapped is in the bitmap of its space. -/
structure Charted (s : Vm) : Prop where
  bits : ∀ a, s.bits a ≤ bitmapBits
  used : ∀ a v f, slots s (a, v) = some f → inBitmap s a v = true ∧ s.used a v = true

structure Accounted (avail : Frame → Bool) (s : Vm) : Prop where
  tracked : Tracked Exact s
  balanced : Balanced avail s
  charted : Charted s

/-- The invariant gives the property. -/
theorem Accounted.framesReturned {avail : Frame → Bool} {s : Vm} (h : Accounted avail s) :
    FramesReturned avail s := by
  intro f
  refine ⟨?_, ?_⟩
  · intro a v hpres hf
    exact (h.tracked.home (a, v) f (by rw [← hf]; exact slots_of_present hpres)).2
  · intro hnone
    have h0 : refs s f = 0 := by
      refine (count_eq_zero_iff h.tracked.fin).mpr ?_
      rintro ⟨a, v⟩ hx
      obtain ⟨hpres, hf⟩ := slots_present hx
      exact hnone a v hpres hf
    have := h.balanced f
    rw [h0] at this
    exact this

variable {f : Frame} {a v : Nat} {x : Nat × Nat}

section Edits

variable {avail : Frame → Bool} {s s' : Vm}

section

variable (h : Balanced avail s)

include h

/-- The balance is about entries and the pool. -/
theorem Balanced.congr (hs : slots s' = slots s) (hp : s'.pool = s.pool) : Balanced avail s' := by
  intro f
  rw [refs, hs, hp]
  exact h f

/-- A frame leaves the pool for a new entry. -/
theorem Balanced.fresh (ht : Tracked Exact s) {g : Frame} (hg : 0 < s.pool g)
    (hold : slots s x = none) (hs : slots s' = update (slots s) x (some g))
    (hp : s'.pool = update s.pool g (s.pool g - 1)) : Balanced avail s' := by
  intro f
  have hb := h f
  rw [ht.refs_add hold hs, hp, update_apply]
  split
  · next hfg =>
      -- the frame leaves the pool and gets its first entry
      subst hfg
      rw [ht.refs_eq_zero hg] at hb ⊢
      omega
  · exact hb

/-- A frame returns with its last entry. -/
theorem Balanced.drop (ht : Tracked Exact s) {x : Nat × Nat} {f : Frame} (hx : slots s x = some f)
    (hs : slots s' = update (slots s) x none) (hp : s'.pool = (pageFreeOrDecref s f).pool) :
    Balanced avail s' := by
  intro g
  have hb := h g
  have hc := ht.refs_drop hx hs g
  have hexact := ht.counted f
  unfold RefCount.Exact at hexact
  rw [hp, pageFreeOrDecref, if_pos (ht.home x f hx).1]
  by_cases hgf : g = f
  · subst hgf
    rw [if_pos rfl] at hc
    split
    · -- other entries are left
      show s.pool g + min (refs s' g) 1 = stock avail g
      omega
    · -- the last entry is gone, and the frame is back
      show update s.pool g (s.pool g + 1) g + min (refs s' g) 1 = stock avail g
      rw [update_self]
      omega
  · rw [if_neg hgf, add_zero] at hc
    rw [hc]
    split
    · exact hb
    · show update s.pool f (s.pool f + 1) g + min (refs s g) 1 = stock avail g
      rw [update_of_ne hgf]
      exact hb

/-- A second entry for a frame that is mapped. -/
theorem Balanced.share (ht : Tracked Exact s) {y : Nat × Nat} (hx : slots s x = some f)
    (hy : slots s y = none) (hs : slots s' = update (slots s) y (some f)) (hp : s'.pool = s.pool) :
    Balanced avail s' := by
  intro g
  have hb := h g
  rw [ht.refs_add hy hs, hp]
  split
  · next hgf =>
      subst hgf
      have := ht.refs_pos hx
      omega
  · exact hb

end

/-- Fewer pages are mapped, and the bitmap forgets none of the others. -/
theorem Charted.mono (h : Charted s) (hsub : ∀ x f, slots s' x = some f → slots s x = some f)
    (hbits : ∀ a, s'.bits a ≤ bitmapBits)
    (hused : ∀ a v f, slots s' (a, v) = some f → s.used a v = true →
      s'.bits a = s.bits a ∧ s'.used a v = true) : Charted s' := by
  refine ⟨hbits, ?_⟩
  intro a v f hf
  obtain ⟨hbit, hu⟩ := h.used a v f (hsub _ f hf)
  obtain ⟨hb, hu'⟩ := hused a v f hf hu
  refine ⟨?_, hu'⟩
  rw [inBitmap, hb]
  exact hbit

/-- A page comes that is in the bitmap. -/
theorem Charted.add (h : Charted s) {o : Option Frame}
    (hs : slots s' = update (slots s) (a, v) o) (hbits : s'.bits = s.bits)
    (hkeep : ∀ b w, s.used b w = true → s'.used b w = true) (hbit : inBitmap s a v = true)
    (hused : s'.used a v = true) : Charted s' := by
  have hin : ∀ b w, inBitmap s' b w = inBitmap s b w := by
    intro b w
    rw [inBitmap, inBitmap, hbits]
  refine ⟨fun b => by rw [hbits]; exact h.bits b, ?_⟩
  intro b w f hf
  rw [hin]
  rcases slots_update_cases hs hf with ⟨hbw, -⟩ | ⟨-, hf⟩
  · cases hbw
    exact ⟨hbit, hused⟩
  · obtain ⟨hb, hu⟩ := h.used b w f hf
    exact ⟨hb, hkeep b w hu⟩

/-- An entry is dropped, and its frame counted down or returned. -/
theorem Accounted.drop (h : Accounted avail s) (hf : slots s (a, v) = some f)
    (hs : slots s' = update (slots s) (a, v) none) (hl : s'.live = s.live)
    (ho : s'.owner = (pageFreeOrDecref s f).owner) (hp : s'.pool = (pageFreeOrDecref s f).pool)
    (hbits : s'.bits = s.bits) (hused : ∀ b w, (b, w) ≠ (a, v) → s'.used b w = s.used b w) :
    Accounted avail s' := by
  refine ⟨h.tracked.drop exact_discipline hf hs hl ho hp, h.balanced.drop h.tracked hf hs hp,
    h.charted.mono ?_ ?_ ?_⟩
  · exact fun _ _ hx => slots_of_update_none hs hx
  · intro b
    rw [hbits]
    exact h.charted.bits b
  · intro b w g hg hu
    rcases slots_update_cases hs hg with ⟨-, hno⟩ | ⟨hbw, -⟩
    · cases hno
    · exact ⟨by rw [hbits], by rw [hused b w hbw]; exact hu⟩

end Edits

/-! ### The functions -/

section Functions

variable {avail : Frame → Bool} {s : Vm} (h : Accounted avail s)

include h

/-- A new space maps nothing. -/
theorem Accounted.createSpace (hdead : s.live a = false) : Accounted avail (createSpace s a) := by
  have hcs := h.tracked.slots_createSpace hdead
  refine ⟨h.tracked.createSpace hdead, h.balanced.congr hcs rfl, h.charted.mono ?_ ?_ ?_⟩
  · intro x f hx
    rw [hcs] at hx
    exact hx
  · intro b
    simp only [Mm.Cow.createSpace]
    split
    · exact le_rfl
    · exact h.charted.bits b
  · intro b v f hf hu
    have hb : b ≠ a := by
      rintro rfl
      rw [hcs, h.tracked.slots_of_dead hdead v] at hf
      cases hf
    simp only [Mm.Cow.createSpace, if_neg hb]
    exact ⟨trivial, hu⟩

/-- By the rule of `get_a_page`. -/
theorem Accounted.getAPage (hv : sharedPage v = false) (hlive : s.live a = true)
    (grant : Option Frame) (tables : Bool) :
    Accounted avail (getAPage s a v grant tables) := by
  refine getAPage_rule h (fun g hg hbit hfree => ?_) grant tables
  -- the page was not in the bitmap, so nothing was mapped
  have hold : slots s (a, v) = none := by
    cases hf : slots s (a, v) with
    | none => rfl
    | some f =>
      have := (h.charted.used a v f hf).2
      rw [hfree] at this
      cases this
  have hs : slots (addPage (takeFrame (s.setUsed a v true) g) a v g)
      = update (slots s) (a, v) (some g) := by
    rw [slots_addPage _ _ hv]
    rfl
  refine ⟨h.tracked.fresh exact_discipline hv hg hold hlive hs rfl rfl rfl,
    h.balanced.fresh h.tracked hg hold hs rfl, h.charted.add hs rfl ?_ hbit (if_pos ⟨rfl, rfl⟩)⟩
  intro b w hu
  show (if b = a ∧ w = v then true else s.used b w) = true
  rw [hu, ite_self]

/-- By the rule of `free_user_page`. -/
theorem Accounted.freeUserPage (a v : Nat) : Accounted avail (freeUserPage s a v) := by
  refine freeUserPage_rule h fun f t hf hpte hl ho hp hbits hused => ?_
  obtain ⟨h1, h2, h3, h4⟩ := pageFreeOrDecref_frame
  obtain ⟨h5, h6⟩ := pageFreeOrDecref_congr f ho hp
  have hs : slots (pageFreeOrDecref t f) = update (slots s) (a, v) none := by
    rw [slots_congr (h1.trans hpte), slots_setPte _ _ (h.tracked.apart a v f hf), entry_zero]
  refine h.drop hf hs (h2.trans hl) h5 h6 (h4.trans hbits) ?_
  intro b w hbw
  rw [h3]
  exact hused b w hbw

/-- A fault copies the frame, or claims it back. -/
theorem Accounted.resolve {val : Pte} (hval : present val = true)
    (htidy : present (s.pte a v) = true → isCow (s.pte a v) = true →
      frameOf val = frameOf (s.pte a v)) (grant : Option Frame) :
    Accounted avail (pageCowResolve s a v val grant).1 := by
  refine pageCowResolve_rule h (fun hpres hcow => ?_) grant
  have hf := slots_of_present hpres
  rw [← htidy hpres hcow] at hf
  have hv := h.tracked.apart a v _ hf
  obtain ⟨hbit, hused⟩ := h.charted.used a v _ hf
  constructor
  · -- the reference to the old frame is dropped, and the copy mapped
    intro g hg hown
    have hs := slots_cowCopy s a hv hval g (s.owner (frameOf val) - 1) (s.mem (frameOf val))
    refine ⟨h.tracked.move exact_discipline hf hown hg hs rfl rfl rfl, ?_,
      h.charted.add hs rfl (fun _ _ hu => hu) hbit hused⟩
    have hdec : pageFreeOrDecref s (frameOf val)
        = s.setOwner (frameOf val) (s.owner (frameOf val) - 1) := by
      rw [pageFreeOrDecref, if_pos (h.tracked.home _ _ hf).1, if_pos hown]
    have hts : slots ((s.setOwner (frameOf val) (s.owner (frameOf val) - 1)).setPte a v 0)
        = update (slots s) (a, v) none := by
      rw [slots_setPte _ _ hv, entry_zero]
      rfl
    have ht := h.drop hf hts rfl (by rw [hdec]; rfl) (by rw [hdec]; rfl) rfl fun _ _ _ => rfl
    refine ht.balanced.fresh ht.tracked hg ?_ (by rw [hs, hts, update_idem]) rfl
    rw [hts, update_self]
  · -- the page is claimed: it stays where it is
    intro _
    have hs : slots (s.setPte a v ((s.pte a v &&& ~~~cowFlag) ||| pteW)) = slots s := by
      rw [slots_setPte _ _ hv, entry_cowClaim]
      exact update_eq_self (a, v) (slots s)
    refine ⟨h.tracked.congr ⟨fun _ h => h, hs, rfl, rfl⟩, h.balanced.congr hs rfl,
      h.charted.mono ?_ h.charted.bits fun _ _ _ _ hu => ⟨rfl, hu⟩⟩
    intro x f hx
    rw [hs] at hx
    exact hx

/-- One page of a fork. -/
theorem Accounted.sharePage {b : Nat} (hab : a ≠ b) (hf : slots s (a, v) = some f)
    (hbv : slots s (b, v) = none) (hb : ∀ w, slots s (b, w) ≠ some f) (hlive : s.live b = true)
    (hbits : s.bits b = bitmapBits) (hown : s.owner f ≠ 255) (hok : forkPage v = true) :
    Accounted avail (sharePage a b s v) := by
  obtain ⟨hs, ho, hp, hl, -, -, -⟩ := sharePage_of_present hab hf hok
  obtain ⟨hbs, hkeep, hmark⟩ := sharePage_bitmap
  -- the bitmap of the child is no smaller than that of the parent
  have hbit : inBitmap s b v = true := by
    have hin := (h.charted.used a v f hf).1
    have hle := h.charted.bits a
    rw [inBitmap, decide_eq_true_eq] at hin ⊢
    rw [hbits]
    exact ⟨hin.1, lt_of_lt_of_le hin.2 hle⟩
  exact ⟨h.tracked.share exact_discipline (forkPage_spec hok).2 hf hbv hb hlive hown hs hl ho hp,
    h.balanced.share h.tracked hf hbv hs hp,
    h.charted.add hs hbs hkeep hbit (hmark (slots_present hf).1 hok hbit)⟩

/-- By induction over the pages, with a new space for the child. -/
theorem Accounted.sysFork {b : Nat} (hab : a ≠ b) (hdead : s.live b = false) (tables : Bool)
    (htidy : Tidy s (.fork a b tables)) : Accounted avail (sysFork s a b tables) := by
  refine h.tracked.fork_induct hab hdead ?_ h (h.createSpace hdead) htidy
  intro t v f ht hlive hbits hf hbv hb hown hok
  exact ht.sharePage hab hf hbv hb hlive hbits hown hok

/-- The PML4 of a space without pages is returned. -/
theorem Accounted.freePml4 (hnone : ∀ v, slots s (a, v) = none) :
    Accounted avail (freePml4 s a) := by
  have hs : slots (Mm.Cow.freePml4 s a) = slots s := by
    funext ⟨b, w⟩
    have hpte := pte_clear (s := s) (t := Mm.Cow.freePml4 s a) (a := a) rfl rfl b w
    rw [slots, hpte]
    split
    · next hcut => rw [entry_zero, hcut.1, hnone w]
    · rfl
  have hsub : ∀ x f, slots (Mm.Cow.freePml4 s a) x = some f → slots s x = some f := by
    intro x f hx
    rw [hs] at hx
    exact hx
  have hother : ∀ b v f, slots (Mm.Cow.freePml4 s a) (b, v) = some f → b ≠ a := by
    rintro b v f hf rfl
    rw [hs, hnone v] at hf
    cases hf
  refine ⟨h.tracked.shrink hsub ?_ h.tracked.byte (fun f => Or.inl rfl) ?_, h.balanced.congr hs rfl,
    h.charted.mono hsub ?_ ?_⟩
  · intro b v f hf
    exact if_neg (hother b v f hf)
  · intro f
    rw [refs, hs]
    exact h.tracked.counted f
  · intro b
    show (if b = a then 0 else s.bits b) ≤ bitmapBits
    split
    · exact Nat.zero_le _
    · exact h.charted.bits b
  · intro b v f hf hu
    exact ⟨if_neg (hother b v f hf), hu⟩

/-- By induction over the pages. -/
theorem Accounted.freeUserSpace (a : Nat) : Accounted avail (freeUserSpace s a) := by
  have hmid : Accounted avail ((List.range userEnd).foldl (releasePage a) s) := by
    refine release_induct ?_ h
    intro t v f ht hf
    obtain ⟨h1, h2, h3, h4⟩ := pageFreeOrDecref_frame
    refine ht.drop hf ?_ h2 rfl rfl h4 fun b w _ => by rw [Vm.setPte, h3]
    rw [slots_setPte _ _ (ht.tracked.apart a v f hf), entry_zero, slots_congr h1]
  -- the bitmap names every page, so that no page is left
  have hin : ∀ v f, slots s (a, v) = some f → userStart ≤ v ∧ v < userEnd := by
    intro v f hf
    have hbit := (h.charted.used a v f hf).1
    have hle := h.charted.bits a
    have hend : userStart + bitmapBits ≤ userEnd := by decide
    rw [inBitmap, decide_eq_true_eq] at hbit
    omega
  refine hmid.freePml4 ?_
  intro v
  rw [release_slots fun v f hf =>
    ⟨h.tracked.apart a v f hf, (hin v f hf).1, h.charted.used a v f hf⟩]
  split
  · rfl
  next hv =>
    cases hf : slots s (a, v) with
    | none => rfl
    | some f => exact absurd ⟨rfl, List.mem_range.mpr (hin v f hf).2⟩ hv

/-- The space of a process without pages goes. -/
theorem Accounted.taskReleaseSpace (hnone : ∀ v, present (s.pte a v) = false) :
    Accounted avail (taskReleaseSpace s a) := by
  have hslots : ∀ v, slots s (a, v) = none := fun v => entry_of_not_present (hnone v)
  have h0 : Accounted avail { s with bits := fun b => if b = a then 0 else s.bits b } := by
    refine ⟨h.tracked.congr ⟨fun _ h => h, rfl, rfl, rfl⟩, h.balanced.congr rfl rfl,
      h.charted.mono (fun _ _ hx => hx) ?_ ?_⟩
    · intro b
      show (if b = a then 0 else s.bits b) ≤ bitmapBits
      split
      · exact Nat.zero_le _
      · exact h.charted.bits b
    · intro b v f hf hu
      refine ⟨if_neg ?_, hu⟩
      rintro rfl
      exact absurd ((hslots v).symm.trans hf) (by simp)
  rw [Mm.Cow.taskReleaseSpace, spaceReleaseEx, release_none]
  · exact h0.freePml4 hslots
  · intro v hv
    have hpres : present (s.pte a v) = true := hv.1
    rw [hnone v] at hpres
    cases hpres

/-- The new frame takes the place of the old one. -/
theorem Accounted.userRemapPage {grant : Option Frame} (htidy : Tidy s (.remap a v grant)) :
    Accounted avail (userRemapPage s a v grant) := by
  rw [Mm.Cow.userRemapPage]
  split
  · exact h
  · next hpres => rwa [htidy (not_not.mp hpres)]

end Functions

/-! ### Runs -/

/-- At the start all frames are in the pool. -/
theorem accounted_start {nx : Bool} {avail : Frame → Bool} {mem : Frame → Nat → Nat} :
    Accounted avail (start nx avail mem) := by
  refine ⟨tracked_start exact_discipline, ?_, fun _ => Nat.zero_le _, ?_⟩
  · intro f
    rw [refs_start]
    rfl
  · intro a v f hf
    rw [slots_start] at hf
    cases hf

/-- Every tidy step keeps the invariant. -/
theorem frameStep_accounted {avail : Frame → Bool} {s s' : Vm} {op : FrameOp}
    (h : Accounted avail s) (htidy : Tidy s op) (hstep : frameStep s op = some s') :
    Accounted avail s' := by
  rw [frameStep] at hstep
  split at hstep
  · next hposs =>
      cases hstep
      cases op with
      | create a =>
        rw [FrameOp.possible, Bool.not_eq_true'] at hposs
        exact h.createSpace hposs
      | getPage a v grant tables => exact h.getAPage htidy hposs grant tables
      | fork a b tables =>
        obtain ⟨hab, hdead⟩ := fork_spaces hposs
        exact h.sysFork hab hdead tables htidy
      | resolve a v val grant =>
        rw [FrameOp.possible, Bool.and_eq_true_iff, Bool.and_eq_true_iff] at hposs
        exact h.resolve hposs.1.2 htidy grant
      | remap a v grant => exact h.userRemapPage htidy
      | unmap a v => exact h.freeUserPage a v
      | teardown a => exact h.freeUserSpace a
      | exit a => exact h.taskReleaseSpace htidy
  · cases hstep

/-- In every run of tidy steps, the pool holds exactly the frames that no
entry maps, once each. -/
theorem frames_returned_of_tidy (nx : Bool) (avail : Frame → Bool) (mem : Frame → Nat → Nat)
    (ops : List FrameOp) (s : Vm) (hrun : run frameStep (start nx avail mem) ops = some s)
    (htidy : Along frameStep Tidy (start nx avail mem) ops) : FramesReturned avail s := by
  have hs : Accounted avail s := run_invariant_of_along
    (fun s op s' h ht hstep => frameStep_accounted h ht hstep) ops _ s accounted_start
    htidy hrun
  exact hs.framesReturned

theorem frameStep_oneSpace :
    frameStep (start true (fun _ => true) fun _ _ => 0) (.create 1) = some oneSpace := if_pos rfl

theorem frameStep_onePage :
    frameStep oneSpace (.getPage 1 0x8048 (some 0x100) true) = some onePage := if_pos rfl

/-- A process forks, and its child writes to the page they share. -/
theorem frames_returned_of_tidy_sample :
    ∃ s, run frameStep (start true (fun _ => true) fun _ _ => 0)
        [.create 1, .getPage 1 0x8048 (some 0x100) true, .fork 1 2 true,
          .resolve 2 0x8048 0x100205 (some 0x101)] = some s ∧ FramesReturned (fun _ => true) s := by
  obtain ⟨s, hfork, -, hs, -, hl⟩ := exists_sysFork (s := onePage) (a := 1) (b := 2) (v := 0x8048)
    (by decide) (by decide) (by decide)
  have h3 : frameStep onePage (.fork 1 2 true) = some s := by
    rw [frameStep, if_pos (by decide), FrameOp.apply, hfork]
  have hposs : (FrameOp.resolve 2 0x8048 0x100205 (some 0x101)).possible s = true := by
    rw [FrameOp.possible, hl]
    decide
  have h4 : frameStep s (.resolve 2 0x8048 0x100205 (some 0x101))
      = some (pageCowResolve s 2 0x8048 0x100205 (some 0x101)).1 := if_pos hposs
  refine Reaches.exists (frames_returned_of_tidy _ _ _ _ _)
    (.cons trivial frameStep_oneSpace (.cons rfl frameStep_onePage (.cons ?_ h3
      (.cons ?_ h4 .nil))))
  · intro v _ _
    show (0 : Nat) ≠ 255
    decide
  · -- the entry that was read names the frame of the child's entry
    intro _ _
    rw [hs]
    decide

/-! ### Exit -/

/-- The space with one page, after its exit has detached the bitmap. -/
def detached : Vm :=
  { onePage with bits := fun b => if b = 1 then 0 else onePage.bits b }

/-- A process that exits with pages loses their frames: no entry maps
them, and the pool does not have them. -/
theorem not_frames_returned_exit :
    ∃ s, run frameStep (start true (fun _ => true) fun _ _ => 0)
        [.create 1, .getPage 1 0x8048 (some 0x100) true, .exit 1] = some s ∧
      ¬ FramesReturned (fun _ => true) s := by
  -- no page is found in the bitmap that was detached
  have hexit : taskReleaseSpace onePage 1 = freePml4 detached 1 := by
    rw [taskReleaseSpace, spaceReleaseEx, release_none]
    · rfl
    intro v hv
    have hin := hv.2
    rw [inBitmap, decide_eq_true_eq] at hin
    exact absurd hin.2 (Nat.not_lt_zero _)
  have h3 : frameStep onePage (.exit 1) = some (freePml4 detached 1) := by
    rw [frameStep, if_pos (by decide), FrameOp.apply, hexit]
  refine ⟨_, by rw [run_cons_of_eq_some frameStep_oneSpace, run_cons_of_eq_some frameStep_onePage,
    run_cons_of_eq_some h3, run_nil], ?_⟩
  intro hreturned
  have hnone : ∀ a v, (freePml4 detached 1).pte a v = 0 := by
    intro a v
    have hpte := pte_clear (s := detached) (t := freePml4 detached 1) (a := 1) rfl rfl a v
    rw [hpte]
    split
    · rfl
    · next hcut => exact onePage_pte fun h => hcut ⟨h.1, h.2 ▸ rfl⟩
  have hlost := (hreturned 0x100).2 fun a v hpres => by
    rw [hnone] at hpres
    cases hpres
  exact absurd hlost (by decide)

end CoreZ.Proofs.Mm.Cow
