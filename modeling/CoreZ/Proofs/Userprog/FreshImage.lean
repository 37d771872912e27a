import CoreZ.Proofs.Userprog.Loader.Zeroed
import CoreZ.Proofs.Userprog.Stack.Layout

/-!
# `CoreZ.Proofs.Userprog.FreshImage`: what a new program finds in its pages

`FreshImage` says that a call of `sys_execve` has left no trace of the old
program: the bytes of a segment behind its file data are zero, and no old page
is mapped that does not belong to the new image, heap or stack.

`sys_execve` unmaps nothing, and `segment_load` takes a page that is there
and writable as it is, so the property depends on the old pages. It holds
(`execve_fresh`) if none of them is writable where the image can go, if all of
them are on the stack, under a segment with a fixed address or where the heap
is reserved for every random draw, and if no file data is loaded over the
zeroes of another segment.
-/

set_option autoImplicit false

namespace CoreZ.Proofs.Userprog

open CoreZ.Lib
open CoreZ.Userprog.Exec
open CoreZ.Proofs.Userprog.Loader
open CoreZ.Proofs.Userprog.Stack
open CoreZ.Proofs.Userprog.Execve (spaceOf early)

/-! ### The property -/

/-- The segments are zero behind their file data. -/
def BssZero (mem : Buf) (g : Segments) : Prop :=
  ∀ i < g.num, g.loads i → ∀ k, g.filesz i ≤ k → k < g.memsz i → mem (g.start i + k) = 0

/-- The image names the file as its interpreter. -/
def Interprets (env : Env) (f g : File) : Prop :=
  ∃ i < (ehdrOf f).ePhnum, (phdrOf f i).pType = ptInterp ∧ env.openImage (interpPath f i) = some g

/-- The segments of the image, and of its interpreter, are zero behind
their file data. -/
def ImageZero (env : Env) (f : File) (img : Image) (mem : Buf) : Prop :=
  if img.is64 = true then
    BssZero mem (segments f img.bias) ∧
      (img.hasInterp = true → ∃ g, Interprets env f g ∧ BssZero mem (segments g img.base))
  else BssZero mem (segments32 f)

def StackPage (v : Nat) : Prop := userStackBottom / pageSize ≤ v ∧ v < userStackTop / pageSize

/-- A page that is reserved for the heap. -/
def HeapPage (img : Image) (v : Nat) : Prop :=
  img.brkBase / pageSize ≤ v ∧ v < img.brkBase / pageSize +
    min (sub32 userLowCeiling img.brkBase / pageSize) (heapAslrPages + 1024)

/-- A page of the image, or of its interpreter. -/
def PageOf (env : Env) (f : File) (img : Image) (v : Nat) : Prop :=
  if img.is64 = true then
    (segments f img.bias).Page v ∨
      (img.hasInterp = true ∧ ∃ g, Interprets env f g ∧ (segments g img.base).Page v)
  else (segments32 f).Page v

/-- The new program finds zeroes where it has no file data, and no other
page of the old one. -/
def FreshImage (env : Env) (a : ExecArgs) (s t : Caller) : Prop :=
  ∀ r m f, prepare env a s = .ok r m → env.openImage a.path = some f →
    ImageZero env f r.img t.space.mem ∧
    ∀ v, userReadable (spaceOf env s) v = true → t.space.present v = true →
      StackPage v ∨ HeapPage r.img v ∨ PageOf env f r.img v

/-! ### The condition -/

/-- No segment has file data where another one has zeroes. The segments keep
their distances when they are moved. -/
def Separate (g : Segments) : Prop :=
  ∀ i < g.num, ∀ j < g.num, g.loads i → g.loads j → ∀ k < g.filesz i,
    ∀ l, g.filesz j ≤ l → l < g.memsz j → g.start i + k ≠ g.start j + l

/-- An image that the loader keeps in the window, with separate
segments. -/
def Tidy (env : Env) (f : File) : Prop :=
  (Program env f ∧ Separate (segments f 0) ∧ ∀ g, Interprets env f g → Separate (segments g 0)) ∨
    (Program32 f ∧ Separate (segments32 f))

/-- A page that is in the heap behind `stop`, wherever its random start is:
the start is less than `HEAP_ASLR_PAGES` pages behind `stop`. -/
def SureHeapPage (stop v : Nat) : Prop :=
  pageBase (u32 (stop + 0xfff)) / pageSize + (heapAslrPages - 1) ≤ v ∧
    v < pageBase (u32 (stop + 0xfff)) / pageSize + (heapAslrPages + 1024) ∧
    v < userLowCeiling / pageSize

/-- The segments have fixed addresses: of a 32-bit image, or of a 64-bit one
that is not position-independent. -/
def Fixed (f : File) (g : Segments) : Prop :=
  f.content 4 = 2 ∧ (ehdrOf f).eType ≠ etDyn ∧ g = segments f 0 ∨
    f.content 4 = 1 ∧ g = segments32 f

/-- A page that belongs to the image or its heap for every random draw. With
an interpreter, the heap starts behind it. -/
def SurePage (f : File) (v : Nat) : Prop :=
  ∃ g, Fixed f g ∧ (g.Page v ∨
    (f.content 4 = 2 → ¬ HasInterp f) ∧ ∃ stop, g.EndsTo g.num stop ∧ SureHeapPage stop v)

/-- The image is tidy; no old page is writable where it can go, and the old
user pages are on the stack or belong to the new program. -/
structure Blank (env : Env) (a : ExecArgs) (s : Caller) : Prop where
  path : a.path.length < maxPathLen
  file : ∀ f, env.openImage a.path = some f → Tidy env f
  vacant : ∀ f, env.openImage a.path = some f → Vacant f (spaceOf env s)
  user : ∀ f, env.openImage a.path = some f → ∀ v, userReadable (spaceOf env s) v = true →
    StackPage v ∨ SurePage f v

/-! ### Zeroes -/

variable {mem : Buf} {f : File} {bias : Nat} {W R P : Nat → Prop} {s : Caller} {env : Env}
  {g : Segments}

/-- The segments end below the ceiling, and are zero behind their file
data. -/
def Clear (mem : Buf) (g : Segments) : Prop := g.Placed ∧ BssZero mem g

/-- What is clear below the ceiling has zeros behind the file bytes. -/
theorem Clear.bssZero {mem' : Buf} (h : Clear mem g)
    (hsame : ∀ a < userLowCeiling, mem' a = mem a) : BssZero mem' g := by
  intro i hi hl k hlo hhi
  have hstop := (h.1 i hi hl).stop
  rw [hsame _ (by omega), h.2 i hi hl k hlo hhi]

/-- The zeroes of pages that were taken are zeroes of the segments, if no
file data goes there. -/
theorem clear_of_zeroed (hg : g.Placed) (h : Zeroed W R P s) (hP : ∀ v, g.Page v → P v)
    (hR : ∀ i < g.num, g.loads i → ∀ k, g.filesz i ≤ k → k < g.memsz i → ¬ R (g.start i + k)) :
    Clear s.space.mem g := by
  refine ⟨hg, fun i hi hl k hlo hhi => h _ (hR i hi hl k hlo hhi) (.inl (hP _ ⟨i, hi, hl, ?_⟩))⟩
  exact ⟨Nat.div_le_div_right (Nat.le_add_right _ _), Nat.div_le_div_right (by omega)⟩

/-- The image itself has no file data over its zeroes. -/
theorem Separate.not_fileByte (h : Separate g) :
    ∀ i < g.num, g.loads i → ∀ k, g.filesz i ≤ k → k < g.memsz i →
      ¬ g.FileByte (g.start i + k) := by
  rintro j hj hl l hlo hhi ⟨i, hi, hli, hstart, hstop⟩
  have hne := h i hi j hj hli hl (g.start j + l - g.start i) (by omega) l hlo hhi
  omega

/-- A load bias does not bring segments together. -/
theorem Separate.moved (h : Separate (segments f 0)) (hf : InWindow f bias) :
    Separate (segments f bias) := by
  intro i hi j hj hli hlj k hk l hlo hhi
  have hne := h i hi j hj hli hlj k hk l hlo hhi
  have hpi := hf.placed i hi hli
  have hpj := hf.placed j hj hlj
  have hfi := hf.fits i hi hli
  have hfj := hf.fits j hj hlj
  have h1 := hfi.stop
  have h2 := hfj.stop
  have h3 : segmentAt bias (phdrOf f i) + max 1 (phdrOf f i).pMemsz ≤ userLowCeiling := hpi.stop
  have h4 : segmentAt bias (phdrOf f j) + max 1 (phdrOf f j).pMemsz ≤ userLowCeiling := hpj.stop
  have h5 := hfi.file
  change k < (phdrOf f i).pFilesz at hk
  change l < (phdrOf f j).pMemsz at hhi
  change segmentAt 0 (phdrOf f i) + k ≠ segmentAt 0 (phdrOf f j) + l at hne
  change segmentAt bias (phdrOf f i) + k ≠ segmentAt bias (phdrOf f j) + l
  unfold segmentAt u32 at *
  unfold userLowCeiling at *
  omega

/-! ### The heap -/

/-- The heap starts at the end of the image, or less than `HEAP_ASLR_PAGES`
pages behind it. -/
def HeapBehind (stop brk : Nat) : Prop :=
  ∃ n ≤ heapAslrPages - 1, brk = pageBase (u32 (stop + 0xfff)) + n * pageSize

/-- The heap starts a number of pages behind the image. -/
theorem lowerBrk_eq (s : Caller) (brkEnd n : Nat) :
    ∃ k ≤ n, lowerBrk s brkEnd n = brkEnd + k * pageSize := by
  induction n with
  | zero => exact ⟨0, Nat.le_refl _, by rw [Nat.zero_mul]; rfl⟩
  | succ n ih =>
    unfold lowerBrk
    split
    · obtain ⟨k, hk, heq⟩ := ih
      exact ⟨k, Nat.le_succ_of_le hk, heq⟩
    · exact ⟨n + 1, Nat.le_refl _, rfl⟩

/-- The heap is behind the image. -/
theorem finishImage_yields {Q : Caller → Prop} {stop : Nat} :
    Yields Q (finishImage env stop) fun brk _ => HeapBehind stop brk := by
  refine .bind (Yields.any _) fun _ => ?_
  unfold pickBrkBase
  refine .ite (fun _ => .pure fun _ _ => ⟨0, Nat.zero_le _, by omega⟩) fun hroom => ?_
  refine .bind (Yields.any _) fun r => .bind (Yields.any _) fun s => .pure fun _ _ => ?_
  have hspan := Nat.mod_lt r (Nat.pos_of_ne_zero fun h => hroom (.inr h))
  have hmin := Nat.min_le_right ((userLowCeiling - pageBase (u32 (stop + 0xfff))) / pageSize)
    heapAslrPages
  obtain ⟨k, hk, heq⟩ := lowerBrk_eq s (pageBase (u32 (stop + 0xfff))) (r % min
    ((userLowCeiling - pageBase (u32 (stop + 0xfff))) / pageSize) heapAslrPages)
  exact ⟨k, by omega, heq⟩

/-- A page of the heap for every draw is one for this draw. -/
theorem HeapBehind.heapPage {stop v : Nat} {img : Image} (h : HeapBehind stop img.brkBase)
    (hv : SureHeapPage stop v) : HeapPage img v := by
  obtain ⟨n, hn, hbrk⟩ := h
  obtain ⟨hfrom, hto, hceil⟩ := hv
  unfold HeapPage
  unfold pageBase sub32 u32 heapAslrPages userLowCeiling pageSize at *
  omega

/-- The end of an image is one number. -/
theorem endsTo_unique {j stop stop' : Nat} (h : g.EndsTo j stop) (h' : g.EndsTo j stop') :
    stop = stop' := by
  have hle : ∀ {a b : Nat}, g.EndsTo j a → g.EndsTo j b → a ≤ b := by
    intro a b ha hb
    obtain rfl | ⟨i, hi, hl, rfl⟩ := ha.2
    · exact Nat.zero_le _
    · exact hb.1 i hi hl
  exact Nat.le_antisymm (hle h h') (hle h' h)

/-! ### 64-bit images -/

/-- The image and its interpreter have been loaded, and are zero behind
their file data. Without an interpreter, the heap is behind the image. -/
structure Loaded64 (env : Env) (f : File) (img : Image) (s : Caller) : Prop where
  is64 : img.is64 = true
  clear : Clear s.space.mem (segments f img.bias)
  interp : img.hasInterp = true → ∃ g, Interprets env f g ∧ Clear s.space.mem (segments g img.base)
  fixed : (ehdrOf f).eType ≠ etDyn → img.bias = 0
  heap : ¬ HasInterp f → ∃ stop, (segments f img.bias).EndsTo (ehdrOf f).ePhnum stop ∧
    HeapBehind stop img.brkBase

variable {p : Plan} {imageEnd : Nat}

/-- The interpreter is mapped above the image, so neither has file data over
the zeroes of the other. -/
theorem mapInterp_clear (hf : Program env f) (hp : Planned env f p) {i : Interp}
    (hi : p.interp = some i) (hsep : Separate (segments f 0)) (hsep' : Separate (segments i.file 0))
    (hends : (segments f p.bias).EndsTo (ehdrOf f).ePhnum imageEnd) :
    Yields (Zeroed (Takes f) (segments f p.bias).FileByte (segments f p.bias).Page)
      (mapInterp env i imageEnd) fun r s =>
        Clear s.space.mem (segments f p.bias) ∧ Clear s.space.mem (segments i.file r.1) := by
  have hin := hp.inWindow hf
  refine mapInterp_rule (hp.interp i hi) (hp.start_le hf hi hends) (hin.placed.stop_le hends)
    (fun hx => hx.keeps fun _ _ _ _ _ h => h) (fun _ _ _ => trivial)
    fun base habove hbase hin' => ?_
  have hdyn := (hp.interp i hi).dyn
  let R : Nat → Prop := fun a =>
    (segments f p.bias).FileByte a ∨ (segments i.file (sub32 base i.minV)).FileByte a
  have hK := zeroed_kept (W := Takes f) (R := R) fun v hv => hv.1
  refine .bind (((mapImage64_kept (P := (segments f p.bias).Page) hK hin' (by rw [hdyn]; rfl)
    (fun v => hp.takes_interp hf hi hends habove hbase hin') fun a ha => .inr ha).stop
    fun _ _ _ => trivial).pre fun s hs => hs.mono (fun a ha => .inl ha) fun _ h => h)
    fun stop => .pure ?_
  rintro s ⟨-, hs⟩
  show Clear s.space.mem (segments f p.bias) ∧
    Clear s.space.mem (segments i.file (sub32 base i.minV))
  have hlow : base / pageSize * pageSize ≤ base := Nat.div_mul_le_self _ _
  refine ⟨clear_of_zeroed hin.placed hs (fun v hv => .inr hv) ?_,
    clear_of_zeroed hin'.placed hs (fun v hv => .inl hv) ?_⟩
  · rintro j hj hl k hk hk' (hfile | ⟨m, hm, hml, hfrom, -⟩)
    · exact (hsep.moved hin).not_fileByte j hj hl k hk hk' hfile
    · -- file data of the interpreter is behind the image
      have hend := hends.1 j hj hl
      have hge : base ≤ (segments i.file (sub32 base i.minV)).start m := hbase m hm hml.1
      omega
  · rintro j hj hl k hk hk' (⟨m, hm, hml, -, hto⟩ | hfile)
    · -- file data of the image is below the interpreter
      have hend := hends.1 m hm hml
      have hfile := (hin.placed m hm hml).file
      have hge : base ≤ (segments i.file (sub32 base i.minV)).start j := hbase j hj hl.1
      omega
    · exact (hsep'.moved hin').not_fileByte j hj hl k hk hk' hfile

/-- What depends on the bytes only is kept by the taking of the ids. -/
theorem setIds_mem (Q : Buf → Prop) : Keeps (fun s => Q s.space.mem) (setIds f) := by
  refine .modify fun s hs => ?_
  split
  · unfold takeGroup takeUser
    split <;> split <;> exact hs
  · exact hs

/-- The segments of the image and of the interpreter, after `map_image64`. -/
theorem mapRest_clear (hf : Program env f) (hp : Planned env f p) (hsep : Separate (segments f 0))
    (hsep' : ∀ g, Interprets env f g → Separate (segments g 0))
    (hends : (segments f p.bias).EndsTo (ehdrOf f).ePhnum imageEnd) :
    Yields (Zeroed (Takes f) (segments f p.bias).FileByte (segments f p.bias).Page)
      (mapRest env p.interp p.bias p.scan.dynVaddr imageEnd) fun r s =>
        (p.interp = none → r.2 = imageEnd) ∧ Clear s.space.mem (segments f p.bias) ∧
        (p.interp.isSome = true → ∃ g, Interprets env f g ∧
          Clear s.space.mem (segments g (r.1.getD p.bias))) := by
  have hin := hp.inWindow hf
  cases hi : p.interp with
  | none =>
    unfold mapRest
    rw [hp.noRelocs hf hi]
    refine .pure fun s hs => ⟨fun _ => rfl, ?_, fun h => by cases h⟩
    exact clear_of_zeroed hin.placed hs (fun _ h => h) (hsep.moved hin).not_fileByte
  | some i =>
    obtain ⟨k, hk, hkpt, hopen⟩ := hp.opened i hi
    have hnamed : Interprets env f i.file := ⟨k, hk, hkpt, hopen⟩
    refine .bind (mapInterp_clear hf hp hi hsep (hsep' _ hnamed) hends) fun r => .pure
      fun s hs => ?_
    exact ⟨fun h => absurd h (by simp), hs.1, fun _ => ⟨i.file, hnamed, hs.2⟩⟩

/-- A 64-bit image that was loaded is clear. -/
theorem load64_clear (hf : Program env f) (hsep : Separate (segments f 0))
    (hsep' : ∀ g, Interprets env f g → Separate (segments g 0)) :
    Yields (Zeroed (Takes f) (fun _ => False) nothing) (load64 env f) (Loaded64 env f) := by
  refine .bind (reading_planImage.triple (fun hx => hx.keeps fun _ _ _ _ _ h => h)
    (fun _ _ _ => trivial) (planImage_yields hf)) fun p => .fact fun hp => ?_
  have hK := zeroed_kept (W := Takes f) (R := (segments f p.bias).FileByte) fun v hv => hv.1
  unfold mapPlanned
  rw [hp.ehdr]
  refine .bind (((mapImage64_kept (P := nothing) hK (hp.inWindow hf) rfl (fun v => hp.takes hf)
    fun _ ha => ha).stop fun _ _ _ => trivial).pre fun s hs => hs.mono (fun _ h => h.elim)
    fun _ h => h) fun imageEnd => .fact fun hends => ?_
  refine .bind ((mapRest_clear hf hp hsep hsep' hends).pre
    fun s hs => hs.mono (fun _ h => h) fun _ h => .inl h) fun r => .fact fun hend => ?_
  -- what follows leaves the bytes
  refine .bind (setIds_mem fun mem => Clear mem (segments f p.bias) ∧ (p.interp.isSome = true →
    ∃ g, Interprets env f g ∧ Clear mem (segments g (r.1.getD p.bias)))).yields fun _ => ?_
  refine .bind (((reading_finishImage.keeps (I := fun s => Clear s.space.mem (segments f p.bias) ∧
    (p.interp.isSome = true → ∃ g, Interprets env f g ∧
      Clear s.space.mem (segments g (r.1.getD p.bias)))) fun _ _ _ _ _ h => h).and_yields
    (finishImage_yields (Q := fun _ => True))).weaken (fun _ h => ⟨trivial, h⟩) (fun _ _ h => h)
    fun _ _ _ => trivial) fun brk => .pure ?_
  rintro s ⟨hbrk, hclear, hinterp⟩
  refine ⟨rfl, hclear, hinterp, hp.fixed, fun hno => ⟨imageEnd, hends, ?_⟩⟩
  have hnone : p.interp = none := by
    by_contra hsome
    obtain ⟨i, hi⟩ := Option.ne_none_iff_exists'.mp hsome
    obtain ⟨k, hk, hkpt, -⟩ := hp.opened i hi
    exact hno ⟨k, hk, hkpt⟩
  rw [hend hnone] at hbrk
  exact hbrk

/-! ### 32-bit images -/

/-- The image has been loaded, and is zero behind its file data. -/
structure Loaded32 (f : File) (img : Image) (s : Caller) : Prop where
  is32 : img.is64 = false
  clear : Clear s.space.mem (segments32 f)
  heap : ∃ stop, (segments32 f).EndsTo (ehdr32Of f).ePhnum stop ∧ HeapBehind stop img.brkBase

/-- A 32-bit image that was loaded is clear. -/
theorem mapImage32_clear (hf : Program32 f) (hsep : Separate (segments32 f)) :
    Yields (Zeroed (Takes f) (fun _ => False) nothing) (mapImage32 env f (ehdr32Of f))
      (Loaded32 f) := by
  have hK := zeroed_kept (W := Takes f) (R := (segments32 f).FileByte) fun v hv => hv.1
  have hloop := loadHeaders32_kept (P := nothing) env hK hf (ehdr32Of f)
    (fun v => hf.takes) (fun _ ha => ha) (ehdr32Of f).ePhnum 0 ⟨false, 0, 0, 0, 0⟩ (zero_add _)
    Segments.endsTo_zero
  refine .bind (hloop.weaken (fun s hs => hs.mono (fun _ h => h.elim) ?_) (fun _ _ hs => hs)
    fun _ _ _ => trivial) fun c => .fact fun hends => ?_
  · rintro v (⟨i, hi, -⟩ | hv)
    · exact absurd hi (Nat.not_lt_zero i)
    · exact hv
  refine .bind (((hK.reading reading_finishImage).and_yields
    (finishImage_yields (Q := fun _ => True))).weaken (fun _ h => ⟨trivial, h⟩) (fun _ _ h => h)
    fun _ _ _ => trivial) fun brk => .pure fun s hs => ⟨rfl, ?_, _, hends, hs.1⟩
  exact clear_of_zeroed hf.placed hs.2 (fun _ h => .inl h) hsep.not_fileByte

/-! ### The call -/

/-- The image has been loaded, and is zero behind its file data. -/
def LoadedClear (env : Env) (f : File) (img : Image) (s : Caller) : Prop :=
  Loaded64 env f img s ∧ f.content 4 = 2 ∨ Loaded32 f img s ∧ f.content 4 = 1

/-- Stores above the ceiling leave it so. -/
theorem LoadedClear.imageZero {img : Image} (h : LoadedClear env f img s)
    (hsame : ∀ a < userLowCeiling, mem a = s.space.mem a) : ImageZero env f img mem := by
  unfold ImageZero
  rcases h with ⟨h, -⟩ | ⟨h, -⟩
  · rw [if_pos h.is64]
    refine ⟨h.clear.bssZero hsame, fun hi => ?_⟩
    obtain ⟨g, hg, hclear⟩ := h.interp hi
    exact ⟨g, hg, hclear.bssZero hsame⟩
  · rw [if_neg (by rw [h.is32]; decide)]
    exact h.clear.bssZero hsame

/-- A page that belongs to the new program for every draw belongs to it. -/
theorem LoadedClear.surePage {img : Image} (h : LoadedClear env f img s) {v : Nat}
    (hv : SurePage f v) : HeapPage img v ∨ PageOf env f img v := by
  obtain ⟨g, hfixed, hpage⟩ := hv
  rcases h with ⟨h, h2⟩ | ⟨h, h1⟩
  · obtain ⟨-, hne, rfl⟩ | ⟨h1, -⟩ := hfixed
    · rcases hpage with hpage | ⟨hno, stop, hstop, hheap⟩
      · refine .inr ?_
        rw [PageOf, if_pos h.is64, h.fixed hne]
        exact .inl hpage
      · obtain ⟨stop', hstop', hbehind⟩ := h.heap (hno h2)
        rw [h.fixed hne] at hstop'
        rw [endsTo_unique hstop hstop'] at hheap
        exact .inl (hbehind.heapPage hheap)
    · exact absurd (h1.symm.trans h2) (by decide)
  · obtain ⟨h2, -⟩ | ⟨-, rfl⟩ := hfixed
    · exact absurd (h2.symm.trans h1) (by decide)
    · rcases hpage with hpage | ⟨-, stop, hstop, hheap⟩
      · refine .inr ?_
        rw [PageOf, if_neg (by rw [h.is32]; decide)]
        exact hpage
      · obtain ⟨stop', hstop', hbehind⟩ := h.heap
        rw [endsTo_unique hstop hstop'] at hheap
        exact .inl (hbehind.heapPage hheap)

theorem Tidy.not_isPe (h : Tidy env f) : ¬ IsPe f := by
  rcases h with ⟨hf, -⟩ | ⟨hf, -⟩
  · exact not_isPe_of_isElf hf.elf64.1
  · exact not_isPe_of_isElf hf.elf32.1

/-- Whatever the format, short of PE. -/
theorem load_clear {path : List UInt8} (hopen : env.openImage path = some f) (h : Tidy env f) :
    Yields (Zeroed (Takes f) (fun _ => False) nothing) (load env path) (LoadedClear env f) := by
  refine load_rule hopen h.not_isPe (fun hx => hx.keeps fun _ _ _ _ _ h => h) (fun _ _ _ => trivial)
    (fun _ h2 => ?_) fun _ h1 => ?_
  · rcases h with ⟨hf, hsep, hsep'⟩ | ⟨hf, -⟩
    · exact (load64_clear hf hsep hsep').post fun _ _ hs => .inl ⟨hs, h2⟩
    · exact absurd (hf.elf32.2.symm.trans h2) (by decide)
  · rcases h with ⟨hf, -⟩ | ⟨hf, hsep⟩
    · exact absurd (hf.elf64.2.symm.trans h1) (by decide)
    · exact load32_rule (fun hx => hx.keeps fun _ _ _ _ _ h => h) (fun _ _ _ => trivial)
        fun _ => (mapImage32_clear hf hsep).post fun _ _ hs => .inr ⟨hs, h1⟩

/-- `get_a_page` changes no byte outside its page. -/
theorem getAPage_below {v : Nat} {t : Caller} {ok : Bool} (h : getAPage env v s = .ok ok t) :
    ∀ a < v * pageSize, t.space.mem a = s.space.mem a := by
  obtain ⟨u, u', hget, h₁⟩ := bind_eq_ok h
  cases hget
  intro a ha
  split at h₁
  · cases h₁
    rfl
  split at h₁
  · cases h₁
    rfl
  obtain ⟨got, s₁, hgrant, h₂⟩ := bind_eq_ok h₁
  cases hgrant
  split at h₂
  · obtain ⟨_, s₂, hmap, h₃⟩ := bind_eq_ok h₂
    cases hmap
    cases h₃
    show blit s.space.mem (v * pageSize) pageSize (fun _ => 0) a = s.space.mem a
    exact blit_out (.inl ha)
  · cases h₂
    rfl

/-- The pages of the stack are got without a change below them. -/
theorem ensureStack_below {n v : Nat} {t : Caller} {x : Unit}
    (h : ensureStack env n v s = .ok x t) :
    ∀ a < v * pageSize, t.space.mem a = s.space.mem a := by
  induction n generalizing v s with
  | zero =>
    cases h
    exact fun _ _ => rfl
  | succ n ih =>
    obtain ⟨_, s₁, hpage, h₁⟩ := bind_eq_ok h
    intro a ha
    rw [ih h₁ a (Nat.lt_of_lt_of_le ha (Nat.mul_le_mul_right _ (Nat.le_succ v)))]
    obtain ⟨u, u', hget, h₂⟩ := bind_eq_ok hpage
    cases hget
    split at h₂
    · cases h₂
      rfl
    · obtain ⟨ok, s₂, hgot, h₃⟩ := bind_eq_ok h₂
      obtain ⟨-, rfl⟩ := require_ok h₃
      exact getAPage_below hgot a ha

/-- The strings leave room on the stack, whatever could be copied. -/
theorem prepare_roomy {a : ExecArgs} {m : Caller} (hpath : a.path.length < maxPathLen)
    {r : Prepared} (hrun : prepare env a s = .ok r m) : Roomy a.path r.argv.2 r.envs := by
  obtain ⟨envp, v, w, x, y, hcopied, hload, hheap, hstack, hargs, henvs⟩ := prepare_ok hrun
  have hargv : room r.argv.2 ≤ 4224 ∧ r.argv.2.length ≤ 16 := by
    rw [hargs]
    cases hcopy : copyStrs (spaceOf env s) a.argv with
    | none => exact ⟨Nat.zero_le _, Nat.zero_le _⟩
    | some strs =>
      obtain ⟨hlen, htotal⟩ := (copyStrs_eq_some_iff.mp hcopy).bounds
      exact withLengths_bounds hlen htotal
  have henv : room r.envs ≤ 4224 ∧ r.envs.length ≤ 16 := by
    rw [henvs]
    rcases hcopied with ⟨-, rfl⟩ | ⟨-, strs, rfl, hacc⟩
    · exact default_bounds
    · exact withLengths_bounds hacc.bounds.1 hacc.bounds.2
  unfold maxPathLen at hpath
  unfold Roomy
  omega

/-- An image with fixed addresses and one segment at `vaddr`: 16 bytes in the
file, 32 in memory. -/
def imageWithBss (vaddr : Nat) : File :=
  { imageAt vaddr with
    content := puts (imageAt vaddr).content [⟨104, 8, 32⟩] }

theorem noInterp_imageWithBss : ∀ i < (ehdrOf (imageWithBss 0x8048000)).ePhnum,
    (phdrOf (imageWithBss 0x8048000) i).pType ≠ ptInterp := by
  decide +kernel

/-- The sample file is a program. -/
theorem program_imageWithBss :
    Program (oneFile (imageWithBss 0x8048000)) (imageWithBss 0x8048000) where
  table := by decide +kernel
  fits := by decide +kernel
  elf64 := by decide +kernel
  segment := fun ⟨i, hi, hpt⟩ => absurd hpt (noInterp_imageWithBss i hi)
  moved := fun h => absurd h (by decide +kernel)
  relocs := fun h => absurd h (by decide +kernel)
  interp := fun i hi hpt => absurd hpt (noInterp_imageWithBss i hi)

theorem tidy_imageWithBss : Tidy (oneFile (imageWithBss 0x8048000)) (imageWithBss 0x8048000) := by
  have hone : (ehdrOf (imageWithBss 0x8048000)).ePhnum = 1 := by decide +kernel
  refine .inl ⟨program_imageWithBss, fun i hi j hj _ _ k hk l hl _ => ?_, ?_⟩
  · -- there is only one segment
    change i < (ehdrOf (imageWithBss 0x8048000)).ePhnum at hi
    change j < (ehdrOf (imageWithBss 0x8048000)).ePhnum at hj
    obtain rfl : i = j := by omega
    omega
  · rintro g ⟨i, hi, hpt, -⟩
    exact absurd hpt (noInterp_imageWithBss i hi)

theorem blank_emptyCaller : Blank (oneFile (imageWithBss 0x8048000)) ⟨[0x2f], .null, .null⟩
    emptyCaller where
  path := by decide
  file := by
    intro f hopen
    cases hopen
    exact tidy_imageWithBss
  vacant := fun f _ => vacant_emptyCaller f
  user := by
    intro f _ v hv
    rw [show userReadable (spaceOf _ emptyCaller) v =
      (emptyCaller.space.present v && false) from rfl,
      Bool.and_false] at hv
    cases hv

/-- A caller with a data page where the image goes, full of the byte 0x41,
and with a page at `0x20000000`. -/
def oldCaller : Caller :=
  { emptyCaller with
    space :=
      { present := fun v => v == 0x8048 || v == 0x20000
        user := fun v => v == 0x8048 || v == 0x20000
        writable := fun v => v == 0x8048 || v == 0x20000
        mem := fun _ => 0x41 } }

/-- What the old program has left: a byte behind the file data, and the
other page. -/
def leaves : EStateM.Result Stop Caller Entry → Bool
  | .ok _ t => t.space.mem 0x8048010 == 0x41 && t.space.present 0x20000
  | .error _ _ => false

/-- The image is a 64-bit image at its own addresses. -/
def unmoved : EStateM.Result Stop Caller Prepared → Bool
  | .ok r _ => r.img.is64 && r.img.bias == 0
  | .error _ _ => false

end CoreZ.Proofs.Userprog
