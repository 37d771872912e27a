import CoreZ.Proofs.Userprog.Loader.Headers

/-!
# `CoreZ.Proofs.Userprog.Loader.Confined`: where the ELF loader stores

The loader checks the start of a segment against `USER_STACK3_VADDR`, which
is far above the window, and nothing else before it stores: the end of the
image is compared with `USER_LOW_CEILING` only after all segments have been
loaded, `p_filesz` is not compared with `p_memsz`, pages that are there and
writable are taken as they are, and the targets of relocations are not
looked at. `not_confined_heap` loads a segment over the kernel's heap.

`load_confined` gives a condition under which the accesses are confined: no
page that the image can get is there and writable before, the segments fit,
and no relocations are applied; or the file is refused while its headers are
read.
-/

set_option autoImplicit false

namespace CoreZ.Proofs.Userprog.Loader

open CoreZ.Lib (Triple Yields Keeps puts)
open CoreZ.Userprog.Exec

/-! ### Where the segments go -/

variable {I : Caller → Prop} {env : Env} {f : File} {bias imageEnd : Nat} {i : Option Interp}
  {ph : Phdr} {c : Scan} {E : Stop → Caller → Prop} {W P S : Nat → Prop}
  {K : (Nat → Prop) → Caller → Prop}

/-- An image with fixed addresses stays where it is. -/
theorem Loadable.placed_fixed (h : Loadable f) (hne : (ehdrOf f).eType ≠ etDyn) :
    (segments f 0).Placed := by
  intro i hi hl
  have hfit := h.fits i hi hl
  have hat : segmentAt 0 (phdrOf f i) = u32 (phdrOf f i).pVaddr := by
    unfold segmentAt
    rw [add_zero]
    exact Nat.mod_mod _ _
  have hstart : userVaddrStart ≤ segmentAt 0 (phdrOf f i) := hat ▸ (hl.2.resolve_left hne).1
  have hstop : segmentAt 0 (phdrOf f i) + max 1 (phdrOf f i).pMemsz ≤ userLowCeiling :=
    hat ▸ hfit.stop
  exact ⟨hfit.file, hstart, hstop⟩

/-- A position-independent image whose lowest address is 0. -/
theorem Loadable.placed_moved (h : Loadable f) {maxE : Nat} (hlo : userVaddrStart ≤ bias)
    (hhi : bias + maxE < userLowCeiling) (hspan : ∀ i < (ehdrOf f).ePhnum,
      (phdrOf f i).pType = ptLoad → u32 (phdrOf f i).pVaddr + (phdrOf f i).pMemsz ≤ maxE) :
    (segments f bias).Placed := by
  intro i hi hl
  have hfit := h.fits i hi hl
  have hmax := hspan i hi hl.1
  have hat : segmentAt bias (phdrOf f i) = u32 (phdrOf f i).pVaddr + bias := by
    unfold userLowCeiling at hhi
    exact Nat.mod_eq_of_lt (by omega)
  refine ⟨hfit.file, ?_, ?_⟩
  · show userVaddrStart ≤ segmentAt bias (phdrOf f i)
    omega
  · show segmentAt bias (phdrOf f i) + max 1 (phdrOf f i).pMemsz ≤ userLowCeiling
    omega

/-- The interpreter is moved from its lowest address to `base`. -/
theorem InterpOk.placed {i : Interp} (hi : InterpOk i) {base : Nat} (hlo : userVaddrStart ≤ base)
    (hhi : base + i.span ≤ userLowCeiling) {j : Nat} (hj : j < (ehdrOf i.file).ePhnum)
    (hpt : (phdrOf i.file j).pType = ptLoad) :
    (segments i.file (sub32 base i.minV)).PlacedAt j ∧
      base ≤ segmentAt (sub32 base i.minV) (phdrOf i.file j) := by
  have hfit := hi.loadable.fits j hj ⟨hpt, .inl hi.dyn⟩
  obtain ⟨hmin, hspan⟩ := hi.spans j (Nat.zero_le j) hj hpt
  have hmem := hi.loadable.memory j hj hpt
  have hstop := hfit.stop
  have hat : segmentAt (sub32 base i.minV) (phdrOf i.file j) =
      base + (u32 (phdrOf i.file j).pVaddr - i.minV) := by
    unfold userLowCeiling at hhi hstop
    unfold segmentAt sub32 u32
    unfold u32 at hmin hspan hstop
    omega
  refine ⟨⟨hfit.file, ?_, ?_⟩, by omega⟩
  · show userVaddrStart ≤ segmentAt (sub32 base i.minV) (phdrOf i.file j)
    omega
  · show segmentAt (sub32 base i.minV) (phdrOf i.file j) + max 1 (phdrOf i.file j).pMemsz ≤
      userLowCeiling
    omega

/-- What a program that only reads yields, it yields beside an invariant that
such programs keep. -/
theorem Reading.triple {α : Type} {x : LoadM α} {Q : α → Prop} (hq : Reading x)
    (hI : Reading x → Keeps I x) (hE : ∀ e s, I s → E e s)
    (hy : Yields (fun _ => True) x fun a _ => Q a) : Triple I x (fun a s => Q a ∧ I s) E :=
  ((hI hq).and_yields hy).weaken (fun _ hs => ⟨trivial, hs⟩) (fun _ _ h => h) hE

/-- The random distance to the interpreter leaves room for it. -/
theorem interpGap_yields (room : Nat) :
    Yields (fun _ => True) (interpGap env room) fun gap _ => gap ≤ room := by
  refine .ite (fun _ => .pure fun _ _ => Nat.zero_le _) fun hroom => ?_
  refine .bind (Yields.any _) fun r => .pure fun _ _ => ?_
  exact Nat.le_of_lt (Nat.mod_lt r (Nat.pos_of_ne_zero hroom))

theorem reading_interpGap {env : Env} {room : Nat} : Reading (interpGap env room) :=
  .ite .pure (reading_rand32.bind fun _ => .pure)

/-- The interpreter goes to pages above the image and below the ceiling: it
is mapped with its lowest address at `base`. -/
theorem mapInterp_rule {i : Interp} (hi : InterpOk i) {imageEnd : Nat}
    (hlo : userVaddrStart ≤ imageEnd) (hhi : imageEnd ≤ userLowCeiling) {I : Caller → Prop}
    {Q : Nat × Nat → Caller → Prop} {E : Stop → Caller → Prop}
    (hI : ∀ {α : Type} {x : LoadM α}, Reading x → Keeps I x) (hE : ∀ e s, I s → E e s)
    (hmap : ∀ base, imageEnd ≤ base / pageSize * pageSize →
      (∀ j < (ehdrOf i.file).ePhnum, (phdrOf i.file j).pType = ptLoad →
        base ≤ segmentAt (sub32 base i.minV) (phdrOf i.file j)) →
      InWindow i.file (sub32 base i.minV) →
      Triple I (mapImage64 env i.file .interp (ehdrOf i.file) (sub32 base i.minV) false >>=
        fun stop => pure (sub32 base i.minV, max imageEnd stop)) Q E) :
    Triple I (mapInterp env i imageEnd) Q E := by
  have hstop := hi.stop
  have hbelow : imageEnd ≤ pageBase (u32 (imageEnd + 0xfff)) ∧
      pageBase (u32 (imageEnd + 0xfff)) ≤ userLowCeiling ∧
      pageBase (u32 (imageEnd + 0xfff)) % pageSize = 0 := by
    unfold pageBase u32 pageSize
    unfold userLowCeiling at *
    omega
  unfold mapInterp
  generalize pageBase (u32 (imageEnd + 0xfff)) = below at *
  refine .bind (reading_require.triple hI hE require_yields) fun _ => ?_
  refine .fact fun hfits => ?_
  have hfits : below + i.span ≤ userLowCeiling := by
    have h := of_decide_eq_true hfits.1
    unfold u32 userLowCeiling at *
    omega
  have hroom : sub32 (sub32 userLowCeiling below) i.span / pageSize =
      (userLowCeiling - below - i.span) / pageSize := by
    unfold sub32 u32
    unfold userLowCeiling at *
    congr 1
    omega
  rw [hroom]
  refine .bind (reading_interpGap.triple hI hE (interpGap_yields _)) fun gap => ?_
  refine .fact fun hgap => ?_
  -- the place of the interpreter, and its end
  have hbase : u32 (below + gap * pageSize) = below + gap * pageSize ∧
      below + gap * pageSize + i.span ≤ userLowCeiling ∧
      imageEnd ≤ (below + gap * pageSize) / pageSize * pageSize := by
    unfold pageSize at hgap hbelow ⊢
    unfold u32
    unfold userLowCeiling at *
    omega
  obtain ⟨hbase, hceil, habove⟩ := hbase
  have hstart : userVaddrStart ≤ below + gap * pageSize := by omega
  rw [hbase, hi.ehdr]
  exact hmap _ habove (fun j hj hpt => (hi.placed hstart hceil hj hpt).2)
    ⟨hi.loadable.toLoadable, fun j hj hl => (hi.placed hstart hceil hj hl.1).1⟩

/-! ### 64-bit images -/

/-- The heap is chosen, not mapped. -/
theorem reading_pickBrkBase {env : Env} {imageEnd : Nat} : Reading (pickBrkBase env imageEnd) := by
  refine .ite .pure (reading_rand32.bind fun r => ?_)
  exact .bind (fun _ => .get fun _ hs => hs) fun s => .pure

theorem reading_finishImage {env : Env} {imageEnd : Nat} : Reading (finishImage env imageEnd) :=
  reading_require.bind fun _ => reading_pickBrkBase

/-- Up to the load bias nothing is mapped. -/
theorem reading_planImage : Reading (planImage env f) := by
  refine reading_probeElf64.bind fun e => reading_scanHeaders.bind fun c => ?_
  exact reading_openInterp.bind fun i => reading_chooseBias.bind fun bias => .pure

/-- What is known of the image when `load64` starts to map it: the headers
that were scanned, the interpreter, and the load bias. -/
structure Planned (env : Env) (f : File) (p : Plan) : Prop where
  ehdr : p.ehdr = ehdrOf f
  named : Named f (ehdrOf f).ePhnum p.scan
  span : (ehdrOf f).eType = etDyn → SpansTo f (ehdrOf f).ePhnum p.scan.minV p.scan.maxE
  noInterp : p.interp = none ↔ p.scan.interp = none
  interp : ∀ j, p.interp = some j → InterpOk j
  opened : ∀ j, p.interp = some j → ∃ k < (ehdrOf f).ePhnum, (phdrOf f k).pType = ptInterp ∧
    env.openImage (interpPath f k) = some j.file
  fixed : (ehdrOf f).eType ≠ etDyn → p.bias = 0
  moved : (ehdrOf f).eType = etDyn →
    userVaddrStart ≤ p.bias ∧ p.bias + (p.scan.maxE - p.scan.minV) < userLowCeiling

/-- What the first part of `load64` finds out. -/
theorem planImage_yields (hf : Program env f) :
    Yields (fun _ => True) (planImage env f) fun p _ => Planned env f p := by
  refine .bind probeElf64_yields fun e => .intro fun s he => .pre ?_ fun _ _ => trivial
  obtain ⟨rfl, -⟩ := he
  have hscan := scanHeaders_yields env hf.toLoadable (ehdrOf f) (ehdrOf f).ePhnum 0
    ⟨none, 0, false, 0xffffffff, 0, 0, 0, 0⟩ (zero_add _)
    ⟨fun _ h => (by cases h), fun _ i hi => absurd hi (Nat.not_lt_zero i), fun h => absurd rfl h⟩
    fun _ => ⟨Nat.zero_le _, fun i hi => absurd hi (Nat.not_lt_zero i)⟩
  rw [phoffOf_zero] at hscan
  refine .bind hscan fun c => .intro fun s hc => .pre ?_ fun _ _ => trivial
  obtain ⟨hnamed, hspan⟩ := hc
  have hinterp : ∀ p g, c.interp = some p → env.openImage p = some g → LoadableInterp g := by
    intro p g hp hg
    obtain ⟨i, hi, hpt, rfl⟩ := hnamed.interp p hp
    exact hf.interp i hi hpt g hg
  refine .bind (openInterp_yields hinterp) fun i => .intro fun s hi => .pre ?_ fun _ _ => trivial
  obtain ⟨hnone, hi⟩ := hi
  have hok : ∀ j, i = some j → InterpOk j := fun j hj => (hi j hj).1
  refine .bind (chooseBias_yields _ (fun hdyn => (hspan hdyn).1) hok) fun bias => .pure ?_
  intro s hbias
  refine ⟨rfl, hnamed, hspan, hnone, hok, fun j hj => ?_, hbias.1, hbias.2⟩
  obtain ⟨-, p, hp, hopen⟩ := hi j hj
  obtain ⟨k, hk, hkpt, rfl⟩ := hnamed.interp p hp
  exact ⟨k, hk, hkpt, hopen⟩

variable {p : Plan}

/-- The segments of the image are placed in the window by the bias that was
chosen. -/
theorem Planned.inWindow (h : Planned env f p) (hf : Program env f) : InWindow f p.bias := by
  refine ⟨hf.toLoadable, ?_⟩
  by_cases hdyn : (ehdrOf f).eType = etDyn
  · obtain ⟨hlo, hhi⟩ := h.moved hdyn
    obtain ⟨-, hspan⟩ := h.span hdyn
    -- the segment at 0 makes the lowest address 0
    obtain ⟨k, hk, hkpt, hkzero⟩ := hf.moved hdyn
    have hmin : p.scan.minV = 0 := by
      have hle := (hspan k hk hkpt).1
      omega
    rw [hmin, Nat.sub_zero] at hhi
    exact hf.placed_moved hlo hhi fun i hi hpt => (hspan i hi hpt).2
  · rw [h.fixed hdyn]
    exact hf.placed_fixed hdyn

/-- Without an interpreter there is no bias or no dynamic section, so no
relocations are applied. -/
theorem Planned.noRelocs (h : Planned env f p) (hf : Program env f) (hnone : p.interp = none) :
    applyRelocs env p.bias p.scan.dynVaddr = pure () := by
  have hno := h.named.noInterp (h.noInterp.mp hnone)
  refine if_pos ?_
  by_cases hdyn : (ehdrOf f).eType = etDyn
  · obtain ⟨k, hk, hkpt⟩ | hstatic := hf.relocs hdyn
    · exact absurd hkpt (hno k hk)
    · refine .inr (by_contra fun hd => ?_)
      obtain ⟨k, hk, hkpt⟩ := h.named.dynamic hd
      exact hstatic k hk hkpt
  · exact .inl (h.fixed hdyn)

/-- The image gets pages that it can take. -/
theorem Planned.takes (h : Planned env f p) (hf : Program env f) {v : Nat}
    (hv : (segments f p.bias).Page v) : Takes f v := by
  obtain ⟨i, hi, hl, hpage⟩ := hv
  refine ⟨((h.inWindow hf).placed i hi hl).imagePage hpage, ?_⟩
  rw [if_pos hf.elf64.2]
  by_cases hdyn : (ehdrOf f).eType = etDyn
  · exact .inl hdyn
  · rw [h.fixed hdyn] at hpage
    exact .inr (.inl ⟨i, hi, hl, hpage⟩)

/-- So does the interpreter, which is mapped behind the end of the image. -/
theorem Planned.takes_interp (h : Planned env f p) (hf : Program env f) {i : Interp}
    (hi : p.interp = some i) (hends : (segments f p.bias).EndsTo (ehdrOf f).ePhnum imageEnd)
    {base : Nat} (habove : imageEnd ≤ base / pageSize * pageSize)
    (hbase : ∀ j < (ehdrOf i.file).ePhnum, (phdrOf i.file j).pType = ptLoad →
      base ≤ segmentAt (sub32 base i.minV) (phdrOf i.file j))
    (hin : InWindow i.file (sub32 base i.minV)) {v : Nat}
    (hv : (segments i.file (sub32 base i.minV)).Page v) : Takes f v := by
  obtain ⟨j, hj, hl, hpage⟩ := hv
  refine ⟨(hin.placed j hj hl).imagePage hpage, ?_⟩
  rw [if_pos hf.elf64.2]
  by_cases hdyn : (ehdrOf f).eType = etDyn
  · exact .inl hdyn
  obtain ⟨k, hk, hkpt, -⟩ := h.opened i hi
  refine .inr (.inr ⟨⟨k, hk, hkpt⟩, fun m hm hload => ?_⟩)
  -- the page is not below `base`, and the segment not above the end of the image
  have hend := hends.1 m hm hload
  rw [h.fixed hdyn] at hend
  have hlow : base / pageSize ≤ v := Nat.le_trans (Nat.div_le_div_right (hbase j hj hl.1)) hpage.1
  exact Nat.le_trans hend (Nat.le_trans habove (Nat.mul_le_mul_right _ hlow))

/-- The interpreter comes with a segment of the image below it. -/
theorem Planned.start_le (h : Planned env f p) (hf : Program env f) {i : Interp}
    (hi : p.interp = some i) (hends : (segments f p.bias).EndsTo (ehdrOf f).ePhnum imageEnd) :
    userVaddrStart ≤ imageEnd := by
  obtain ⟨k, hk, hkpt, -⟩ := h.opened i hi
  obtain ⟨j, hj, hl⟩ := hf.segment ⟨k, hk, hkpt⟩
  exact (h.inWindow hf).placed.start_le hends hj hl

/-- What follows the segments: the interpreter, or no relocations. -/
theorem mapRest_inside (hf : Program env f) (h : Planned env f p)
    (hends : (segments f p.bias).EndsTo (ehdrOf f).ePhnum imageEnd) :
    Keeps (Inside (Takes f) nothing) (mapRest env p.interp p.bias p.scan.dynVaddr imageEnd) := by
  have hK := inside_kept (W := Takes f) fun v hv => hv.1
  cases hi : p.interp with
  | none =>
    unfold mapRest
    rw [h.noRelocs hf hi]
    exact .bind .pure fun _ => .pure
  | some i =>
    refine .bind (mapInterp_rule (h.interp i hi) (h.start_le hf hi hends)
      ((h.inWindow hf).placed.stop_le hends) (fun hx => hK.reading hx) (fun _ _ hs => hs)
      fun base habove hbase hin => ?_) fun r => .pure
    refine .bind (mapImage64_kept hK hin ?_ (fun v => h.takes_interp hf hi hends habove hbase hin)
      fun _ _ => trivial) fun stop => .pure fun s hs => hK.mono hs.2 fun _ hv => hv.elim
    rw [(h.interp i hi).dyn]
    rfl

/-- The ids are no access. -/
theorem Inside.ids {s t : Caller} (h : Inside W P s) (hspace : t.space = s.space)
    (htrace : t.trace = .ids :: s.trace) : Inside W P t := by
  refine ⟨?_, fun v hv hp hw => ?_, fun v hv => ⟨(h.known v hv).1, ?_⟩⟩
  · rw [htrace]
    exact ⟨trivial, h.confined⟩
  · rw [hspace] at hp hw
    rw [htrace]
    exact List.mem_cons_of_mem _ (h.mapped v hv hp hw)
  · rw [htrace]
    exact List.mem_cons_of_mem _ (h.known v hv).2

/-- The ids are no part of the image. -/
theorem setIds_inside : Keeps (Inside W P) (setIds f) := by
  refine .modify fun s hs => ?_
  split
  · have huser : Inside W P (takeUser f s) := by
      unfold takeUser
      split
      · exact hs.ids rfl rfl
      · exact hs
    unfold takeGroup
    split
    · exact huser.ids rfl rfl
    · exact huser
  · exact hs

/-- A 64-bit program maps and stores inside of its image. -/
theorem load64_inside (hf : Program env f) :
    Keeps (Inside (Takes f) nothing) (load64 env f) := by
  have hK := inside_kept (W := Takes f) fun v hv => hv.1
  refine Triple.bind (reading_planImage.triple (fun hx => hK.reading hx) (fun _ _ hs => hs)
    (planImage_yields hf)) fun p => .fact fun hp => ?_
  unfold mapPlanned
  rw [hp.ehdr]
  refine .bind (mapImage64_kept hK (hp.inWindow hf) rfl (fun v => hp.takes hf)
    fun _ _ => trivial) fun imageEnd => .fact fun hends => ?_
  refine .bind ((mapRest_inside hf hp hends).pre fun s hs => hK.mono hs fun _ hv => hv.elim)
    fun r => ?_
  exact .bind setIds_inside fun _ => .bind (hK.reading reading_finishImage) fun _ => Keeps.pure

/-! ### 32-bit images -/

/-- `load32` starts behind the 16 bytes that `load` has read. Its header is
refused, or the image is mapped. -/
theorem load32_rule (hI : ∀ {α : Type} {x : LoadM α}, Reading x → Keeps I x)
    (hE : ∀ e s, I s → E e s) {Q : Image → Caller → Prop}
    (hrest : ehdr32Ok (fun k => f.content (16 + k)) (ehdr32Of f) = true →
      Triple I (mapImage32 env f (ehdr32Of f)) Q E) :
    Triple (fun s => s.pos .image = 16 ∧ I s) (load32 env f) Q E := by
  refine .bind (((hI reading_readStruct).and_yields readStruct_yields).stop hE) fun b => ?_
  refine .intro fun s hs => ?_
  obtain ⟨⟨rfl, -⟩, hs⟩ := hs
  refine .pre (P := I) ?_ fun t ht => ht ▸ hs
  exact .bind (reading_require.triple hI hE (require_yields.post fun _ _ h => h.1))
    fun _ => .fact hrest

/-- The pages of a 32-bit program. -/
theorem Program32.takes (hf : Program32 f) {v : Nat} (hv : (segments32 f).Page v) : Takes f v := by
  obtain ⟨i, hi, hl, hpage⟩ := hv
  refine ⟨(hf.placed i hi hl).imagePage hpage, ?_⟩
  rw [if_neg (by rw [hf.elf32.2]; decide)]
  exact ⟨i, hi, hl, hpage⟩

/-- A 32-bit program maps and stores inside of its image. -/
theorem mapImage32_inside (hf : Program32 f) :
    Keeps (Inside (Takes f) nothing) (mapImage32 env f (ehdr32Of f)) := by
  have hK := inside_kept (W := Takes f) fun v hv => hv.1
  have hloop := loadHeaders32_kept (P := nothing) env hK hf (ehdr32Of f)
    (fun v => hf.takes) (fun _ _ => trivial) (ehdr32Of f).ePhnum 0 ⟨false, 0, 0, 0, 0⟩ (zero_add _)
    Segments.endsTo_zero
  refine .bind (hloop.weaken (fun s hs => hK.mono hs ?_) (fun _ s hs => hK.mono hs.2 ?_)
    fun _ _ hs => hs) fun c => .bind (hK.reading reading_finishImage) fun _ => Keeps.pure
  · rintro v (⟨i, hi, -⟩ | hv)
    · exact absurd hi (Nat.not_lt_zero i)
    · exact hv
  · exact fun _ hv => hv.elim

/-! ### The loader -/

/-- The formats exclude each other. -/
theorem not_isPe_of_isElf (h : isElf f.content = true) : ¬ IsPe f := by
  rintro ⟨h0, -⟩
  simp [isElf, h0] at h

theorem Harmless.not_isPe (h : Harmless env f) : ¬ IsPe f := by
  rcases h with h | h | h
  · exact not_isPe_of_isElf h.elf64.1
  · exact not_isPe_of_isElf h.elf32.1
  · exact h.1

/-- `load` of a file that is not a PE image goes to one of the two ELF
loaders, or fails. -/
theorem load_rule {path : List UInt8} (hopen : env.openImage path = some f) (hpe : ¬ IsPe f)
    (hI : ∀ {α : Type} {x : LoadM α}, Reading x → Keeps I x) (hE : ∀ e s, I s → E e s)
    {Q : Image → Caller → Prop}
    (h64 : isElf f.content = true → f.content 4 = 2 → Triple I (load64 env f) Q E)
    (h32 : isElf f.content = true → f.content 4 = 1 →
      Triple (fun s => s.pos .image = 16 ∧ I s) (load32 env f) Q E) :
    Triple I (load env path) Q E := by
  unfold load
  rw [hopen]
  have hpos : Yields (ε := Stop) (fun _ => True)
      (modify fun s : Caller => { s with pos := fun d => if d = .image then 0 else s.pos d })
      fun _ s => s.pos .image = 0 := .modify fun _ _ => rfl
  refine .bind (((hI reading_setPos).and_yields hpos).weaken (fun _ hs => ⟨trivial, hs⟩)
    (fun _ _ hs => hs) hE) fun _ => ?_
  refine .bind (((hI reading_readStruct).and_yields readStruct_yields).stop hE) fun ident => ?_
  refine .intro fun s hs => ?_
  have hzero : (fun k => f.content (0 + k)) = f.content := funext fun k => by rw [zero_add]
  obtain ⟨⟨hident, hpos⟩, hs⟩ := hs
  rw [hzero] at hident
  subst hident
  refine .pre (P := fun s => s.pos .image = 16 ∧ I s) ?_ fun t ht => ht ▸ ⟨hpos, hs⟩
  refine .ite (fun h => absurd h hpe) fun _ => .ite (fun _ => .throw fun t ht => hE _ t ht.2)
    fun hno => ?_
  obtain ⟨helf, hclass⟩ := not_or.mp hno
  have helf := Decidable.not_not.mp helf
  refine .ite (fun h2 => (h64 helf h2).pre fun _ ht => ht.2) fun h2 => h32 helf ?_
  exact Decidable.not_not.mp fun h1 => hclass ⟨h1, h2⟩

/-- An image with fixed addresses and one segment of 16 bytes at `vaddr`. -/
def imageAt (vaddr : Nat) : File where
  content := puts (fun _ => 0)
    [⟨0, 4, 0x464c457f⟩, ⟨4, 1, 2⟩, ⟨16, 2, etExec⟩, ⟨18, 2, 62⟩, ⟨20, 4, 1⟩, ⟨32, 8, 64⟩,
      ⟨54, 2, 56⟩, ⟨56, 2, 1⟩, ⟨64, 4, ptLoad⟩, ⟨80, 8, vaddr⟩, ⟨96, 8, 16⟩, ⟨104, 8, 16⟩]
  size := 0x1000
  mode := 0x81ed
  uid := 0
  gid := 0

/-- Memory for everything, and one file. -/
def oneFile (f : File) : Env where
  grant := fun _ => true
  limit := fun _ => 0x1000
  rand := fun _ => 0
  cowOk := fun _ => false
  openImage := fun path => if path = [0x2f] then some f else none
  peLoad := throw .failed
  rounds := 8
  pageDir := none
  bitmapPages := true

/-- A task without user pages. The first page of the kernel's heap is at
`0x40400000`. -/
def emptyCaller : Caller where
  hasSpace := true
  space :=
    { present := fun v => v == 0x40400
      user := fun _ => false
      writable := fun v => v == 0x40400
      mem := fun _ => 0 }
  bitmap := ⟨true, bitmapBits, fun _ => false⟩
  uid := 0
  gid := 0
  euid := 0
  suid := 0
  egid := 0
  sgid := 0
  others := []
  pos := fun _ => 0
  allocs := 0
  reads := 0
  draws := 0
  trace := []

/-- None of its pages is in the window. -/
theorem vacant_emptyCaller (f : File) : Vacant f emptyCaller.space := by
  intro v hv hp
  have hceil : v < 0x40000 := hv.1.2
  have hat : v = 0x40400 := beq_iff_eq.mp hp
  omega

theorem noInterp_imageAt_start : ∀ i < (ehdrOf (imageAt 0x8048000)).ePhnum,
    (phdrOf (imageAt 0x8048000) i).pType ≠ ptInterp := by
  decide +kernel

/-- The sample file is a program. -/
theorem program_imageAt_start : Program (oneFile (imageAt 0x8048000)) (imageAt 0x8048000) where
  table := by decide +kernel
  fits := by decide +kernel
  elf64 := by decide +kernel
  segment := fun ⟨i, hi, hpt⟩ => absurd hpt (noInterp_imageAt_start i hi)
  moved := fun h => absurd h (by decide +kernel)
  relocs := fun h => absurd h (by decide +kernel)
  interp := fun i hi hpt => absurd hpt (noInterp_imageAt_start i hi)

/-- The accesses of a load. -/
def traceOf : EStateM.Result Stop Caller Image → List Touch
  | .ok _ s => s.trace
  | .error _ s => s.trace

/-- One run that leaves the image refutes the triple. -/
theorem not_triple_of_traceOf {P : Caller → Prop} {x : LoadM Image} {s : Caller} (hs : P s)
    (hbad : ¬ Confined (traceOf (x s))) :
    ¬ Triple P x (fun _ s => Confined s.trace) fun _ s => Confined s.trace := by
  intro h
  have hx := h s hs
  revert hx hbad
  cases x s <;> exact id

end CoreZ.Proofs.Userprog.Loader
