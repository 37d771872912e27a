import CoreZ.Proofs.Userprog.Loader.Inside

/-!
# `CoreZ.Proofs.Userprog.Loader.Headers`: what the loader reads from an image

The loader goes through the program headers up to three times: `load64` for
the interpreter, the dynamic section and the range of the image,
`probe_image64` for the range of the interpreter, and `map_image64`. Each
loop has a lemma from header `j` on, by induction on the headers that are
left. The last part says what load bias the loader chooses.

These programs only read files. What they return is stated without an
invariant; a `Reading` program keeps it. The range of an image matters only
if it is position-independent: then all its `PT_LOAD`s are loaded, so they
fit.
-/

set_option autoImplicit false

namespace CoreZ.Proofs.Userprog.Loader

open CoreZ.Lib (Yields Keeps)
open CoreZ.Userprog.Exec

/-! ### The headers of an image -/

/-- Nothing else is kept. -/
theorem reading_true {α : Type} {x : LoadM α} (_ : Reading x) : Keeps (fun _ => True) x :=
  Yields.any x

variable {env : Env} {f : File} {fd : Fd} {j : Nat} {c : Scan}

/-- The header is only read. -/
theorem reading_probeElf64 : Reading (probeElf64 env f fd) := by
  refine reading_lseek.bind fun _ => reading_readStruct.bind fun ident => ?_
  refine reading_require.bind fun _ => reading_lseek.bind fun _ => ?_
  exact reading_readStruct.bind fun b => reading_require.bind fun _ => .pure

/-- Behind a test its condition holds. -/
theorem require_yields {c : Bool} {P : Caller → Prop} :
    Yields P (require c) fun _ s => c = true ∧ P s :=
  .ite (fun hc => .pure fun _ hs => ⟨hc, hs⟩) fun _ => .throw fun _ _ => trivial

/-- The header of the file, and it passes the tests. -/
theorem probeElf64_yields {f : File} {fd : Fd} :
    Yields (fun _ => True) (probeElf64 env f fd) fun e _ =>
      e = ehdrOf f ∧ ehdr64Ok e = true := by
  refine readAt f fd (by decide) reading_true (fun _ _ hs => hs) ?_
  refine .bind require_yields fun _ => .pre ?_ fun _ _ => trivial
  refine readAt f fd (by decide) reading_true (fun _ _ hs => hs) ?_
  refine .bind require_yields fun _ => .pure ?_
  rintro s ⟨hok, -⟩
  exact ⟨rfl, hok⟩

/-- The segments from header `j` on lie between `lo` and `hi`. -/
def Spans (f : File) (j lo hi : Nat) : Prop :=
  ∀ i, j ≤ i → i < (ehdrOf f).ePhnum → (phdrOf f i).pType = ptLoad →
    lo ≤ u32 (phdrOf f i).pVaddr ∧ u32 (phdrOf f i).pVaddr + (phdrOf f i).pMemsz ≤ hi

/-- The end of a segment that fits does not wrap, also if its address is
truncated. -/
theorem Fits.u32_end {ph : Phdr} (h : Fits ph) :
    u32 (ph.pVaddr + ph.pMemsz) = u32 ph.pVaddr + ph.pMemsz := by
  have hstop := h.stop
  unfold userLowCeiling at hstop
  unfold u32 at *
  omega

/-- A header that is not a `PT_LOAD` adds nothing to the span. -/
theorem Spans.skip {lo hi : Nat} (hpt : (phdrOf f j).pType ≠ ptLoad) (h : Spans f (j + 1) lo hi) :
    Spans f j lo hi := by
  intro i hji hi hload
  have hne : i ≠ j := by
    rintro rfl
    exact hpt hload
  exact h i (by omega) hi hload

/-- A header that lies in the span is added to it. -/
theorem Spans.load {lo hi : Nat} (hlo : lo ≤ u32 (phdrOf f j).pVaddr)
    (hhi : u32 (phdrOf f j).pVaddr + (phdrOf f j).pMemsz ≤ hi) (h : Spans f (j + 1) lo hi) :
    Spans f j lo hi := by
  intro i hji hi hload
  by_cases heq : i = j
  · rw [heq]
    exact ⟨hlo, hhi⟩
  · exact h i (by omega) hi hload

theorem reading_probeHeaders {n pho lo hi : Nat} :
    Reading (probeHeaders env f fd n pho lo hi) := by
  induction n generalizing pho lo hi with
  | zero => exact .pure
  | succ n ih =>
    refine reading_lseek.bind fun _ => reading_readStruct.bind fun b => ?_
    exact .ite ih ih

variable (env) in
/-- The loop of `probe_image64`, from header `j` on. -/
theorem probeHeaders_yields (hf : Loadable f) (hdyn : (ehdrOf f).eType = etDyn) (fd : Fd)
    (n j lo hi : Nat) (hj : j + n = (ehdrOf f).ePhnum) (hhi : hi ≤ userLowCeiling) :
    Yields (fun _ => True) (probeHeaders env f fd n (phoffOf f j) lo hi) fun r _ =>
      r.1 ≤ lo ∧ hi ≤ r.2 ∧ r.2 ≤ userLowCeiling ∧ Spans f j r.1 r.2 := by
  induction n generalizing j lo hi with
  | zero =>
    refine .pure fun s _ => ⟨Nat.le_refl _, Nat.le_refl _, hhi, ?_⟩
    intro i hji hi _
    omega
  | succ n ih =>
    refine readAt f fd (hf.phoff_lt hj) reading_true (fun _ _ hs => hs) ?_
    refine .pre (P := fun _ => True) ?_ fun _ _ => trivial
    rw [parsePhdr64_at, hf.phoff_next hj]
    refine .ite (fun hskip => ?_) fun hload => ?_
    · refine (ih _ _ _ (by omega) hhi).post fun r _ hr => ?_
      exact ⟨hr.1, hr.2.1, hr.2.2.1, hr.2.2.2.skip hskip⟩
    · have hfit := hf.fits j (by omega) ⟨Decidable.not_not.mp hload, .inl hdyn⟩
      have hstop := hfit.stop
      rw [hfit.u32_end]
      refine (ih _ _ _ (by omega) (Nat.max_le.mpr ⟨hhi, by omega⟩)).post fun r _ hr => ?_
      have hmin := Nat.le_min.mp hr.1
      have hmax := Nat.max_le.mp hr.2.1
      exact ⟨hmin.1, hmax.1, hr.2.2.1, hr.2.2.2.load hmin.2 hmax.2⟩

theorem reading_probeImage64 : Reading (probeImage64 env f fd) := by
  refine reading_probeElf64.bind fun e => reading_probeHeaders.bind fun r => ?_
  exact reading_require.bind fun _ => .pure

/-- The header and the span of all segments. -/
theorem probeImage64_yields (hf : Loadable f) {fd : Fd} :
    Yields (fun _ => True) (probeImage64 env f fd) fun r _ =>
      r.1 = ehdrOf f ∧ ((ehdrOf f).eType = etDyn →
        r.2.1 + r.2.2 ≤ userLowCeiling ∧ Spans f 0 r.2.1 (r.2.1 + r.2.2)) := by
  refine .bind probeElf64_yields fun e => ?_
  refine .intro fun s hs => ?_
  obtain ⟨rfl, -⟩ := hs
  by_cases hdyn : (ehdrOf f).eType = etDyn
  · have hloop := probeHeaders_yields env hf hdyn fd (ehdrOf f).ePhnum 0 0xffffffff 0 (zero_add _)
      (Nat.zero_le _)
    rw [phoffOf_zero] at hloop
    refine .bind (hloop.pre fun _ _ => trivial) fun r => ?_
    refine .bind require_yields fun _ => .pure ?_
    rintro t ⟨hlt, -, -, hceil, hspan⟩
    have hlt : r.1 < r.2 := of_decide_eq_true hlt
    have hsum : r.1 + (r.2 - r.1) = r.2 := by omega
    rw [hsum]
    exact ⟨rfl, fun _ => ⟨hceil, hspan⟩⟩
  · refine .bind (Yields.any _) fun r => .bind (Yields.any _) fun _ => .pure fun _ _ => ?_
    exact ⟨rfl, fun h => absurd h hdyn⟩

/-- What the first `j` headers say about the interpreter and the dynamic
section. -/
structure Named (f : File) (j : Nat) (c : Scan) : Prop where
  interp : ∀ path, c.interp = some path →
    ∃ i < j, (phdrOf f i).pType = ptInterp ∧ path = interpPath f i
  noInterp : c.interp = none → ∀ i < j, (phdrOf f i).pType ≠ ptInterp
  dynamic : c.dynVaddr ≠ 0 → ∃ i < j, (phdrOf f i).pType = ptDynamic

/-- The segments of the first `j` headers lie between `lo` and `hi`, which
is not above the ceiling. -/
def SpansTo (f : File) (j lo hi : Nat) : Prop :=
  hi ≤ userLowCeiling ∧ ∀ i < j, (phdrOf f i).pType = ptLoad →
    lo ≤ u32 (phdrOf f i).pVaddr ∧ u32 (phdrOf f i).pVaddr + (phdrOf f i).pMemsz ≤ hi

/-- A header that is not loaded adds nothing. -/
theorem SpansTo.skip {lo hi : Nat} (h : SpansTo f j lo hi) (hpt : (phdrOf f j).pType ≠ ptLoad) :
    SpansTo f (j + 1) lo hi := by
  refine ⟨h.1, fun i hij hload => ?_⟩
  obtain hlt | rfl : i < j ∨ i = j := by omega
  · exact h.2 i hlt hload
  · exact absurd hload hpt

/-- A segment that fits widens the span. -/
theorem SpansTo.load {lo hi : Nat} (h : SpansTo f j lo hi) (hfit : Fits (phdrOf f j)) :
    SpansTo f (j + 1) (min lo (u32 (phdrOf f j).pVaddr))
      (max hi (u32 (phdrOf f j).pVaddr + (phdrOf f j).pMemsz)) := by
  have hstop := hfit.stop
  refine ⟨Nat.max_le.mpr ⟨h.1, by omega⟩, fun i hij hload => ?_⟩
  obtain hlt | rfl : i < j ∨ i = j := by omega
  · have hold := h.2 i hlt hload
    omega
  · omega

/-- A header that names no interpreter. -/
theorem Named.other (h : Named f j c) (hi : (phdrOf f j).pType ≠ ptInterp) : Named f (j + 1) c where
  interp := by
    intro path hpath
    obtain ⟨i, hij, hpt, hp⟩ := h.interp path hpath
    exact ⟨i, by omega, hpt, hp⟩
  noInterp := by
    intro hnone i hij
    obtain hlt | rfl : i < j ∨ i = j := by omega
    · exact h.noInterp hnone i hlt
    · exact hi
  dynamic := by
    intro hdyn
    obtain ⟨i, hij, hpt⟩ := h.dynamic hdyn
    exact ⟨i, by omega, hpt⟩

/-- What a segment adds to the scan. -/
theorem Scan.load_interp (c : Scan) {e : Ehdr} {ph : Phdr} :
    (c.load e ph).interp = c.interp ∧ (c.load e ph).dynVaddr = c.dynVaddr ∧
      (c.load e ph).minV = min c.minV (u32 ph.pVaddr) ∧
      (c.load e ph).maxE = max c.maxE (u32 (ph.pVaddr + ph.pMemsz)) := by
  unfold Scan.load
  split
  · exact ⟨rfl, rfl, rfl, rfl⟩
  · exact ⟨rfl, rfl, rfl, rfl⟩

/-- The path is read from the file. -/
theorem readInterpPath_yields {f : File} {ph : Phdr} {off : Nat} :
    Yields (fun s => s.pos .image = off) (readInterpPath env f .image ph)
      fun path _ => path =
        cstring (fun k => f.content
          ((if u32 ph.pOffset < 0x80000000 then u32 ph.pOffset else off) + k))
          (u32 ph.pFilesz - 1) := by
  refine .bind require_yields fun _ => .fact fun _ => ?_
  refine .bind (Q := fun _ s => s.pos .image =
    if u32 ph.pOffset < 0x80000000 then u32 ph.pOffset else off) (.modify ?_) fun _ => ?_
  · intro s hs
    have hidem : u32 (u32 ph.pOffset) = u32 ph.pOffset := Nat.mod_mod _ _
    show (if Fd.image = Fd.image ∧ u32 (u32 ph.pOffset) < 0x80000000 then u32 (u32 ph.pOffset)
      else s.pos .image) = _
    rw [hidem, hs]
    by_cases hlt : u32 ph.pOffset < 0x80000000
    · rw [if_pos ⟨rfl, hlt⟩, if_pos hlt]
    · rw [if_neg fun h => hlt h.2, if_neg hlt]
  · refine .bind readStruct_yields fun b => ?_
    refine .bind require_yields fun _ => .pure ?_
    rintro s ⟨-, rfl, -⟩
    rfl

/-- The `if` chain of the first loop of `load64`, at header `j`. -/
theorem scanHeader_yields (hoff : phoffOf f j + phdr64Size < 0x100000000) (h : Named f j c) :
    Yields (fun s => s.pos .image = u32 (phoffOf f j + phdr64Size))
      (scanHeader env f (phdrOf f j) c)
      fun c' _ => Named f (j + 1) c' ∧ c'.minV = c.minV ∧ c'.maxE = c.maxE := by
  have hpos : u32 (phoffOf f j + phdr64Size) = phoffOf f j + phdr64Size := Nat.mod_eq_of_lt hoff
  refine .ite (fun hinterp => ?_) fun hinterp => ?_
  · refine .bind readInterpPath_yields fun path => .pure ?_
    rintro s rfl
    refine ⟨⟨?_, fun hnone => (by cases hnone), ?_⟩, rfl, rfl⟩
    · rintro path ⟨⟩
      refine ⟨j, Nat.lt_succ_self j, hinterp, ?_⟩
      rw [hpos]
      rfl
    · intro hdyn
      obtain ⟨i, hij, hpt⟩ := h.dynamic hdyn
      exact ⟨i, by omega, hpt⟩
  have hnext := h.other hinterp
  refine .ite (fun hdynamic => ?_) fun _ => .ite (fun _ => ?_) fun _ => ?_
  · refine .pure fun s _ => ⟨⟨hnext.interp, hnext.noInterp, ?_⟩, rfl, rfl⟩
    exact fun _ => ⟨j, Nat.lt_succ_self j, hdynamic⟩
  · refine .bind (Yields.any _) fun isLinux => .pure fun s _ => ?_
    exact ⟨⟨hnext.interp, hnext.noInterp, hnext.dynamic⟩, rfl, rfl⟩
  · exact .pure fun s _ => ⟨hnext, rfl, rfl⟩

variable (env) in
/-- The first loop of `load64`, from header `j` on. -/
theorem scanHeaders_yields (hf : Loadable f) (e : Ehdr) (n j : Nat) (c : Scan)
    (hj : j + n = (ehdrOf f).ePhnum) (hnamed : Named f j c)
    (hspan : (ehdrOf f).eType = etDyn → SpansTo f j c.minV c.maxE) :
    Yields (fun _ => True) (scanHeaders env f e n (phoffOf f j) c) fun c' _ =>
      Named f (ehdrOf f).ePhnum c' ∧
        ((ehdrOf f).eType = etDyn → SpansTo f (ehdrOf f).ePhnum c'.minV c'.maxE) := by
  induction n generalizing j c with
  | zero =>
    obtain rfl : j = (ehdrOf f).ePhnum := by omega
    exact .pure fun s _ => ⟨hnamed, hspan⟩
  | succ n ih =>
    have hoff := hf.phoff_lt hj
    refine readAt f .image hoff reading_true (fun _ _ hs => hs) ?_
    rw [parsePhdr64_at, hf.phoff_next hj]
    refine .bind ((scanHeader_yields (by unfold phdr64Size; omega) hnamed).pre
      fun _ hs => hs.1) fun c' => ?_
    refine .intro fun s hs => .pre ?_ fun _ _ => trivial
    obtain ⟨hnamed', hmin, hmax⟩ := hs
    rw [← hmin, ← hmax] at hspan
    split
    next hload =>
      obtain ⟨hi, hd, hlo, hhi⟩ := Scan.load_interp c'
      refine ih (j + 1) _ (by omega) ⟨?_, ?_, ?_⟩ fun hdyn => ?_
      · rw [hi]
        exact hnamed'.interp
      · rw [hi]
        exact hnamed'.noInterp
      · rw [hd]
        exact hnamed'.dynamic
      · have hfit := hf.fits j (by omega) ⟨hload, .inl hdyn⟩
        rw [hlo, hhi, hfit.u32_end]
        exact (hspan hdyn).load hfit
    next hskip => exact ih (j + 1) _ (by omega) hnamed' fun hdyn => (hspan hdyn).skip hskip

theorem reading_readInterpPath {ph : Phdr} : Reading (readInterpPath env f fd ph) := by
  refine reading_require.bind fun _ => reading_lseek.bind fun _ => ?_
  exact reading_readStruct.bind fun b => reading_require.bind fun _ => .pure

theorem reading_scanHeader {ph : Phdr} : Reading (scanHeader env f ph c) := by
  refine .ite (reading_readInterpPath.bind fun _ => .pure) ?_
  refine .ite .pure (.ite ?_ .pure)
  exact reading_scanNoteAbi.bind fun _ => .pure

/-- By induction on the number of headers. -/
theorem reading_scanHeaders {e : Ehdr} {n pho : Nat} :
    Reading (scanHeaders env f e n pho c) := by
  induction n generalizing pho c with
  | zero => exact .pure
  | succ n ih =>
    refine reading_lseek.bind fun _ => reading_readStruct.bind fun b => ?_
    exact reading_scanHeader.bind fun c' => ih

/-! ### The interpreter and the load bias -/

theorem reading_openInterp {path : Option (List UInt8)} : Reading (openInterp env path) := by
  cases path with
  | none => exact .pure
  | some path =>
    dsimp only [openInterp]
    cases env.openImage path with
    | none => exact .throw
    | some f =>
      refine reading_setPos.bind fun _ => reading_probeImage64.bind fun r => ?_
      exact reading_require.bind fun _ => .pure

/-- What is known about an interpreter that was opened: it is
position-independent, and its segments lie in the range that was probed. -/
structure InterpOk (i : Interp) : Prop where
  loadable : LoadableInterp i.file
  ehdr : i.ehdr = ehdrOf i.file
  dyn : (ehdrOf i.file).eType = etDyn
  stop : i.minV + i.span ≤ userLowCeiling
  spans : Spans i.file 0 i.minV (i.minV + i.span)

/-- The interpreter is the file of that name, and it can be loaded. -/
theorem openInterp_yields {path : Option (List UInt8)}
    (h : ∀ p g, path = some p → env.openImage p = some g → LoadableInterp g) :
    Yields (fun _ => True) (openInterp env path) fun r _ =>
      (r = none ↔ path = none) ∧ ∀ i, r = some i →
        InterpOk i ∧ ∃ p, path = some p ∧ env.openImage p = some i.file := by
  cases path with
  | none => exact .pure fun s _ => ⟨by simp, fun i hi => by cases hi⟩
  | some path =>
    dsimp only [openInterp]
    cases hopen : env.openImage path with
    | none => exact .throw fun _ _ => trivial
    | some g =>
      have hg := h path g rfl hopen
      refine .bind (Q := fun _ _ => True) (.modify fun _ _ => trivial) fun _ => ?_
      refine .bind (probeImage64_yields hg.toLoadable) fun r => ?_
      refine .bind require_yields fun _ => .pure ?_
      rintro s ⟨hdyn, hehdr, hrange⟩
      rw [hehdr, beq_iff_eq] at hdyn
      obtain ⟨hstop, hspans⟩ := hrange hdyn
      refine ⟨by simp, ?_⟩
      rintro i ⟨⟩
      exact ⟨⟨hg, hehdr, hdyn, hstop, hspans⟩, path, rfl, hopen⟩

/-- The bias is chosen before anything is mapped. -/
theorem reading_chooseBias {e : Ehdr} {c : Scan} {i : Option Interp} :
    Reading (chooseBias env e c i) := by
  refine .ite (reading_require.bind fun _ => reading_require.bind fun _ => ?_) .pure
  exact reading_rand32.bind fun _ => .pure

/-- The reserved size covers the span of the image. -/
theorem span_le_reserveSize {i : Option Interp} (hceil : c.maxE ≤ userLowCeiling)
    (hi : ∀ j, i = some j → InterpOk j) : c.maxE - c.minV ≤ reserveSize c i := by
  cases i with
  | none => exact Nat.le_refl _
  | some i =>
    have hstop := (hi i rfl).stop
    unfold userLowCeiling at hstop hceil
    unfold reserveSize pagesUp u32 pageSize
    dsimp only
    omega

/-- The load bias of a position-independent image keeps it in the window;
an image with fixed addresses has none. -/
theorem chooseBias_yields (e : Ehdr) {i : Option Interp}
    (hceil : e.eType = etDyn → c.maxE ≤ userLowCeiling) (hi : ∀ j, i = some j → InterpOk j) :
    Yields (fun _ => True) (chooseBias env e c i) fun bias _ =>
      (e.eType ≠ etDyn → bias = 0) ∧
        (e.eType = etDyn → userVaddrStart ≤ bias ∧ bias + (c.maxE - c.minV) < userLowCeiling) := by
  refine .ite (fun hdyn => ?_) fun hdyn => ?_
  · refine .bind require_yields fun _ => .bind require_yields fun _ => ?_
    refine .fact fun hfits => ?_
    have hfits := of_decide_eq_true hfits
    have hspan := span_le_reserveSize (hceil hdyn) hi
    refine .bind (Yields.any (rand32 env)) fun r => .pure ?_
    refine fun s _ => ⟨fun hne => absurd hdyn hne, fun _ => ⟨Nat.le_add_right _ _, ?_⟩⟩
    -- the random part is below what the reserved size leaves
    have hmod := Nat.mod_lt r (Nat.sub_pos_of_lt hfits)
    have hbase : pageBase (r % (userLowCeiling - userVaddrStart - reserveSize c i)) ≤
        r % (userLowCeiling - userVaddrStart - reserveSize c i) := Nat.div_mul_le_self _ _
    omega
  · exact .pure fun s _ => ⟨fun _ => rfl, fun h => absurd h hdyn⟩

end CoreZ.Proofs.Userprog.Loader
