import CoreZ.Userprog.Exec

/-!
# `CoreZ.Proofs.Userprog.Loader.Inside`: the pages that the ELF loader takes

`Confined` says what the accesses of a load may be: pages of the user image
window are mapped, and bytes are stored in pages that the loader has mapped
before.

An image is a table of `Segments`: which headers are loaded, where, and how
much of them is in the file. 64-bit and 32-bit images differ in how the table
is read off the file, and in the loop that goes through it. What such a loop
keeps is described by `Kept`: a family of invariants `K P`, where `P` are the
pages that the loader is known to have taken, with a rule for each step of
the loader. The page loop of `segment_load` adds to `P`, and the store behind
it uses what was added. `mapImage64_kept` and `loadHeaders32_kept` are the
results; the accesses (`Inside`) are one such family, the bytes of the pages
(`Zeroed`) another.

Programs that only read files (`Reading`) change the positions in the files
and the counters of the environment, and keep everything else.
-/

set_option autoImplicit false

namespace CoreZ.Proofs.Userprog.Loader

open CoreZ.Lib (Buf Triple Yields Keeps)
open CoreZ.Userprog.Exec
open List

/-! ### The property -/

/-- A page of the user image window. -/
def ImagePage (v : Nat) : Prop :=
  userVaddrStart / pageSize ≤ v ∧ v < userLowCeiling / pageSize
  deriving Decidable

/-- The access `t` is allowed after the accesses `before`. Nothing is asked
of the pages that are freed, and of the ids. -/
def Allowed (before : List Touch) : Touch → Prop
  | .map v => ImagePage v
  | .store a n => ∀ i < n, ImagePage ((a + i) / pageSize) ∧ .map ((a + i) / pageSize) ∈ before
  | .protect v => ImagePage v ∧ .map v ∈ before
  | .free _ => True
  | .ids => True

/-- Every access was allowed when it was made. -/
def Confined : List Touch → Prop
  | [] => True
  | t :: ts => Allowed ts t ∧ Confined ts

instance (before : List Touch) : (t : Touch) → Decidable (Allowed before t)
  | .map v => inferInstanceAs (Decidable (ImagePage v))
  | .store _ n => inferInstanceAs (Decidable (∀ i < n, _ ∧ _))
  | .protect _ => inferInstanceAs (Decidable (_ ∧ _))
  | .free _ => inferInstanceAs (Decidable True)
  | .ids => inferInstanceAs (Decidable True)

instance Confined.decidable : (ts : List Touch) → Decidable (Confined ts)
  | [] => inferInstanceAs (Decidable True)
  | _ :: ts =>
    have := Confined.decidable ts
    inferInstanceAs (Decidable (_ ∧ _))

/-! ### Segments -/

/-- The header of the file. -/
def ehdrOf (f : File) : Ehdr := parseEhdr64 f.content

/-- The program header with number `i`. -/
@[irreducible]
def phdrOf (f : File) (i : Nat) : Phdr :=
  parsePhdr64 fun k => f.content ((ehdrOf f).ePhoff + phdr64Size * i + k)

/-- The header of a 32-bit image, where `load32` reads it. -/
def ehdr32Of (f : File) : Ehdr := parseEhdr32 fun k => f.content (16 + k)

/-- The program header with number `i` of a 32-bit image. -/
@[irreducible]
def phdr32Of (f : File) (i : Nat) : Phdr :=
  parsePhdr32 fun k => f.content ((ehdr32Of f).ePhoff + phdr32Size * i + k)

/-- The segment is loaded: one of an image with fixed addresses has to start
in the user part. -/
def Loads (f : File) (ph : Phdr) : Prop :=
  ph.pType = ptLoad ∧ ((ehdrOf f).eType = etDyn ∨
    userVaddrStart ≤ u32 ph.pVaddr ∧ u32 ph.pVaddr < userStack3Vaddr)
  deriving Decidable

/-- The segment of a 32-bit image is loaded. -/
def Loads32 (ph : Phdr) : Prop := ph.pType = ptLoad ∧ inImageRange ph = true
  deriving Decidable

/-- The segments of an image: which of its headers are loaded, where they
are mapped, and their sizes in the file and in memory. -/
structure Segments where
  num : Nat
  loads : Nat → Prop
  start : Nat → Nat
  filesz : Nat → Nat
  memsz : Nat → Nat

/-- Where a segment is mapped. -/
def segmentAt (bias : Nat) (ph : Phdr) : Nat := u32 (u32 ph.pVaddr + bias)

/-- The segments of a 64-bit image with this load bias. -/
def segments (f : File) (bias : Nat) : Segments where
  num := (ehdrOf f).ePhnum
  loads i := Loads f (phdrOf f i)
  start i := segmentAt bias (phdrOf f i)
  filesz i := (phdrOf f i).pFilesz
  memsz i := (phdrOf f i).pMemsz

/-- The segments of a 32-bit image. -/
def segments32 (f : File) : Segments where
  num := (ehdr32Of f).ePhnum
  loads i := Loads32 (phdr32Of f i)
  start i := (phdr32Of f i).pVaddr
  filesz i := (phdr32Of f i).pFilesz
  memsz i := (phdr32Of f i).pMemsz

/-- The page holds a byte of the segment. A segment without memory takes a
page all the same. -/
def HoldsSegment (vaddr memsz v : Nat) : Prop :=
  vaddr / pageSize ≤ v ∧ v ≤ (vaddr + max 1 memsz - 1) / pageSize

namespace Segments

variable (g : Segments)

/-- The page is one of a segment among the first `j` headers. -/
def PageTo (j v : Nat) : Prop := ∃ i < j, g.loads i ∧ HoldsSegment (g.start i) (g.memsz i) v

/-- The page is one of a segment. -/
def Page (v : Nat) : Prop := g.PageTo g.num v

/-- The byte comes from the file. -/
def FileByte (a : Nat) : Prop :=
  ∃ i < g.num, g.loads i ∧ g.start i ≤ a ∧ a < g.start i + g.filesz i

/-- The segments among the first `j` headers end at `stop`, the last of
them; without any, `stop` is 0. -/
def EndsTo (j stop : Nat) : Prop :=
  (∀ i < j, g.loads i → g.start i + g.memsz i ≤ stop) ∧
    (stop = 0 ∨ ∃ i < j, g.loads i ∧ g.start i + g.memsz i = stop)

/-- The segment `i` lies in the window, with no more bytes in the file than
in memory. -/
structure PlacedAt (i : Nat) : Prop where
  file : g.filesz i ≤ g.memsz i
  start : userVaddrStart ≤ g.start i
  stop : g.start i + max 1 (g.memsz i) ≤ userLowCeiling

/-- All segments lie in the window. -/
def Placed : Prop := ∀ i < g.num, g.loads i → g.PlacedAt i

end Segments

/-! ### The condition -/

/-- A segment with no more bytes in the file than in memory, and an end that
fits below the ceiling. -/
@[mk_iff]
structure Fits (ph : Phdr) : Prop where
  file : ph.pFilesz ≤ ph.pMemsz
  stop : u32 ph.pVaddr + max 1 ph.pMemsz ≤ userLowCeiling

instance (ph : Phdr) : Decidable (Fits ph) := decidable_of_iff' _ (fits_iff ph)

/-- The program headers are where `sys_lseek` can go, and the segments that
are loaded fit. -/
structure Loadable (f : File) : Prop where
  table : (ehdrOf f).ePhoff + phdr64Size * (ehdrOf f).ePhnum ≤ 0x80000000
  fits : ∀ i < (ehdrOf f).ePhnum, Loads f (phdrOf f i) → Fits (phdrOf f i)

/-- The path that the program header `i` names as the interpreter. A
`p_offset` that `sys_lseek` refuses leaves the position behind the header. -/
def interpPath (f : File) (i : Nat) : List UInt8 :=
  cstring
    (fun k => f.content
      ((if u32 (phdrOf f i).pOffset < 0x80000000 then u32 (phdrOf f i).pOffset
        else (ehdrOf f).ePhoff + phdr64Size * i + phdr64Size) + k))
    (u32 (phdrOf f i).pFilesz - 1)

/-- An interpreter whose segments fit. One without memory could end up at
the ceiling itself. -/
structure LoadableInterp (g : File) : Prop extends Loadable g where
  memory : ∀ i < (ehdrOf g).ePhnum, (phdrOf g i).pType = ptLoad → 0 < (phdrOf g i).pMemsz

/-- The image names an interpreter. -/
def HasInterp (f : File) : Prop := ∃ i < (ehdrOf f).ePhnum, (phdrOf f i).pType = ptInterp

/-- A 64-bit image that the loader keeps in the window. -/
structure Program (env : Env) (f : File) : Prop extends Loadable f where
  elf64 : isElf f.content = true ∧ f.content 4 = 2
  /-- The interpreter is mapped above the segments: there is one. -/
  segment : HasInterp f → ∃ i < (ehdrOf f).ePhnum, Loads f (phdrOf f i)
  /-- A position-independent image starts at 0. -/
  moved : (ehdrOf f).eType = etDyn → ∃ i < (ehdrOf f).ePhnum,
    (phdrOf f i).pType = ptLoad ∧ u32 (phdrOf f i).pVaddr = 0
  /-- It has an interpreter or no dynamic section. -/
  relocs : (ehdrOf f).eType = etDyn →
    HasInterp f ∨ ∀ i < (ehdrOf f).ePhnum, (phdrOf f i).pType ≠ ptDynamic
  /-- The segments of the interpreter fit too. -/
  interp : ∀ i < (ehdrOf f).ePhnum, (phdrOf f i).pType = ptInterp →
    ∀ g, env.openImage (interpPath f i) = some g → LoadableInterp g

/-- A 32-bit image that the loader keeps in the window. -/
structure Program32 (f : File) : Prop where
  elf32 : isElf f.content = true ∧ f.content 4 = 1
  table : (ehdr32Of f).ePhoff + phdr32Size * (ehdr32Of f).ePhnum ≤ 0x80000000
  fits : ∀ i < (ehdr32Of f).ePhnum, Loads32 (phdr32Of f i) → Fits (phdr32Of f i)

/-- The first bytes are those of a PE image. -/
def IsPe (f : File) : Prop := f.content 0 = 0x4d ∧ f.content 1 = 0x5a
  deriving Decidable

/-- The first part of `load64` refuses the image, whatever the reads
deliver. -/
def Unplanned (env : Env) (f : File) : Prop := ∀ s p t, planImage env f s ≠ .ok p t

/-- A file that is refused while its headers are read: it has none of the
three formats, or it is an ELF image with headers that do not pass. -/
def Refused (env : Env) (f : File) : Prop :=
  ¬ IsPe f ∧ (isElf f.content = false ∨ f.content 4 ≠ 1 ∧ f.content 4 ≠ 2 ∨
    f.content 4 = 2 ∧ Unplanned env f ∨
    f.content 4 = 1 ∧ ehdr32Ok (fun k => f.content (16 + k)) (ehdr32Of f) = false)

/-- A file that the loader keeps in the window. -/
def Harmless (env : Env) (f : File) : Prop := Program env f ∨ Program32 f ∨ Refused env f

/-- The pages that the loader can take for the image: those of its segments,
and for an interpreter those above them. A position-independent image can go
anywhere in the window. -/
def Takes (f : File) (v : Nat) : Prop :=
  ImagePage v ∧
    if f.content 4 = 2 then
      (ehdrOf f).eType = etDyn ∨ (segments f 0).Page v ∨ HasInterp f ∧
        ∀ i < (ehdrOf f).ePhnum, Loads f (phdrOf f i) →
          segmentAt 0 (phdrOf f i) + (phdrOf f i).pMemsz ≤ v * pageSize
    else (segments32 f).Page v

/-- None of these pages is there and writable before. One that is there and
not writable is replaced. -/
def Vacant (f : File) (sp : Space) : Prop :=
  ∀ v, Takes f v → sp.present v = true → sp.writable v = false

/-! ### Programs that only read -/

/-- Only the positions in the files and the counters are new. -/
def Read (s t : Caller) : Prop :=
  ∃ pos allocs reads draws, t = { s with pos, allocs, reads, draws }

section Reading

variable {α β : Type}

variable {x : LoadM α}

/-- `x` only reads. -/
def Reading (x : LoadM α) : Prop := ∀ s, Keeps (Read s) x

namespace Reading

theorem pure {a : α} : Reading (Pure.pure a) := fun _ => .pure

theorem throw {e : Stop} : Reading (MonadExcept.throw e : LoadM α) := fun _ => .throw

/-- Reading programs compose. -/
theorem bind {f : α → LoadM β} (hx : Reading x) (hf : ∀ a, Reading (f a)) :
    Reading (x >>= f) := fun s => .bind (hx s) fun a => hf a s

/-- A choice between two reading programs. -/
theorem ite {c : Prop} [Decidable c] {y : LoadM α} (hx : Reading x) (hy : Reading y) :
    Reading (if c then x else y) := fun s => .ite (hx s) (hy s)

/-- What does not look at positions and counters is kept. -/
theorem keeps {I : Caller → Prop} (h : Reading x)
    (hI : ∀ s pos allocs reads draws, I s → I { s with pos, allocs, reads, draws }) :
    Keeps I x := by
  refine .of_frame h (fun s => ⟨s.pos, s.allocs, s.reads, s.draws, rfl⟩) ?_
  rintro s t ⟨pos, allocs, reads, draws, rfl⟩
  exact hI s pos allocs reads draws

end Reading

end Reading

variable {env : Env}

/-- A test only reads. -/
theorem reading_require {c : Bool} : Reading (require c) := Reading.ite Reading.pure Reading.throw

/-- The position in a file is not part of what is read. -/
theorem reading_setPos {pos : Caller → Fd → Nat} :
    Reading (modify fun s => { s with pos := pos s }) := by
  rintro s t ⟨pos, allocs, reads, draws, rfl⟩
  exact ⟨_, _, _, _, rfl⟩

theorem reading_lseek {fd : Fd} {off : Nat} : Reading (lseek fd off) := reading_setPos

/-- A read into a buffer of the kernel touches no page of the image. -/
theorem reading_readFile {f : File} {fd : Fd} {n : Nat} :
    Reading (readFile env f fd n) := by
  rintro s t ⟨pos, allocs, reads, draws, rfl⟩
  exact ⟨_, _, _, _, rfl⟩

theorem reading_readStruct {f : File} {fd : Fd} {n : Nat} : Reading (readStruct env f fd n) :=
  reading_readFile.bind fun _ => reading_require.bind fun _ => Reading.pure

/-- So does the choice of a random number. -/
theorem reading_rand32 : Reading (rand32 env) := by
  rintro s t ⟨pos, allocs, reads, draws, rfl⟩
  exact ⟨_, _, _, _, rfl⟩

/-- Asking for a frame maps nothing yet. -/
theorem reading_nextGrant : Reading (nextGrant env) := by
  rintro s t ⟨pos, allocs, reads, draws, rfl⟩
  exact ⟨_, _, _, _, rfl⟩

/-! ### What the segments keep -/

/-- The pages of `P`, and `v`. -/
def adding (P : Nat → Prop) (v : Nat) : Nat → Prop := fun w => w = v ∨ P w

/-- No page. -/
def nothing : Nat → Prop := fun _ => False

/-- The family `K` is kept while segments are loaded into the pages of `W`,
with file data for the bytes of `S`. `K P` knows of the pages of `P` that the
loader has taken them: it has mapped them, or found them writable. -/
structure Kept (W S : Nat → Prop) (K : (Nat → Prop) → Caller → Prop) : Prop where
  window : ∀ v, W v → ImagePage v
  mono : ∀ {P Q : Nat → Prop} {s : Caller}, K P s → (∀ v, Q v → P v) → K Q s
  read : ∀ {P : Nat → Prop} s pos allocs reads draws, K P s →
    K P { s with pos, allocs, reads, draws }
  map : ∀ {P : Nat → Prop} {s : Caller} {v : Nat}, W v → K P s → K (adding P v) (mapPage v s)
  free : ∀ {P : Nat → Prop} {s : Caller} {v : Nat}, K P s → K P (unmapPage v s)
  found : ∀ {P : Nat → Prop} {s : Caller} {v : Nat}, W v → s.space.present v = true →
    s.space.writable v = true → K P s → K (adding P v) s
  store : ∀ {P : Nat → Prop} {s : Caller} {a k : Nat} {b : Buf},
    (∀ i < k, P ((a + i) / pageSize) ∧ S (a + i)) → K P s → K P (putBytes a k b s)
  protect : ∀ {P : Nat → Prop} {s : Caller} {v : Nat}, P v → K P s → K P (sealPage v s)

variable {W S P : Nat → Prop} {K : (Nat → Prop) → Caller → Prop} {α : Type} {x : LoadM α}
  {f : File} {fd : Fd} {v n memsz vaddr : Nat}

/-- A program that only reads keeps every assertion of the kind. -/
theorem Kept.reading (hK : Kept W S K) (h : Reading x) : Keeps (K P) x :=
  h.keeps fun s pos allocs reads draws => hK.read s pos allocs reads draws

/-! ### Pages -/

/-- A page that must be there: `get_a_page`, or fail. -/
theorem getAPage_require_kept (hK : Kept W S K) (hv : W v) :
    Triple (K P) (getAPage env v >>= fun ok => require ok) (fun _ => K (adding P v))
      fun _ => K P := by
  refine .bind (Q := fun ok s => K P s ∧ (ok = true → K (adding P v) s)) ?_ fun ok =>
    .ite (fun hok => .pure fun s hs => hs.2 hok) fun _ => .throw fun s hs => hs.1
  refine .bind (.get fun s hs => hs) fun s => ?_
  refine .ite (fun _ => ?_) fun _ => .ite (fun _ => ?_) fun _ => ?_
  · exact .pure fun t ht => ⟨ht, fun h => by cases h⟩
  · exact .pure fun t ht => ⟨ht, fun h => by cases h⟩
  refine .bind (hK.reading reading_nextGrant) fun ok => .ite (fun _ => ?_) fun _ => ?_
  · refine .bind (Q := fun _ => K (adding P v)) (.modify fun t ht => hK.map hv ht) fun _ => ?_
    exact .pure fun t ht => ⟨hK.mono ht fun _ hw => .inr hw, fun _ => ht⟩
  · exact .pure fun t ht => ⟨ht, fun h => by cases h⟩

/-- A page is given back. -/
theorem freeUserPage_kept (hK : Kept W S K) : Keeps (K P) (freeUserPage v) := by
  refine .get_bind fun s => .ite (fun _ => ?_) fun _ => .pure fun t ht => ht.2
  refine .set ?_
  rintro t ⟨rfl, ht⟩
  exact hK.free ht

/-- The body of the page loop: the page is mapped, replaced, or taken as it
is. -/
theorem mapSegmentPage_kept (hK : Kept W S K) (hv : W v) :
    Triple (K P) (mapSegmentPage env v) (fun _ => K (adding P v)) fun _ => K P := by
  refine .get_bind fun s => ?_
  refine .ite (fun _ => ?_) fun hpresent => .ite (fun _ => ?_) fun hwritable => ?_
  · exact (getAPage_require_kept hK hv).pre fun _ ht => ht.2
  · refine .bind ((freeUserPage_kept hK).pre fun _ ht => ht.2) fun _ => ?_
    exact getAPage_require_kept hK hv
  · refine .pure ?_
    rintro t ⟨rfl, ht⟩
    exact hK.found hv (Decidable.not_not.mp hpresent) (Decidable.not_not.mp hwritable) ht

/-- The page loop of `segment_load` takes all its pages. -/
theorem mapSegmentPages_kept (hK : Kept W S K) (hW : ∀ w, v ≤ w → w < v + n → W w) :
    Triple (K P) (mapSegmentPages env n v) (fun _ => K fun w => (v ≤ w ∧ w < v + n) ∨ P w)
      fun _ => K P := by
  induction n generalizing P v with
  | zero =>
    refine .pure fun s hs => hK.mono hs ?_
    rintro w (hw | hw)
    · omega
    · exact hw
  | succ n ih =>
    have hv := hW v (Nat.le_refl v) (by omega)
    have hceil : v < 0x40000 := (hK.window v hv).2
    have hnext : (v + 1) % 0x100000 = v + 1 := Nat.mod_eq_of_lt (by omega)
    refine .bind (mapSegmentPage_kept hK hv) fun _ => ?_
    rw [hnext]
    refine (ih (P := adding P v) fun w hlo hhi => hW w (by omega) (by omega)).weaken
      (fun _ h => h) (fun _ s hs => hK.mono hs ?_) fun _ s hs => hK.mono hs fun w hw => .inr hw
    rintro w (hw | hw)
    · by_cases heq : w = v
      · exact .inr (.inl heq)
      · exact .inl ⟨by omega, by omega⟩
    · exact .inr (.inr hw)

/-! ### Bytes -/

variable (env) in
/-- No more bytes are stored than asked for. -/
theorem storableBytes_le (s : Caller) (a n : Nat) : storableBytes env s a n ≤ n := by
  have h := (takeWhile_sublist
    (fun i => storable env s ((a + i) / pageSize)) (l := range n)).length_le
  rwa [length_range] at h

/-- A store of file data into pages that were taken. It may stop early. -/
theorem storeBytes_kept (hK : Kept W S K) {a : Nat} (b : Buf)
    (h : ∀ i < n, P ((a + i) / pageSize) ∧ S (a + i)) : Keeps (K P) (storeBytes env a n b) := by
  refine .get_bind fun s => ?_
  refine .bind (Q := fun _ => K P) (.set ?_) fun _ => Keeps.ite Keeps.throw Keeps.pure
  rintro t ⟨rfl, ht⟩
  exact hK.store (fun i hi => h i (Nat.lt_of_lt_of_le hi (storableBytes_le env t a n))) ht

/-- The pages of a segment are those from its first to its last byte. -/
theorem segmentPages_eq (hhi : vaddr + max 1 memsz ≤ userLowCeiling) :
    vaddr / pageSize + segmentPages memsz vaddr = (vaddr + max 1 memsz - 1) / pageSize + 1 := by
  unfold segmentPages pagesUp u32
  unfold userLowCeiling at hhi
  unfold pageSize
  split
  next h => omega
  next h => omega

/-- A read never delivers more than was asked for. -/
theorem readLength_le {f : File} {pos count limit : Nat} :
    readLength f pos count limit ≤ count := by
  unfold readLength u32
  split
  · omega
  split
  · omega
  · omega

/-- No more bytes are read than asked for. -/
theorem readFile_le {Q : Caller → Prop} {count : Nat} :
    Yields Q (readFile env f fd count) fun r _ => r.1 ≤ count :=
  fun _ _ => readLength_le

/-- `segment_load` takes the pages of the segment, and stores its file
data. -/
theorem segmentLoad_kept (hK : Kept W S K) {offset filesz : Nat} (hfile : filesz ≤ memsz)
    (hhi : vaddr + max 1 memsz ≤ userLowCeiling) (hW : ∀ v, HoldsSegment vaddr memsz v → W v)
    (hS : ∀ i < filesz, S (vaddr + i)) :
    Triple (K P) (segmentLoad env f fd offset filesz memsz vaddr)
      (fun _ => K fun v => HoldsSegment vaddr memsz v ∨ P v) fun _ => K P := by
  have hpages := segmentPages_eq hhi
  have hforget : ∀ (_ : Stop) s, K (fun v => HoldsSegment vaddr memsz v ∨ P v) s → K P s :=
    fun _ _ hs => hK.mono hs fun _ hv => .inr hv
  refine Triple.bind ((mapSegmentPages_kept hK fun w hlo hlt => hW w ⟨hlo, by omega⟩).post
    fun _ s hs => hK.mono (Q := fun v => HoldsSegment vaddr memsz v ∨ P v) hs ?_) fun _ => ?_
  · rintro w (⟨hlo, hlast⟩ | hw)
    · exact .inl ⟨hlo, by omega⟩
    · exact .inr hw
  refine .bind ((hK.reading reading_lseek).stop hforget) fun _ => ?_
  refine .bind ((((hK.reading reading_readFile).and_yields
    (readFile_le (Q := fun _ => True))).stop hforget).pre fun _ h => ⟨trivial, h⟩) fun r => ?_
  refine .fact fun hr => ?_
  refine .bind ((storeBytes_kept hK r.2 fun i hi => ⟨.inl ⟨?_, ?_⟩, hS i (by omega)⟩).stop hforget)
    fun _ => (hK.reading reading_require).stop hforget
  · exact Nat.div_le_div_right (Nat.le_add_right _ _)
  · exact Nat.div_le_div_right (by omega)

/-! ### Entries -/

/-- The ranges, as first page and number, hold pages of `P` only. -/
def Covered (P : Nat → Prop) (ws : List (Nat × Nat)) : Prop :=
  ∀ w ∈ ws, w.1 + w.2 < 0x100000 ∧ ∀ v, w.1 ≤ v → v < w.1 + w.2 → P v

/-- A page of the image loses the right to be written. -/
theorem protectPage_kept (hK : Kept W S K) (hv : P v) : Keeps (K P) (protectPage v) := by
  refine .get_bind fun s => .ite (fun _ => ?_) fun _ => .pure fun t ht => ht.2
  refine .set ?_
  rintro t ⟨rfl, ht⟩
  exact hK.protect hv ht

/-- The loop over the pages of one range. -/
theorem applyRx_kept (hK : Kept W S K) (hfew : v + n < 0x100000)
    (h : ∀ w, v ≤ w → w < v + n → P w) : Keeps (K P) (applyRx n v) := by
  induction n generalizing v with
  | zero => exact .pure
  | succ n ih =>
    have hnext : (v + 1) % 0x100000 = v + 1 := Nat.mod_eq_of_lt (by omega)
    refine .bind (protectPage_kept hK (h v (Nat.le_refl v) (by omega))) fun _ => ?_
    rw [hnext]
    exact ih (by omega) fun w hlo hhi => h w (by omega) (by omega)

/-- The loop over the ranges. -/
theorem applyRxAll_kept (hK : Kept W S K) {ws : List (Nat × Nat)} (h : Covered P ws) :
    Keeps (K P) (applyRxAll ws) := by
  induction ws with
  | nil => exact .pure
  | cons w ws ih =>
    obtain ⟨hfew, hpages⟩ := h w mem_cons_self
    refine .bind (applyRx_kept hK hfew hpages) fun _ => ?_
    exact ih fun w' hw' => h w' (mem_cons_of_mem w hw')

/-- The pages that are counted for a segment are those that it takes. -/
theorem covered_segment (hhi : vaddr + max 1 memsz ≤ userLowCeiling)
    (h : ∀ v, HoldsSegment vaddr memsz v → P v) :
    Covered P [(vaddr / pageSize, segmentPages memsz vaddr)] := by
  intro w hw
  rw [mem_singleton.mp hw]
  have hpages := segmentPages_eq hhi
  unfold userLowCeiling at hhi
  refine ⟨?_, fun v hlo hlast => h v ⟨hlo, by omega⟩⟩
  unfold pageSize at *
  omega

/-- With a size that fits, the 64-bit computation of the pages agrees with
that of `segment_load`. -/
theorem wxRange_eq (hhi : vaddr + memsz ≤ userLowCeiling) :
    wxRange memsz vaddr = (vaddr / pageSize, segmentPages memsz vaddr) := by
  unfold userLowCeiling at hhi
  unfold wxRange segmentPages pagesUp u32 u64 pageSize
  split
  · congr 1
    omega
  · rfl

/-! ### Reading headers -/

variable {E : Stop → Caller → Prop}

/-- The position after a seek. -/
theorem lseek_yields {Q : Caller → Prop} (fd : Fd) {off : Nat} (h : off < 0x80000000) :
    Yields Q (lseek fd off) fun _ s => s.pos fd = off := by
  refine .modify fun s _ => ?_
  have hoff : u32 off = off := Nat.mod_eq_of_lt (by omega)
  show (if fd = fd ∧ u32 off < 0x80000000 then u32 off else s.pos fd) = off
  rw [hoff, if_pos ⟨rfl, h⟩]

/-- A header is read from the position, and the position is behind it. -/
theorem readStruct_yields {f : File} {fd : Fd} {size off : Nat} :
    Yields (fun s => s.pos fd = off) (readStruct env f fd size) fun b s =>
      (b = fun k => f.content (off + k)) ∧ s.pos fd = u32 (off + size) := by
  refine .bind (Q := fun r s => (r.2 = fun k => f.content (off + k)) ∧
    s.pos fd = u32 (off + r.1)) ?_ fun r => ?_
  · intro s hs
    refine ⟨by rw [← hs], ?_⟩
    show (if fd = fd then _ else _) = _
    rw [if_pos rfl, ← hs]
  · refine .bind (Q := fun _ s => ((r.2 = fun k => f.content (off + k)) ∧
      s.pos fd = u32 (off + r.1)) ∧ r.1 = size) ?_ fun _ => ?_
    · refine .ite (fun hsize => ?_) fun _ => .throw fun _ _ => trivial
      exact .pure fun s hs => ⟨hs, beq_iff_eq.mp hsize⟩
    · refine .pure ?_
      rintro s ⟨⟨hb, hpos⟩, rfl⟩
      exact ⟨hb, hpos⟩

/-- Seek to `off` and read a structure: what follows can count on the bytes
of the file there. `I` is what else is kept. -/
theorem readAt {I : Caller → Prop} (f : File) (fd : Fd) {β : Type} {off size : Nat}
    (hoff : off < 0x80000000) (hI : ∀ {α : Type} {x : LoadM α}, Reading x → Keeps I x)
    (hE : ∀ e s, I s → E e s) {rest : Buf → LoadM β} {R : β → Caller → Prop}
    (h : Triple (fun s => s.pos fd = u32 (off + size) ∧ I s)
      (rest fun k => f.content (off + k)) R E) :
    Triple I (lseek fd off >>= fun _ => readStruct env f fd size >>= rest) R E := by
  refine .bind (((hI reading_lseek).and_yields (lseek_yields fd hoff)).weaken
    (fun _ hs => ⟨trivial, hs⟩) (fun _ _ hs => hs) hE) fun _ => ?_
  refine .bind (((hI reading_readStruct).and_yields readStruct_yields).stop hE) fun b => ?_
  intro s hs
  obtain ⟨⟨rfl, hpos⟩, hkeep⟩ := hs
  exact h s ⟨hpos, hkeep⟩

/-- The offset of the program header with number `j`. -/
def phoffOf (f : File) (j : Nat) : Nat := (ehdrOf f).ePhoff + phdr64Size * j

/-- The program headers start where the file header says. -/
theorem phoffOf_zero (f : File) : phoffOf f 0 = (ehdrOf f).ePhoff := add_zero _

/-- The bytes at the place of a header are that header. -/
theorem parsePhdr64_at (f : File) (j : Nat) :
    (parsePhdr64 fun k => f.content (phoffOf f j + k)) = phdrOf f j := by
  unfold phdrOf
  rfl

variable {j : Nat}

/-- A header that is read starts below the limit of `lseek`. -/
theorem Loadable.phoff_lt (h : Loadable f) (hj : j + (n + 1) = (ehdrOf f).ePhnum) :
    phoffOf f j < 0x80000000 := by
  have ht := h.table
  unfold phoffOf phdr64Size at *
  omega

/-- The place of the next header does not wrap. -/
theorem Loadable.phoff_next (h : Loadable f) (hj : j + (n + 1) = (ehdrOf f).ePhnum) :
    u64 (phoffOf f j + phdr64Size) = phoffOf f (j + 1) := by
  have ht := h.table
  unfold phoffOf phdr64Size u64 at *
  omega

/-! ### The table of segments -/

namespace Segments

variable {g : Segments} {stop : Nat}

/-- The pages of the first `j` segments are pages of the first `j + 1`. -/
theorem PageTo.succ (h : g.PageTo j v) : g.PageTo (j + 1) v := by
  obtain ⟨i, hi, hv⟩ := h
  exact ⟨i, Nat.lt_succ_of_lt hi, hv⟩

/-- Another header adds its pages if it is loaded. -/
theorem pageTo_succ : g.PageTo (j + 1) v ↔
    g.PageTo j v ∨ g.loads j ∧ HoldsSegment (g.start j) (g.memsz j) v := by
  constructor
  · rintro ⟨i, hi, hv⟩
    obtain hlt | rfl : i < j ∨ i = j := by omega
    · exact .inl ⟨i, hlt, hv⟩
    · exact .inr hv
  · rintro (h | h)
    · exact h.succ
    · exact ⟨j, Nat.lt_succ_self j, h⟩

/-- No segment ends before the first one. -/
theorem endsTo_zero : g.EndsTo 0 0 := ⟨fun i hi => absurd hi (Nat.not_lt_zero i), .inl rfl⟩

/-- A segment that is not loaded does not move the end. -/
theorem EndsTo.skip (h : g.EndsTo j stop) (hj : ¬ g.loads j) : g.EndsTo (j + 1) stop := by
  refine ⟨fun i hi hl => ?_, h.2.imp_right fun ⟨i, hi, hend⟩ => ⟨i, Nat.lt_succ_of_lt hi, hend⟩⟩
  obtain hlt | rfl : i < j ∨ i = j := by omega
  · exact h.1 i hlt hl
  · exact absurd hl hj

/-- A segment that is loaded moves the end behind itself. -/
theorem EndsTo.load (h : g.EndsTo j stop) (hj : g.loads j) :
    g.EndsTo (j + 1) (max stop (g.start j + g.memsz j)) := by
  refine ⟨fun i hi hl => ?_, ?_⟩
  · obtain hlt | rfl : i < j ∨ i = j := by omega
    · exact Nat.le_trans (h.1 i hlt hl) (Nat.le_max_left _ _)
    · exact Nat.le_max_right _ _
  by_cases hle : stop ≤ g.start j + g.memsz j
  · exact .inr ⟨j, Nat.lt_succ_self j, hj, (Nat.max_eq_right hle).symm⟩
  rw [Nat.max_eq_left (by omega)]
  exact h.2.imp_right fun ⟨i, hi, hend⟩ => ⟨i, Nat.lt_succ_of_lt hi, hend⟩

/-- The end is below the ceiling. -/
theorem Placed.stop_le (hg : g.Placed) (h : g.EndsTo g.num stop) : stop ≤ userLowCeiling := by
  obtain rfl | ⟨i, hi, hl, rfl⟩ := h.2
  · exact Nat.zero_le _
  · have := (hg i hi hl).stop
    omega

/-- With a segment, the end is not below the start of the window. -/
theorem Placed.start_le (hg : g.Placed) (h : g.EndsTo g.num stop) {i : Nat} (hi : i < g.num)
    (hl : g.loads i) : userVaddrStart ≤ stop := by
  have hstart := (hg i hi hl).start
  have hend := h.1 i hi hl
  omega

/-- The pages of placed segments are pages of the window. -/
theorem PlacedAt.imagePage {i : Nat} (h : g.PlacedAt i)
    (hv : HoldsSegment (g.start i) (g.memsz i) v) : ImagePage v := by
  obtain ⟨hlo, hhi⟩ := hv
  have hstart := h.start
  have hstop := h.stop
  unfold ImagePage
  unfold userVaddrStart userLowCeiling pageSize at *
  omega

end Segments

/-! ### Mapping an image -/

/-- The load bias places the segments in the window. -/
structure InWindow (f : File) (bias : Nat) : Prop extends Loadable f where
  placed : (segments f bias).Placed

variable {bias : Nat} {bounded : Bool}

/-- The headers that the loop of `map_image64` skips are those that are not
loaded. -/
theorem skips_iff (hb : bounded = ((ehdrOf f).eType != etDyn)) {ph : Phdr} :
    (ph.pType ≠ ptLoad ∨ bounded ∧ (u32 ph.pVaddr < userVaddrStart ∨
      userStack3Vaddr ≤ u32 ph.pVaddr)) ↔ ¬ Loads f ph := by
  rw [hb, bne_iff_ne, Loads, not_and_or, not_or, not_and_or, Nat.not_le, Nat.not_lt]

/-- The loop of `map_image64`, from header `j` on. -/
theorem mapHeaders_kept (env : Env) (hK : Kept W S K) (hf : InWindow f bias)
    (hb : bounded = ((ehdrOf f).eType != etDyn)) (hW : ∀ v, (segments f bias).Page v → W v)
    (hS : ∀ a, (segments f bias).FileByte a → S a) (fd : Fd) (n j stop : Nat)
    (wx : List (Nat × Nat)) (hj : j + n = (ehdrOf f).ePhnum)
    (hends : (segments f bias).EndsTo j stop) (hwx : Covered ((segments f bias).PageTo j) wx) :
    Triple (K fun v => (segments f bias).PageTo j v ∨ P v)
      (mapHeaders env f fd bias bounded n (phoffOf f j) stop wx)
      (fun r s => ((segments f bias).EndsTo (ehdrOf f).ePhnum r.1 ∧
        Covered (segments f bias).Page r.2) ∧ K (fun v => (segments f bias).Page v ∨ P v) s)
      fun _ => K P := by
  have hforget : ∀ j (_ : Stop) s, K (fun v => (segments f bias).PageTo j v ∨ P v) s → K P s :=
    fun _ _ _ hs => hK.mono hs fun _ hv => .inr hv
  induction n generalizing j stop wx with
  | zero =>
    obtain rfl : j = (ehdrOf f).ePhnum := hj
    exact .pure fun s hs => ⟨⟨hends, hwx⟩, hs⟩
  | succ n ih =>
    have hjn : j < (ehdrOf f).ePhnum := by omega
    refine readAt f fd (hf.phoff_lt hj) (fun hx => hK.reading hx) (hforget j) ?_
    refine .pre (P := K fun v => (segments f bias).PageTo j v ∨ P v) ?_ fun _ hs => hs.2
    rw [parsePhdr64_at, hf.phoff_next hj]
    refine .ite (fun hskip => ?_) fun hload => ?_
    · have hno := (skips_iff hb).mp hskip
      refine (ih (j + 1) stop wx (by omega) (hends.skip hno) fun w hw => ?_).pre
        fun s hs => hK.mono hs ?_
      · exact ⟨(hwx w hw).1, fun v hlo hhi => ((hwx w hw).2 v hlo hhi).succ⟩
      · rintro v (hv | hv)
        · exact .inl ((Segments.pageTo_succ.mp hv).resolve_right fun h => hno h.1)
        · exact .inr hv
    have hl : Loads f (phdrOf f j) := Decidable.not_not.mp (mt (skips_iff hb).mpr hload)
    have hp := hf.placed j hjn hl
    -- the sizes fit 32 bits
    have hfile : (phdrOf f j).pFilesz ≤ (phdrOf f j).pMemsz := hp.file
    have hstop : segmentAt bias (phdrOf f j) + max 1 (phdrOf f j).pMemsz ≤ userLowCeiling := hp.stop
    have hceil : userLowCeiling < 0x100000000 := by decide
    have hmem : u32 (phdrOf f j).pMemsz = (phdrOf f j).pMemsz := Nat.mod_eq_of_lt (by omega)
    have hfilesz : u32 (phdrOf f j).pFilesz = (phdrOf f j).pFilesz := Nat.mod_eq_of_lt (by omega)
    have hend : u32 (segmentAt bias (phdrOf f j) + (phdrOf f j).pMemsz) =
        segmentAt bias (phdrOf f j) + (phdrOf f j).pMemsz := Nat.mod_eq_of_lt (by omega)
    refine .bind ((hK.reading reading_require).stop (hforget j)) fun _ => ?_
    rw [hmem, hfilesz, show u32 (u32 (phdrOf f j).pVaddr + bias) =
      segmentAt bias (phdrOf f j) from rfl,
      hend, wxRange_eq (by omega)]
    have hpage : ∀ v, HoldsSegment (segmentAt bias (phdrOf f j)) (phdrOf f j).pMemsz v →
        (segments f bias).PageTo (j + 1) v := fun v hv => Segments.pageTo_succ.mpr (.inr ⟨hl, hv⟩)
    refine .bind (((segmentLoad_kept hK hfile hstop (fun v hv => hW v ⟨j, hjn, hl, hv⟩)
      fun i hi => hS _ ⟨j, hjn, hl, Nat.le_add_right _ _, Nat.add_lt_add_left hi _⟩).post
      fun _ s hs => hK.mono hs ?_).stop (hforget j)) fun _ =>
        ih (j + 1) _ _ (by omega) (hends.load hl) fun w hw => ?_
    · rintro v (hv | hv)
      · rcases Segments.pageTo_succ.mp hv with hv | hv
        · exact .inr (.inl hv)
        · exact .inl hv.2
      · exact .inr (.inr hv)
    · have hold : ∀ w ∈ wx, w.1 + w.2 < 0x100000 ∧ ∀ v, w.1 ≤ v → v < w.1 + w.2 →
          (segments f bias).PageTo (j + 1) v :=
        fun w hw => ⟨(hwx w hw).1, fun v hlo hhi => ((hwx w hw).2 v hlo hhi).succ⟩
      split at hw
      · rcases mem_append.mp hw with hw | hw
        · exact hold w hw
        · exact covered_segment hstop hpage w hw
      · exact hold w hw

/-- `map_image64` of an image whose segments are placed in the window: it
takes the pages of its segments and returns where they end. -/
theorem mapImage64_kept (hK : Kept W S K) (hf : InWindow f bias)
    (hb : bounded = ((ehdrOf f).eType != etDyn)) (hW : ∀ v, (segments f bias).Page v → W v)
    (hS : ∀ a, (segments f bias).FileByte a → S a) {fd : Fd} :
    Triple (K P) (mapImage64 env f fd (ehdrOf f) bias bounded)
      (fun stop s => (segments f bias).EndsTo (ehdrOf f).ePhnum stop ∧
        K (fun v => (segments f bias).Page v ∨ P v) s)
      fun _ => K P := by
  have hloop := mapHeaders_kept (P := P) env hK hf hb hW hS fd (ehdrOf f).ePhnum 0 0 []
    (zero_add _) Segments.endsTo_zero fun w hw => absurd hw not_mem_nil
  rw [phoffOf_zero] at hloop
  refine .bind (hloop.pre fun s hs => hK.mono hs ?_) fun r => .fact fun hr => ?_
  · rintro v (⟨i, hi, -⟩ | hv)
    · exact absurd hi (Nat.not_lt_zero i)
    · exact hv
  · refine .bind ((applyRxAll_kept hK (P := fun v => (segments f bias).Page v ∨ P v)
      fun w hw => ?_).stop
      fun _ _ hs => hK.mono hs fun _ hv => .inr hv) fun _ => .pure fun s hs => ⟨hr.1, hs⟩
    exact ⟨(hr.2 w hw).1, fun v hlo hhi => .inl ((hr.2 w hw).2 v hlo hhi)⟩

/-! ### 32-bit images -/

/-- The offset of the program header with number `j` of a 32-bit image. -/
def phoff32Of (f : File) (j : Nat) : Nat := (ehdr32Of f).ePhoff + phdr32Size * j

/-- The bytes at the place of a 32-bit header are that header. -/
theorem parsePhdr32_at (f : File) (j : Nat) :
    (parsePhdr32 fun k => f.content (phoff32Of f j + k)) = phdr32Of f j := by
  unfold phdr32Of
  rfl

/-- A 32-bit header that is read starts below the limit of `lseek`. -/
theorem Program32.phoff_lt (h : Program32 f) (hj : j + (n + 1) = (ehdr32Of f).ePhnum) :
    phoff32Of f j < 0x80000000 := by
  have ht := h.table
  unfold phoff32Of phdr32Size at *
  omega

/-- The place of the next 32-bit header does not wrap. -/
theorem Program32.phoff_next (h : Program32 f) (hj : j + (n + 1) = (ehdr32Of f).ePhnum) :
    u32 (phoff32Of f j + phdr32Size) = phoff32Of f (j + 1) := by
  have ht := h.table
  unfold phoff32Of phdr32Size u32 at *
  omega

/-- The addresses of a 32-bit image are fixed, and in the window. -/
theorem Program32.placed (h : Program32 f) : (segments32 f).Placed := by
  intro i hi hl
  have hfit := h.fits i hi hl
  obtain ⟨hlo, hhi⟩ := of_decide_eq_true hl.2
  have hva : u32 (phdr32Of f i).pVaddr = (phdr32Of f i).pVaddr := by
    unfold userStack3Vaddr at hhi
    exact Nat.mod_eq_of_lt (by omega)
  have hstop := hfit.stop
  rw [hva] at hstop
  exact ⟨hfit.file, hlo, hstop⟩

/-- A note is only read. -/
theorem reading_noteAbi {namesz descsz type : Nat} {b : Bool} :
    Reading (noteAbi env f fd namesz descsz type b) := by
  refine .ite (reading_readFile.bind fun name => ?_) .pure
  exact .ite (reading_readFile.bind fun desc => .pure) .pure

/-- By induction on the bytes that remain. -/
theorem reading_scanNotes {baseOff filesz n remaining : Nat} {b : Bool} :
    Reading (scanNotes env f fd baseOff filesz n remaining b) := by
  induction n generalizing remaining b with
  | zero => exact .throw
  | succ n ih =>
    refine .ite .pure (reading_readFile.bind fun r => ?_)
    refine .ite .pure (reading_noteAbi.bind fun b' => ?_)
    exact reading_lseek.bind fun _ => ih

theorem reading_scanNoteAbi {baseOff filesz : Nat} {b : Bool} :
    Reading (scanNoteAbi env f fd baseOff filesz b) :=
  reading_lseek.bind fun _ => reading_scanNotes

/-- The first pass over a 32-bit header maps nothing. -/
theorem reading_scanHeader32 {e : Ehdr} {ph : Phdr} {c : Scan32} :
    Reading (scanHeader32 env f e ph c) :=
  .bind (.ite reading_scanNoteAbi .pure) fun _ => .pure

/-- The notes and the program headers leave the end of the image. -/
theorem scanHeader32_yields {e : Ehdr} {ph : Phdr} {c : Scan32} :
    Yields (fun _ => True) (scanHeader32 env f e ph c) fun c' _ => c'.imageEnd = c.imageEnd := by
  refine .bind (Yields.any _) fun isLinux => .pure fun _ _ => ?_
  split <;> rfl

/-- A header of a 32-bit image: its segment is loaded, and protected at
once. -/
theorem loadHeader32_kept (hK : Kept W S K) (hf : Program32 f) (hj : j < (ehdr32Of f).ePhnum)
    (hW : ∀ v, (segments32 f).Page v → W v) (hS : ∀ a, (segments32 f).FileByte a → S a)
    {c : Scan32} (hends : (segments32 f).EndsTo j c.imageEnd) :
    Triple (K fun v => (segments32 f).PageTo j v ∨ P v) (loadHeader32 env f (phdr32Of f j) c)
      (fun c' s => (segments32 f).EndsTo (j + 1) c'.imageEnd ∧
        K (fun v => (segments32 f).PageTo (j + 1) v ∨ P v) s)
      fun _ => K P := by
  have hforget : ∀ (_ : Stop) s, K (fun v => (segments32 f).PageTo j v ∨ P v) s → K P s :=
    fun _ _ hs => hK.mono hs fun _ hv => .inr hv
  refine .ite (fun hl => ?_) fun hno => .pure fun s hs => ⟨hends.skip hno, hK.mono hs ?_⟩
  · have hp := hf.placed j hj hl
    have hfile : (phdr32Of f j).pFilesz ≤ (phdr32Of f j).pMemsz := hp.file
    have hstop : (phdr32Of f j).pVaddr + max 1 (phdr32Of f j).pMemsz ≤ userLowCeiling := hp.stop
    -- below the ceiling the 32-bit sum does not wrap
    have hend : u32 ((phdr32Of f j).pVaddr + (phdr32Of f j).pMemsz) =
        (phdr32Of f j).pVaddr + (phdr32Of f j).pMemsz := by
      unfold userLowCeiling at hstop
      exact Nat.mod_eq_of_lt (by omega)
    refine .bind (((segmentLoad_kept hK hfile hstop (fun v hv => hW v ⟨j, hj, hl, hv⟩)
      fun i hi => hS _ ⟨j, hj, hl, Nat.le_add_right _ _, Nat.add_lt_add_left hi _⟩).post
      fun _ s hs => hK.mono (Q := fun v => (segments32 f).PageTo (j + 1) v ∨ P v) hs ?_).stop
        hforget) fun _ => ?_
    · rintro v (hv | hv)
      · rcases Segments.pageTo_succ.mp hv with hv | hv
        · exact .inr (.inl hv)
        · exact .inl hv.2
      · exact .inr (.inr hv)
    have hcover := covered_segment (P := fun v => (segments32 f).PageTo (j + 1) v ∨ P v) hstop
      (fun v hv => .inl (Segments.pageTo_succ.mpr (.inr ⟨hl, hv⟩))) _ mem_cons_self
    refine .bind ((Keeps.ite (applyRx_kept hK hcover.1 hcover.2) Keeps.pure).stop
      fun _ _ hs => hK.mono hs fun _ hv => .inr hv) fun _ => .pure fun s hs => ⟨?_, hs⟩
    show (segments32 f).EndsTo (j + 1) (max _ _)
    rw [hend]
    exact hends.load hl
  · rintro v (hv | hv)
    · exact .inl ((Segments.pageTo_succ.mp hv).resolve_right fun h => hno h.1)
    · exact .inr hv

/-- The loop of `load32`, from header `j` on. -/
theorem loadHeaders32_kept (env : Env) (hK : Kept W S K) (hf : Program32 f) (e : Ehdr)
    (hW : ∀ v, (segments32 f).Page v → W v) (hS : ∀ a, (segments32 f).FileByte a → S a)
    (n j : Nat) (c : Scan32) (hj : j + n = (ehdr32Of f).ePhnum)
    (hends : (segments32 f).EndsTo j c.imageEnd) :
    Triple (K fun v => (segments32 f).PageTo j v ∨ P v)
      (loadHeaders32 env f e n (phoff32Of f j) c)
      (fun c' s => (segments32 f).EndsTo (ehdr32Of f).ePhnum c'.imageEnd ∧
        K (fun v => (segments32 f).Page v ∨ P v) s)
      fun _ => K P := by
  have hforget : ∀ j (_ : Stop) s, K (fun v => (segments32 f).PageTo j v ∨ P v) s → K P s :=
    fun _ _ _ hs => hK.mono hs fun _ hv => .inr hv
  induction n generalizing j c with
  | zero =>
    obtain rfl : j = (ehdr32Of f).ePhnum := hj
    exact .pure fun s hs => ⟨hends, hs⟩
  | succ n ih =>
    refine readAt f .image (hf.phoff_lt hj) (fun hx => hK.reading hx) (hforget j) ?_
    refine .pre (P := K fun v => (segments32 f).PageTo j v ∨ P v) ?_ fun _ hs => hs.2
    rw [parsePhdr32_at, hf.phoff_next hj]
    refine .bind ((((hK.reading reading_scanHeader32).and_yields scanHeader32_yields).stop
      (hforget j)).pre fun _ hs => ⟨trivial, hs⟩) fun c' => .fact fun hc' => ?_
    rw [← hc'] at hends
    refine .bind (loadHeader32_kept hK hf (by omega) hW hS hends) fun c'' =>
      .fact fun hends' => ?_
    exact ih (j + 1) c'' (by omega) hends'

/-! ### The accesses -/

/-- The accesses so far are confined, every page of `W` that is there and
writable was mapped by the loader, and so were the pages in `P`. -/
structure Inside (W P : Nat → Prop) (s : Caller) : Prop where
  confined : Confined s.trace
  mapped : ∀ v, W v → s.space.present v = true → s.space.writable v = true → .map v ∈ s.trace
  known : ∀ v, P v → ImagePage v ∧ .map v ∈ s.trace

/-- A page of the image is mapped. -/
theorem Inside.map {s : Caller} (h : Inside W P s) (hv : ImagePage v) :
    Inside W (adding P v) (mapPage v s) where
  confined := ⟨hv, h.confined⟩
  mapped := by
    intro w hw hp hwr
    by_cases heq : w = v
    · rw [heq]
      exact mem_cons_self
    have hp' : s.space.present w = true := by
      rw [← hp]
      exact (if_neg heq).symm
    have hwr' : s.space.writable w = true := by
      rw [← hwr]
      exact (if_neg heq).symm
    exact mem_cons_of_mem _ (h.mapped w hw hp' hwr')
  known := by
    rintro w (rfl | hw)
    · exact ⟨hv, mem_cons_self⟩
    · exact ⟨(h.known w hw).1, mem_cons_of_mem _ (h.known w hw).2⟩

/-- A page is unmapped. -/
theorem Inside.unmap {s : Caller} (h : Inside W P s) : Inside W P (unmapPage v s) where
  confined := ⟨trivial, h.confined⟩
  mapped := by
    intro w hw hp hwr
    refine mem_cons_of_mem _ (h.mapped w hw ?_ hwr)
    -- only the bit of `v` was cleared
    by_cases heq : w = v
    · simp [unmapPage, setBit, heq] at hp
    · simpa [unmapPage, setBit, heq] using hp
  known w hw := ⟨(h.known w hw).1, mem_cons_of_mem _ (h.known w hw).2⟩

/-- A page of the image is made read-only. -/
theorem Inside.seal {s : Caller} (h : Inside W P s) (hv : P v) : Inside W P (sealPage v s) where
  confined := ⟨h.known v hv, h.confined⟩
  mapped := by
    intro w hw hp hwr
    refine mem_cons_of_mem _ (h.mapped w hw hp ?_)
    by_cases heq : w = v
    · simp [sealPage, setBit, heq] at hwr
    · simpa [sealPage, setBit, heq] using hwr
  known w hw := ⟨(h.known w hw).1, mem_cons_of_mem _ (h.known w hw).2⟩

/-- The accesses are kept inside while segments are loaded, whatever their
bytes. -/
theorem inside_kept (hW : ∀ v, W v → ImagePage v) : Kept W (fun _ => True) (Inside W) where
  window := hW
  mono h hP := ⟨h.confined, h.mapped, fun v hv => h.known v (hP v hv)⟩
  read _ _ _ _ _ h := ⟨h.confined, h.mapped, h.known⟩
  map hv h := h.map (hW _ hv)
  free h := h.unmap
  found {P s v} hv hp hwr h := by
    refine ⟨h.confined, h.mapped, ?_⟩
    rintro w (rfl | hw)
    · exact ⟨hW w hv, h.mapped w hv hp hwr⟩
    · exact h.known w hw
  store {P s a k b} hin h :=
    ⟨⟨fun i hi => h.known _ (hin i hi).1, h.confined⟩,
      fun v hv hp hwr => mem_cons_of_mem _ (h.mapped v hv hp hwr),
      fun v hv => ⟨(h.known v hv).1, mem_cons_of_mem _ (h.known v hv).2⟩⟩
  protect hv h := h.seal hv

end CoreZ.Proofs.Userprog.Loader
