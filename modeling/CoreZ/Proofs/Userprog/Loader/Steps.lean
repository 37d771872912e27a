import CoreZ.Proofs.Userprog.Loader.Confined

/-!
# `CoreZ.Proofs.Userprog.Loader.Steps`: what every step of the loader keeps

The loader changes the state of the caller in few ways: it reads, maps a page,
frees one, stores bytes, rewrites an entry, and takes the ids of the file. What
all of these but the last keep (`Closed`) is kept by the functions that are
built from them, by the rules of `Keeps`; no function is looked into twice.

The effective user is the first use: the loaders take the user of a
set-user-id file, and leave the effective user alone otherwise (`load_euid`).
-/

set_option autoImplicit false

namespace CoreZ.Proofs.Userprog.Loader

open CoreZ.Lib (Buf Triple Yields Keeps)
open CoreZ.Userprog.Exec

/-- Every step of the loader keeps `I`, except perhaps the taking of the
ids. -/
structure Closed (I : Caller → Prop) : Prop where
  read : ∀ s pos allocs reads draws, I s → I { s with pos, allocs, reads, draws }
  map : ∀ v s, I s → I (mapPage v s)
  free : ∀ v s, I s → I (unmapPage v s)
  store : ∀ a k b s, I s → I (putBytes a k b s)
  protect : ∀ v s, I s → I (sealPage v s)

variable {I : Caller → Prop} {env : Env} {f : File} {fd : Fd} {n v bias : Nat}

/-- A program that only reads keeps a closed assertion. -/
theorem Closed.reading {α : Type} {x : LoadM α} (hI : Closed I) (h : Reading x) : Keeps I x :=
  h.keeps hI.read

/-! ### Segments -/

/-- A page of the space is asked for, and must be had. -/
theorem getAPage_require_closed (hI : Closed I) :
    Keeps I (getAPage env v >>= fun ok => require ok) := by
  refine .bind ?_ fun _ => hI.reading reading_require
  refine .get_bind fun s => .pre (P := I) ?_ fun _ ht => ht.2
  refine Keeps.ite .pure (.ite .pure (.bind (hI.reading reading_nextGrant) fun _ => .ite ?_ .pure))
  exact .bind (Triple.modify fun s hs => hI.map v s hs) fun _ => .pure

/-- The state at hand is replaced by `g` of it, or kept. -/
theorem replace_closed {c : Caller → Prop} [DecidablePred c] {g : Caller → Caller}
    (hg : ∀ s, I s → I (g s)) :
    Keeps I ((do let s ← get; if c s then set (g s) else pure ()) : LoadM Unit) := by
  refine .get_bind fun s => .ite (fun _ => .set ?_) fun _ => .pure fun _ ht => ht.2
  rintro t ⟨rfl, ht⟩
  exact hg t ht

/-- One page of a segment. -/
theorem mapSegmentPage_closed (hI : Closed I) : Keeps I (mapSegmentPage env v) := by
  refine .get_bind fun s => .pre (P := I) ?_ fun _ ht => ht.2
  refine Keeps.ite (getAPage_require_closed hI) (.ite ?_ .pure)
  exact .bind (replace_closed fun s hs => hI.free v s hs) fun _ => getAPage_require_closed hI

/-- By induction on the number of pages. -/
theorem mapSegmentPages_closed (hI : Closed I) : Keeps I (mapSegmentPages env n v) := by
  induction n generalizing v with
  | zero => exact .pure
  | succ n ih => exact .bind (mapSegmentPage_closed hI) fun _ => ih

/-- Bytes that are stored one by one. -/
theorem storeBytes_closed (hI : Closed I) {a : Nat} {b : Buf} :
    Keeps I (storeBytes env a n b) := by
  refine .get_bind fun s => .bind (Q := fun _ => I) (.set ?_) fun _ => Keeps.ite .throw .pure
  rintro t ⟨rfl, ht⟩
  exact hI.store a _ b t ht

/-- A segment: its pages, and its bytes of the file. -/
theorem segmentLoad_closed (hI : Closed I) {offset filesz memsz vaddr : Nat} :
    Keeps I (segmentLoad env f fd offset filesz memsz vaddr) := by
  refine .bind (mapSegmentPages_closed hI) fun _ => .bind (hI.reading reading_lseek) fun _ => ?_
  refine .bind (hI.reading reading_readFile) fun r => ?_
  exact .bind (storeBytes_closed hI) fun _ => hI.reading reading_require

/-- The pages that become executable. -/
theorem applyRx_closed (hI : Closed I) : Keeps I (applyRx n v) := by
  induction n generalizing v with
  | zero => exact .pure
  | succ n ih => exact .bind (replace_closed fun s hs => hI.protect v s hs) fun _ => ih

theorem applyRxAll_closed (hI : Closed I) {ws : List (Nat × Nat)} : Keeps I (applyRxAll ws) := by
  induction ws with
  | nil => exact .pure
  | cons w ws ih => exact .bind (applyRx_closed hI) fun _ => ih

/-- By induction on the number of headers. -/
theorem mapHeaders_closed (hI : Closed I) {bounded : Bool} {pho imageEnd : Nat}
    {wx : List (Nat × Nat)} : Keeps I (mapHeaders env f fd bias bounded n pho imageEnd wx) := by
  induction n generalizing pho imageEnd wx with
  | zero => exact .pure
  | succ n ih =>
    refine .bind (hI.reading reading_lseek) fun _ => ?_
    refine .bind (hI.reading reading_readStruct) fun b => ?_
    generalize parsePhdr64 b = ph
    refine .ite ih (.bind (hI.reading reading_require) fun _ => ?_)
    exact .bind (segmentLoad_closed hI) fun _ => ih

/-- All segments of an image, and then their rights. -/
theorem mapImage64_closed (hI : Closed I) {e : Ehdr} {bounded : Bool} :
    Keeps I (mapImage64 env f fd e bias bounded) :=
  .bind (mapHeaders_closed hI) fun _ => .bind (applyRxAll_closed hI) fun _ => .pure

/-! ### Relocations -/

/-- A load changes nothing. -/
theorem loadWord_closed {a : Nat} : Keeps I (loadWord a) :=
  .get_bind fun _ => (Keeps.ite .pure .throw).pre fun _ ht => ht.2

/-- The table of relocations is only read. -/
theorem dynTable_closed {d : Nat} {t : DynTable} : Keeps I (dynTable n d t) := by
  induction n generalizing d t with
  | zero => exact .throw
  | succ n ih =>
    exact .bind loadWord_closed fun _ => .ite .pure (.bind loadWord_closed fun _ => ih)

/-- By induction on the number of entries; each stores one word. -/
theorem relaLoop_closed (hI : Closed I) {t : DynTable} {off : Nat} :
    Keeps I (relaLoop env bias t n off) := by
  induction n generalizing off with
  | zero => exact .throw
  | succ n ih =>
    refine .ite (.bind loadWord_closed fun _ => .ite ?_ ih) .pure
    exact .bind loadWord_closed fun _ => .bind loadWord_closed fun _ =>
      .bind (storeBytes_closed hI) fun _ => ih

theorem relocAdd_closed (hI : Closed I) {a : Nat} : Keeps I (relocAdd env bias a) :=
  .bind loadWord_closed fun _ => storeBytes_closed hI

/-- The words that one bitmap names. -/
theorem relrBits_closed (hI : Closed I) {where_ bitmap : Nat} :
    Keeps I (relrBits env bias where_ bitmap n) := by
  induction n with
  | zero => exact .pure
  | succ n ih => exact .ite (.bind (relocAdd_closed hI) fun _ => ih) ih

/-- By induction on the number of words of the packed table. -/
theorem relrLoop_closed (hI : Closed I) {t : DynTable} {off where_ : Nat} :
    Keeps I (relrLoop env bias t n off where_) := by
  induction n generalizing off where_ with
  | zero => exact .throw
  | succ n ih =>
    refine .ite (.bind loadWord_closed fun _ => .ite ?_ ?_) .pure
    · exact .bind (relocAdd_closed hI) fun _ => ih
    · exact .bind (relrBits_closed hI) fun _ => ih

/-- Both kinds of relocations. -/
theorem applyRelocs_closed (hI : Closed I) {dynVaddr : Nat} :
    Keeps I (applyRelocs env bias dynVaddr) := by
  refine .ite .pure (.bind dynTable_closed fun t => .bind ?_ fun _ => ?_)
  · exact .ite (relaLoop_closed hI) .pure
  · exact .ite .pure (relrLoop_closed hI)

/-- The interpreter and the relocations. -/
theorem mapRest_closed (hI : Closed I) {i : Option Interp} {dynVaddr imageEnd : Nat} :
    Keeps I (mapRest env i bias dynVaddr imageEnd) := by
  cases i with
  | none => exact .bind (applyRelocs_closed hI) fun _ => .pure
  | some i =>
    refine .bind (.bind (hI.reading reading_require) fun _ => ?_) fun _ => .pure
    exact .bind (hI.reading reading_interpGap) fun _ => .bind (mapImage64_closed hI) fun _ => .pure

/-! ### Images -/

/-- By induction on the number of headers of a 32-bit file. -/
theorem loadHeaders32_closed (hI : Closed I) {e : Ehdr} {pho : Nat} {c : Scan32} :
    Keeps I (loadHeaders32 env f e n pho c) := by
  induction n generalizing pho c with
  | zero => exact .pure
  | succ n ih =>
    refine .bind (hI.reading reading_lseek) fun _ => ?_
    refine .bind (hI.reading reading_readStruct) fun b => ?_
    refine .bind (hI.reading reading_scanHeader32) fun c' => .bind ?_ fun _ => ih
    refine .ite (.bind (segmentLoad_closed hI) fun _ => .bind ?_ fun _ => .pure) .pure
    exact .ite (applyRx_closed hI) .pure

/-- A 64-bit image, if the taking of the ids keeps `I` too. -/
theorem load64_closed (hI : Closed I) (hids : Keeps I (setIds f)) : Keeps I (load64 env f) := by
  refine .bind (hI.reading reading_planImage) fun p => ?_
  refine .bind (mapImage64_closed hI) fun imageEnd => .bind (mapRest_closed hI) fun r => ?_
  exact .bind hids fun _ => .bind (hI.reading reading_finishImage) fun _ => .pure

/-- A 32-bit image takes no ids. -/
theorem load32_closed (hI : Closed I) : Keeps I (load32 env f) := by
  refine .bind (hI.reading reading_readStruct) fun b => .bind (hI.reading reading_require)
    fun _ => ?_
  refine .bind (loadHeaders32_closed hI) fun c => ?_
  exact .bind (hI.reading reading_finishImage) fun _ => .pure

/-- What the steps keep is kept by the load of a file that is no PE image. -/
theorem load_closed {path : List UInt8} (hopen : env.openImage path = some f) (hpe : ¬ IsPe f)
    (hI : Closed I) (hids : Keeps I (setIds f)) : Keeps I (load env path) :=
  load_rule hopen hpe (fun hx => hI.reading hx) (fun _ _ hs => hs)
    (fun _ _ => load64_closed hI hids) fun _ _ => (load32_closed hI).pre fun _ hs => hs.2

/-! ### The effective user -/

/-- The file gives its user to the program. -/
def SetsUser (f : File) : Prop := f.mode &&& 0xf000 = 0x8000 ∧ f.mode &&& 0x800 ≠ 0

/-- The effective user of a program that `u` starts. -/
def EffectiveUser (f : File) (u : Nat) (s : Caller) : Prop :=
  s.euid = u ∨ SetsUser f ∧ s.euid = f.uid

variable {u : Nat} {path : List UInt8}

/-- The effective user is the owner of a file with the set-user-id bit. -/
theorem setIds_euid :
    Triple (fun s => s.euid = u) (setIds f) (fun _ => EffectiveUser f u) fun _ _ => True := by
  have hgroup : ∀ s : Caller, (takeGroup f s).euid = s.euid := by
    intro s
    unfold takeGroup
    split <;> rfl
  refine .modify fun s hs => ?_
  split
  next hreg =>
    by_cases huser : f.mode &&& 0x800 ≠ 0
    · refine .inr ⟨⟨hreg, huser⟩, ?_⟩
      rw [hgroup, takeUser, if_pos huser]
    · refine .inl ?_
      rw [hgroup, takeUser, if_neg huser, hs]
  next => exact .inl hs

/-- The steps of the loader leave the effective user, and what is known of
it. -/
theorem closed_euid (p : Nat → Prop) : Closed fun s => p s.euid :=
  ⟨fun _ _ _ _ _ h => h, fun _ _ h => h, fun _ _ h => h, fun _ _ _ _ h => h, fun _ _ h => h⟩

/-- An ELF image that `u` has started. -/
def StartedBy (f : File) (u : Nat) (img : Image) (s : Caller) : Prop :=
  img.isPe = false ∧ EffectiveUser f u s

/-- A 64-bit program is started by the effective user of its file. -/
theorem load64_euid : Yields (fun s => s.euid = u) (load64 env f) (StartedBy f u) := by
  have hbefore := closed_euid (· = u)
  have hafter := closed_euid fun x => x = u ∨ SetsUser f ∧ x = f.uid
  refine .bind (hbefore.reading reading_planImage).yields fun p => ?_
  refine .bind (mapImage64_closed hbefore).yields fun imageEnd => ?_
  refine .bind (mapRest_closed hbefore).yields fun r => .bind setIds_euid fun _ => ?_
  exact .bind (hafter.reading reading_finishImage).yields fun _ => .pure fun _ hs => ⟨rfl, hs⟩

/-- So is a 32-bit one. -/
theorem load32_euid : Yields (fun s => s.euid = u) (load32 env f) (StartedBy f u) := by
  have hI := closed_euid (· = u)
  refine .bind (hI.reading reading_readStruct).yields fun b => ?_
  refine .bind (hI.reading reading_require).yields fun _ => ?_
  refine .bind (loadHeaders32_closed hI).yields fun c => ?_
  exact .bind (hI.reading reading_finishImage).yields fun _ => .pure fun _ hs => ⟨rfl, .inl hs⟩

/-- The effective user after the load of an image that is not a PE image. -/
theorem load_euid (hopen : env.openImage path = some f) (hpe : ¬ IsPe f) :
    Yields (fun s => s.euid = u) (load env path) (StartedBy f u) :=
  load_rule hopen hpe (fun hx => (closed_euid (· = u)).reading hx) (fun _ _ _ => trivial)
    (fun _ _ => load64_euid) fun _ _ => load32_euid.pre fun _ hs => hs.2

end CoreZ.Proofs.Userprog.Loader
