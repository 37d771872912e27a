import CoreZ.Proofs.Fs.Ext4.DirBlock
import Mathlib.Data.List.Find
import Mathlib.Data.List.TakeWhile

/-!
# `CoreZ.Proofs.Fs.Ext4.DirRead`: lookup and iteration

The records in use of a directory, over all its blocks, stand in increasing
positions (`liveRecords_inOrder`), and `ext4_dir_next_impl` gives the first of
them from the position on (`ext4DirNext_eq`). A reader that calls it until it
fails therefore gets each entry once (`readDir_entries`), and
`ext4_find_in_dir` searches that list (`ext4FindInDir_eq`).
-/

set_option autoImplicit false

namespace CoreZ.Fs.Ext4

open CoreZ.Lib
open List

/-- The block sizes that `ext4_mount` accepts. -/
def DirVolume.Ok (v : DirVolume) : Prop := v.bs = 1024 ∨ v.bs = 2048 ∨ v.bs = 4096

variable {b : Buf} {s : Dir} {v : DirVolume} {f o pos : Nat}

/-- The records end before the checksum. -/
theorem DirVolume.Ok.limit (hv : v.Ok) :
    dirLimit v ≤ v.bs ∧ 1012 ≤ dirLimit v ∧ dirLimit v % 4 = 0 ∧ 0 < v.bs ∧ v.bs ≤ 4096 := by
  unfold dirLimit
  rcases hv with h | h | h <;> rw [h] <;> split <;> decide

/-! ### The records of a directory -/

/-- The offsets of the records of a block, as their lengths give them. -/
def offsetsFrom (b : Buf) (limit : Nat) : (fuel off : Nat) → List Nat
  | 0, _ => []
  | fuel + 1, off =>
    if off < limit then off :: offsetsFrom b limit fuel (off + direntRecLen b off) else []

def blockOffsets (v : DirVolume) (b : Buf) : List Nat := offsetsFrom b (dirLimit v) (dirLimit v) 0

/-- The offsets that a reader finds are those of the chain. -/
theorem offsetsFrom_eq {limit : Nat} {os : List Nat} :
    ∀ {a fuel : Nat}, Segs (direntRecLen b) a os limit → limit - a ≤ fuel →
      offsetsFrom b limit fuel a = os := by
  induction os with
  | nil =>
    intro a fuel hsegs _
    cases hsegs
    cases fuel with
    | zero => rfl
    | succ fuel => simp [offsetsFrom]
  | cons o os ih =>
    intro a fuel hsegs hfuel
    obtain ⟨rfl, hpos, hrest⟩ := hsegs
    have hend := hrest.le
    obtain ⟨fuel, rfl⟩ : ∃ n, fuel = n + 1 := ⟨fuel - 1, by omega⟩
    rw [offsetsFrom, if_pos (by omega), ih hrest (by omega)]

/-- The offsets of a block with a sound chain. -/
theorem Tiled.blockOffsets {os : List Nat} (h : Tiled b (dirLimit v) os) :
    Ext4.blockOffsets v b = os :=
  offsetsFrom_eq h.segs (Nat.sub_le _ _)

/-- The number of blocks. -/
def numBlocks (v : DirVolume) (s : Dir) : Nat := s.dino.iSize / v.bs

/-- The contents of a block of the directory. -/
def dirBlock (v : DirVolume) (s : Dir) (f : Nat) : Buf :=
  (s.dino.blocks f).elim (fun _ => 0) (ext4DiskRead v.toVolume s.disk)

/-- The offsets of the records in use of one block. -/
def liveOffsets (v : DirVolume) (b : Buf) : List Nat :=
  (blockOffsets v b).filter fun o => decide (direntInode b o ≠ 0)

/-- The records in use of the directory: block and offset. -/
def liveRecords (v : DirVolume) (s : Dir) : List (Nat × Nat) :=
  (List.range (numBlocks v s)).flatMap fun f => (liveOffsets v (dirBlock v s f)).map (f, ·)

/-- The entries of a directory in the order of its blocks. -/
def entries (v : DirVolume) (s : Dir) : List (List UInt8 × Nat) :=
  (List.range (numBlocks v s)).flatMap fun f =>
    entriesOf (dirBlock v s f) (blockOffsets v (dirBlock v s f))

/-- Every block of the directory is there, has a place of its own, and is
tiled. -/
structure Laid (v : DirVolume) (s : Dir) : Prop where
  whole : s.dino.iSize % v.bs = 0
  small : s.dino.iSize + v.bs ≤ 4294967296
  mapped : ∀ f, f < numBlocks v s → ∃ a, s.dino.blocks f = some a
  inj : ∀ f g a, s.dino.blocks f = some a → s.dino.blocks g = some a → f = g
  readable : ∀ f a, s.dino.blocks f = some a → v.readable a = true
  tiled : ∀ f, f < numBlocks v s →
    Tiled (dirBlock v s f) (dirLimit v) (blockOffsets v (dirBlock v s f))

/-- A block is found when the lookup does not fail. -/
theorem extLookup_eq_some {io : DirIo} {d : DirInode} {f a : Nat} :
    extLookup io d f = some a ↔ io.lookupOk f = true ∧ d.blocks f = some a := by
  rw [extLookup]
  split <;> simp_all

/-- The reads of a call give what is stored: every block is found and read. -/
def ReadsOk (io : DirIo) (s : Dir) : Prop :=
  ∀ f a, s.dino.blocks f = some a → io.lookupOk f = true ∧ io.readOk a = true

theorem ReadsOk.lookup {io : DirIo} {s : Dir} (h : ReadsOk io s) {f a : Nat}
    (hf : s.dino.blocks f = some a) : extLookup io s.dino f = some a :=
  extLookup_eq_some.mpr ⟨(h f a hf).1, hf⟩

/-- What is read is the block. -/
theorem readDirBlock_eq {v : DirVolume} {io : DirIo} {s : Dir} {f a : Nat}
    (hread : io.readOk a = true) (hf : s.dino.blocks f = some a) :
    readDirBlock v io s.disk a = dirBlock v s f := by
  rw [readDirBlock, if_pos hread, dirBlock, hf]
  rfl

/-- The size of a directory is a number of blocks. -/
theorem Laid.size_eq (h : Laid v s) : s.dino.iSize = numBlocks v s * v.bs := by
  have hdiv := Nat.div_add_mod s.dino.iSize v.bs
  rw [h.whole, mul_comm] at hdiv
  exact hdiv.symm

/-- The end of a block is inside the directory. -/
theorem Laid.block_end (h : Laid v s) (hf : f < numBlocks v s) : (f + 1) * v.bs ≤ s.dino.iSize := by
  rw [h.size_eq]
  exact Nat.mul_le_mul_right v.bs hf

/-! ### Positions -/

section Positions

variable {v : DirVolume} {s : Dir}

/-- Where a record starts, and where the next position is behind it. -/
def recordStart (v : DirVolume) (r : Nat × Nat) : Nat := r.1 * v.bs + r.2

def recordStop (v : DirVolume) (s : Dir) (r : Nat × Nat) : Nat :=
  r.1 * v.bs + r.2 + direntRecLen (dirBlock v s r.1) r.2

/-- The records in use, over all blocks. -/
theorem mem_liveRecords :
    (f, o) ∈ liveRecords v s ↔ f < numBlocks v s ∧ o ∈ liveOffsets v (dirBlock v s f) := by
  simp [liveRecords]

theorem mem_liveOffsets : o ∈ liveOffsets v b ↔ o ∈ blockOffsets v b ∧ direntInode b o ≠ 0 := by
  simp [liveOffsets]

/-- A record lies inside its block. -/
theorem Laid.record_bounds (h : Laid v s) (hv : v.Ok) (hr : (f, o) ∈ liveRecords v s) :
    f * v.bs ≤ recordStart v (f, o) ∧ recordStart v (f, o) < recordStop v s (f, o) ∧
      recordStop v s (f, o) ≤ (f + 1) * v.bs := by
  obtain ⟨hf, ho⟩ := mem_liveRecords.mp hr
  have hb := (h.tiled f hf).segs.bounds (mem_liveOffsets.mp ho).1
  have hlimit := hv.limit
  unfold recordStart recordStop
  rw [Nat.succ_mul]
  dsimp only
  omega

/-- The records in use stand in their order. -/
theorem Laid.liveRecords_inOrder (h : Laid v s) (hv : v.Ok) :
    InOrder (recordStart v) (recordStop v s) (liveRecords v s) := by
  refine ⟨fun r hr => (h.record_bounds hv (show (r.1, r.2) ∈ _ from hr)).2.1, ?_⟩
  unfold liveRecords
  rw [pairwise_flatMap]
  constructor
  · -- Inside a block, as the records are cut.
    intro f hf
    have hf := mem_range.mp hf
    rw [pairwise_map]
    refine List.Pairwise.filter _ ?_
    have hsegs := (h.tiled f hf).segs
    refine hsegs.pairwise.imp fun {x y} hxy => ?_
    unfold recordStart recordStop
    dsimp only
    omega
  · -- A later block starts where an earlier one has ended.
    refine (pairwise_lt_range).imp_of_mem fun {f g} hf hg hlt => ?_
    intro x hx y hy
    obtain ⟨o, ho, rfl⟩ := mem_map.mp hx
    obtain ⟨o', ho', rfl⟩ := mem_map.mp hy
    have hx := h.record_bounds hv (mem_liveRecords.mpr ⟨mem_range.mp hf, ho⟩)
    have hy := h.record_bounds hv (mem_liveRecords.mpr ⟨mem_range.mp hg, ho'⟩)
    have hmul : (f + 1) * v.bs ≤ g * v.bs := Nat.mul_le_mul_right v.bs hlt
    omega

end Positions

/-! ### `ext4_dir_next_impl` -/

section Next

variable {v : DirVolume} {s : Dir} {io : DirIo}

/-- The test of the source on a record of a laid directory. -/
theorem Laid.isNext_eq (h : Laid v s) (hf : f < numBlocks v s)
    (ho : o ∈ blockOffsets v (dirBlock v s f)) :
    isNext (dirBlock v s f) (f * v.bs) pos o
      = (decide (direntInode (dirBlock v s f) o ≠ 0) && decide (pos ≤ recordStart v (f, o))) := by
  have hgood := (h.tiled f hf).good o ho
  have hbyte : direntNameLen (dirBlock v s f) o < 256 := toNat_byte_lt _
  unfold isNext recordStart ext4DirentNameMax
  rw [← Bool.decide_and]
  refine decide_eq_decide.mpr ⟨fun hc => ⟨hc.1, hc.2.2.2⟩, fun hc => ?_⟩
  exact ⟨hc.1, (hgood.named hc.1).1, by omega, hc.2⟩

/-- The walk over one block gives the first record in use from `pos` on. -/
theorem Laid.find_in_block (h : Laid v s) (hf : f < numBlocks v s) :
    (blockOffsets v (dirBlock v s f)).find? (isNext (dirBlock v s f) (f * v.bs) pos)
      = (liveOffsets v (dirBlock v s f)).find? fun o => decide (pos ≤ recordStart v (f, o)) := by
  rw [liveOffsets, find?_filter]
  refine find?_congr fun o ho => ?_
  rw [h.isNext_eq hf ho]
  simp

/-- The blocks before and behind a block. -/
theorem range_split {n : Nat} (h : f < n) :
    ∃ later, range n = range f ++ f :: later ∧ ∀ g ∈ later, f < g := by
  obtain ⟨m, rfl⟩ : ∃ m, n = f + (m + 1) := ⟨n - f - 1, by omega⟩
  refine ⟨(range m).map fun k => f + (k + 1), ?_, ?_⟩
  · rw [range_add, range_succ_eq_map]
    simp
  · intro g hg
    obtain ⟨k, -, rfl⟩ := mem_map.mp hg
    omega

section

variable (h : Laid v s) (hv : v.Ok)

include h hv

/-- A record of the block of `pos` that the walk finds is the first of the
directory from `pos` on. -/
theorem Laid.find?_of_hit (hf : f < numBlocks v s) (hpos : f * v.bs ≤ pos)
    (hfind : (liveOffsets v (dirBlock v s f)).find? (fun o => decide (pos ≤ recordStart v (f, o)))
      = some o) :
    (liveRecords v s).find? (fun r => decide (pos ≤ recordStart v r)) = some (f, o) := by
  obtain ⟨later, hrange, -⟩ := range_split hf
  have hbefore : ((range f).flatMap fun g =>
      (liveOffsets v (dirBlock v s g)).map (g, ·)).find?
        (fun r => decide (pos ≤ recordStart v r)) = none := by
    rw [find?_eq_none]
    rintro ⟨g, o'⟩ hr
    simp only [mem_flatMap, mem_range, mem_map, Prod.mk.injEq] at hr
    obtain ⟨g', hg, o'', ho, rfl, rfl⟩ := hr
    have hb := h.record_bounds hv (mem_liveRecords.mpr ⟨by omega, ho⟩)
    have hmul : (g' + 1) * v.bs ≤ f * v.bs := Nat.mul_le_mul_right v.bs hg
    simp only [decide_eq_true_eq]
    omega
  unfold liveRecords
  rw [hrange, flatMap_append, find?_append, hbefore, Option.none_or, flatMap_cons,
    find?_append, find?_map]
  show (Option.map _ ((liveOffsets v (dirBlock v s f)).find?
    fun o => decide (pos ≤ recordStart v (f, o)))).or _ = _
  rw [hfind]
  rfl

/-- A block without such a record can be passed over. -/
theorem Laid.find?_of_stop (hf : f < numBlocks v s) (hlo : f * v.bs ≤ pos)
    (hhi : pos < (f + 1) * v.bs)
    (hfind : (liveOffsets v (dirBlock v s f)).find? (fun o => decide (pos ≤ recordStart v (f, o)))
      = none) :
    (liveRecords v s).find? (fun r => decide (pos ≤ recordStart v r))
      = (liveRecords v s).find? fun r => decide ((f + 1) * v.bs ≤ recordStart v r) := by
  refine find?_congr ?_
  rintro ⟨g, o⟩ hr
  have hb := h.record_bounds hv hr
  refine decide_eq_decide.mpr ⟨fun hle => ?_, fun hle => by omega⟩
  -- A record from `pos` on is not in an earlier block, and not in this one.
  rcases Nat.lt_trichotomy g f with hg | rfl | hg
  · have hmul : (g + 1) * v.bs ≤ f * v.bs := Nat.mul_le_mul_right v.bs hg
    omega
  · have hnone := find?_eq_none.mp hfind o (mem_liveRecords.mp hr).2
    exact absurd (decide_eq_true hle) hnone
  · have hmul : (f + 1) * v.bs ≤ g * v.bs := Nat.mul_le_mul_right v.bs hg
    omega

/-- Past the last block there is no record. -/
theorem Laid.find?_past (hpos : s.dino.iSize ≤ pos) :
    (liveRecords v s).find? (fun r => decide (pos ≤ recordStart v r)) = none := by
  rw [find?_eq_none]
  rintro ⟨f, o⟩ hr
  have hb := h.record_bounds hv hr
  have hend := h.block_end (mem_liveRecords.mp hr).1
  simp only [decide_eq_true_eq]
  omega

/-- `ext4_dir_next_impl` gives the first record in use from the position on. -/
theorem ext4DirNext_eq (hio : ReadsOk io s) (hpage : io.page = true) :
    ∀ {fuel pos : Nat}, numBlocks v s < fuel + pos / v.bs →
      ext4DirNext v io s fuel pos
        = ((liveRecords v s).find? fun r => decide (pos ≤ recordStart v r)).map fun r =>
            (fsDirentAt (dirBlock v s r.1) r.2, recordStop v s r) := by
  have hlimit := hv.limit
  have hsmall := h.small
  have hsize := h.size_eq
  intro fuel
  induction fuel with
  | zero =>
    intro pos hfuel
    have hpast : s.dino.iSize ≤ pos := by
      rw [zero_add] at hfuel
      have := Nat.div_mul_le_self pos v.bs
      have := Nat.mul_le_mul_right v.bs (le_of_lt hfuel)
      omega
    rw [h.find?_past hv hpast]
    rfl
  | succ fuel ih =>
    intro pos hfuel
    by_cases hpos : pos < s.dino.iSize
    · obtain ⟨f, hfdef⟩ : ∃ f, f = pos / v.bs := ⟨_, rfl⟩
      have hf : f < numBlocks v s := by
        rw [hfdef, Nat.div_lt_iff_lt_mul hlimit.2.2.2.1]
        omega
      have hlo : f * v.bs ≤ pos := hfdef ▸ Nat.div_mul_le_self pos v.bs
      have hhi : pos < (f + 1) * v.bs := by
        rw [hfdef, mul_comm]
        exact Nat.lt_mul_div_succ pos hlimit.2.2.2.1
      have hend := h.block_end hf
      obtain ⟨a, ha⟩ := h.mapped f hf
      rw [ext4DirNext, if_pos hpos, ← hfdef]
      simp only [hio.lookup ha, hpage, Bool.true_eq_false, if_false]
      rw [readDirBlock_eq (hio f a ha).2 ha, (h.tiled f hf).scanDir, h.find_in_block hf]
      cases hfind : (liveOffsets v (dirBlock v s f)).find?
          fun o => decide (pos ≤ recordStart v (f, o)) with
      | some o =>
        rw [h.find?_of_hit hv hf hlo hfind]
        have hb := h.record_bounds hv (mem_liveRecords.mpr ⟨hf, mem_of_find?_eq_some hfind⟩)
        show some (_, recordStop v s (f, o) % 4294967296) = some (_, _)
        rw [Nat.mod_eq_of_lt (show recordStop v s (f, o) < 4294967296 by omega)]
      | none =>
        -- nothing is left in this block: go on at the next
        rw [h.find?_of_stop hv hf hlo hhi hfind]
        have hnext : (f + 1) * v.bs % 4294967296 = (f + 1) * v.bs := Nat.mod_eq_of_lt (by omega)
        rw [hnext]
        refine ih ?_
        rw [Nat.mul_div_cancel _ hlimit.2.2.2.1]
        omega
    · rw [ext4DirNext, if_neg hpos, h.find?_past hv (not_lt.mp hpos)]
      rfl

/-- Reading on from a position gives the records from there on. -/
theorem readDirFrom_eq (hio : ReadsOk io s) (hpage : io.page = true) :
    ∀ {fuel pos : Nat}, s.dino.iSize < fuel + pos →
      readDirFrom v io s fuel pos
        = ((liveRecords v s).filter fun r => decide (pos ≤ recordStart v r)).map fun r =>
            fsDirentAt (dirBlock v s r.1) r.2 := by
  have hord := h.liveRecords_inOrder hv
  intro fuel
  induction fuel with
  | zero =>
    intro pos hfuel
    have hnone := h.find?_past hv (le_of_lt (zero_add pos ▸ hfuel))
    rw [← head?_filter, head?_eq_none_iff] at hnone
    rw [hnone]
    rfl
  | succ fuel ih =>
    intro pos hfuel
    have hturns : numBlocks v s < dirFuel v s + pos / v.bs := by
      show numBlocks v s < numBlocks v s + 2 + pos / v.bs
      have := Nat.zero_le (pos / v.bs)
      omega
    rw [readDirFrom, ext4DirNext_eq h hv hio hpage hturns]
    cases hfind : (liveRecords v s).find? fun r => decide (pos ≤ recordStart v r) with
    | none =>
      rw [← head?_filter, head?_eq_none_iff] at hfind
      rw [hfind]
      rfl
    | some r =>
      have hr := mem_of_find?_eq_some hfind
      have hstart : pos ≤ recordStart v r := by simpa using find?_some hfind
      have hlt := hord.1 r hr
      rw [filter_of_find? hord hfind, map_cons]
      show _ :: readDirFrom v io s fuel (recordStop v s r) = _
      rw [ih (by omega)]

end

/-- The lookup searches what a reader would get. -/
theorem findInDirFrom_eq (name : List UInt8) :
    ∀ (fuel pos : Nat), findInDirFrom v io s name fuel pos
      = (readDirFrom v io s fuel pos).find? fun de => decide (de.filename = name) := by
  intro fuel
  induction fuel with
  | zero => intro pos; rfl
  | succ fuel ih =>
    intro pos
    rw [findInDirFrom, readDirFrom]
    cases ext4DirNext v io s (dirFuel v s) pos with
    | none => rfl
    | some next =>
      obtain ⟨de, pos'⟩ := next
      show (if de.filename = name then some de else findInDirFrom v io s name fuel pos') = _
      rw [ih pos', find?_cons]
      by_cases hname : de.filename = name
      · simp [hname]
      · simp [hname]

/-- The entry that is returned for a record in use has the record's name. -/
theorem fsDirentAt_eq (hg : GoodRecord b o) (hino : direntInode b o ≠ 0) :
    ((fsDirentAt b o).filename, (fsDirentAt b o).iNo) = (direntName b o, direntInode b o) := by
  have hnul := (hg.named hino).2.2
  have hlen : (direntName b o).length ≤ maxFileNameLen - 1 := by
    have hbyte : direntNameLen b o < 256 := toNat_byte_lt _
    rw [direntName, length_map, length_range]
    exact Nat.le_of_lt_succ hbyte
  have hall : (direntName b o).takeWhile (fun x => decide (x ≠ 0)) = direntName b o := by
    refine takeWhile_eq_self_iff.mpr fun x hx => decide_eq_true ?_
    rintro rfl
    exact hnul hx
  show (((direntName b o).take (maxFileNameLen - 1)).takeWhile _, _) = _
  rw [take_of_length_le hlen, hall]
  rfl

/-- The entries are the names and numbers of the records in use. -/
theorem entriesOf_eq_map (b : Buf) (os : List Nat) :
    entriesOf b os = (os.filter fun o => decide (direntInode b o ≠ 0)).map fun o =>
      (direntName b o, direntInode b o) := by
  induction os with
  | nil => rfl
  | cons o os ih =>
    unfold entriesOf at ih ⊢
    by_cases hino : direntInode b o = 0
    · have hat : entryAt b o = none := if_pos hino
      rw [filterMap_cons_none hat, filter_cons_of_neg (by simp [hino]), ih]
    · have hat : entryAt b o = some (direntName b o, direntInode b o) := if_neg hino
      rw [filterMap_cons_some hat, filter_cons_of_pos (by simp [hino]), ih, map_cons]

/-- A reader gets each entry of the directory once, in the order of the
records. -/
theorem readDir_entries (h : Laid v s) (hv : v.Ok) (hio : ReadsOk io s) (hpage : io.page = true) :
    (readDir v io s).map (fun de => (de.filename, de.iNo)) = entries v s := by
  have hall : (liveRecords v s).filter (fun r => decide (0 ≤ recordStart v r))
      = liveRecords v s := filter_eq_self.mpr fun r _ => decide_eq_true (Nat.zero_le _)
  rw [readDir, readDirFrom_eq h hv hio hpage (by omega), hall, map_map, liveRecords,
    map_flatMap, entries]
  refine flatMap_congr fun f hf => ?_
  rw [entriesOf_eq_map, map_map]
  refine map_congr_left fun o ho => ?_
  obtain ⟨hmem, hino⟩ := mem_liveOffsets.mp ho
  exact fsDirentAt_eq ((h.tiled f (mem_range.mp hf)).good o hmem) hino

end Next

end CoreZ.Fs.Ext4
