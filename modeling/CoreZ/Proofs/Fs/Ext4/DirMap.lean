import CoreZ.Lib.Run
import CoreZ.Proofs.Fs.Ext4.DirRead
import Mathlib.Data.List.Nodup

/-!
# `CoreZ.Proofs.Fs.Ext4.DirMap`: a directory as a finite map

The entries of a directory are a list in which every operation changes one
place: `ext4_add_entry` puts an entry in (`ext4AddEntry_spec`),
`ext4_remove_entry` takes one out (`ext4RemoveEntry_spec`). A map is represented
by such a list (`Represents`), so the map that the operations make is the one
that lookup and iteration give.

The condition on a step (`GoodDirStep`) says what the source does not check.
`ext4_read_block`, `ext4_store_block` and `ext4_write_inode_impl` can fail, and
their results are dropped: the operation reports success and the entry is not
there. `ext_insert` can fail, or succeed, with the tree half changed
(`Insertion.Sound` excludes it). The size of the directory is a 32-bit number that is not checked
either. A name of 255 bytes is a name for `ext4_dir_next`, but
`ext4_remove_entry` refuses it.
-/

set_option autoImplicit false

namespace CoreZ.Fs.Ext4

open CoreZ.Lib
open Function
open List

/-! ### Maps and lists of entries -/

/-- The map from names to inode numbers that a list of entries stands for. -/
structure Represents (es : List (List UInt8 × Nat)) (m : List UInt8 → Option Nat) : Prop where
  nodup : (es.map Prod.fst).Nodup
  mem_iff : ∀ name ino, (name, ino) ∈ es ↔ m name = some ino

section Represents

variable {es es' : List (List UInt8 × Nat)} {m : List UInt8 → Option Nat} {name : List UInt8}
  {ino : Nat}

/-- A name that the map does not have is no entry. -/
theorem Represents.not_mem (h : Represents es m) (hm : m name = none) :
    name ∉ es.map Prod.fst := by
  intro hmem
  obtain ⟨⟨n, i⟩, hin, rfl⟩ := mem_map.mp hmem
  have := (h.mem_iff n i).mp hin
  rw [hm] at this
  cases this

/-- A name that is no entry is not in the map. -/
theorem Represents.eq_none (h : Represents es m) (hn : name ∉ es.map Prod.fst) :
    m name = none := by
  cases hm : m name with
  | none => rfl
  | some i => exact absurd (mem_map_of_mem ((h.mem_iff name i).mpr hm)) hn

/-- Searching the list is the map. -/
theorem Represents.find? (h : Represents es m) (name : List UInt8) :
    (es.find? fun e => decide (e.1 = name)).map Prod.snd = m name := by
  cases hfind : es.find? fun e => decide (e.1 = name) with
  | none =>
    refine (h.eq_none fun hmem => ?_).symm
    obtain ⟨e, he, rfl⟩ := mem_map.mp hmem
    exact absurd (decide_eq_true rfl) (find?_eq_none.mp hfind e he)
  | some e =>
    have hname : e.1 = name := by simpa using find?_some hfind
    have hmem := mem_of_find?_eq_some hfind
    exact ((h.mem_iff name e.2).mp (hname ▸ hmem)).symm

/-- The entries after an insertion. -/
theorem InsertedIn.mem_iff (h : InsertedIn (name, ino) es es') (e : List UInt8 × Nat) :
    e ∈ es' ↔ e = (name, ino) ∨ e ∈ es := by
  obtain ⟨front, back, rfl, rfl⟩ := h
  simp only [mem_append, mem_cons]
  tauto

/-- Names stay distinct when the new one is new. -/
theorem InsertedIn.nodup_iff (h : InsertedIn (name, ino) es es') :
    (es'.map Prod.fst).Nodup ↔ name ∉ es.map Prod.fst ∧ (es.map Prod.fst).Nodup := by
  obtain ⟨front, back, rfl, rfl⟩ := h
  rw [map_append, map_cons, map_append, nodup_middle, nodup_cons]

/-- One entry more is an update of the map. -/
theorem Represents.insert (h : Represents es m) (hins : InsertedIn (name, ino) es es')
    (hm : m name = none) : Represents es' (update m name (some ino)) := by
  refine ⟨hins.nodup_iff.mpr ⟨h.not_mem hm, h.nodup⟩, fun n i => ?_⟩
  rw [hins.mem_iff, Prod.mk.injEq, h.mem_iff]
  by_cases hn : n = name
  · subst hn
    rw [update_self, hm]
    simp [eq_comm]
  · simp [hn]

/-- One entry less as well. -/
theorem Represents.erase (h : Represents es' m) (hins : InsertedIn (name, ino) es es') :
    Represents es (update m name none) := by
  obtain ⟨hnot, hnodup⟩ := hins.nodup_iff.mp h.nodup
  refine ⟨hnodup, fun n i => ?_⟩
  by_cases hn : n = name
  · subst hn
    rw [update_self]
    exact iff_of_false (fun hmem => hnot (mem_map_of_mem hmem)) (Option.some_ne_none i).symm
  · rw [update_of_ne hn, ← h.mem_iff, hins.mem_iff]
    simp [hn]

/-- An insertion into a part of the list. -/
theorem InsertedIn.within {e : List UInt8 × Nat} (h : InsertedIn e es es')
    {front back : List (List UInt8 × Nat)} :
    InsertedIn e (front ++ (es ++ back)) (front ++ (es' ++ back)) := by
  obtain ⟨l, r, rfl, rfl⟩ := h
  exact ⟨front ++ l, r ++ back, by simp, by simp⟩

end Represents

/-! ### Storing a block -/

variable {v : DirVolume} {os : List Nat}

section Store

variable {v : DirVolume} {s : Dir} {d : DirInode} {f a : Nat} {b : Buf}

/-- The block that was stored is read. -/
theorem dirBlock_store_same (hf : d.blocks f = some a) (hread : v.readable a = true) {i : Nat}
    (hi : i < v.bs) :
    dirBlock v ⟨d, IoWrite.apply v.toVolume s.disk (.cached a b)⟩ f i = b i := by
  have hblit : ∀ (c : Buf) (src : Buf), blit c 0 v.bs src i = src i := fun c src =>
    blit_in ⟨Nat.zero_le i, by omega⟩
  simp [dirBlock, hf, ext4DiskRead, hread, IoWrite.apply, hblit]

/-- Other blocks of the directory stay. -/
theorem dirBlock_store_other {g : Nat} (hg : d.blocks g = s.dino.blocks g)
    (hne : s.dino.blocks g ≠ some a) :
    dirBlock v ⟨d, IoWrite.apply v.toVolume s.disk (.cached a b)⟩ g = dirBlock v s g := by
  simp only [dirBlock, hg]
  cases hblk : s.dino.blocks g with
  | none => rfl
  | some c =>
    have hca : c ≠ a := by
      rintro rfl
      exact hne hblk
    simp [ext4DiskRead, IoWrite.apply, update_of_ne hca]

/-- Blocks that are equal below the limit have the same records. -/
theorem tiled_of_below {b b' : Buf} (h : Tiled b (dirLimit v) os)
    (heq : ∀ i, i < dirLimit v → b' i = b i) :
    Tiled b' (dirLimit v) (blockOffsets v b') ∧
      entriesOf b' (blockOffsets v b') = entriesOf b os := by
  have h' := h.congr heq
  rw [h'.blockOffsets]
  exact ⟨h', entriesOf_congr (h.same heq)⟩

/-- Storing a tiled block, with any tail, as block `f` of a directory that has
no further new block. -/
theorem Laid.put {b' : Buf} (h : Laid v s) (hv : v.Ok) (hb : Tiled b (dirLimit v) os)
    (hbelow : ∀ i, i < dirLimit v → b' i = b i) (hread : v.readable a = true)
    (hnew : ∀ g, g ≠ f → s.dino.blocks g ≠ some a)
    (hblocks : d.blocks = update s.dino.blocks f (some a)) (hwhole : d.iSize % v.bs = 0)
    (hsmall : d.iSize + v.bs ≤ 4294967296)
    (hnum : ∀ g, g ≠ f → g < d.iSize / v.bs → g < numBlocks v s) {s' : Dir}
    (hs' : s' = ⟨d, IoWrite.apply v.toVolume s.disk (.cached a b')⟩) :
    Laid v s' ∧ (∀ g, g ≠ f → dirBlock v s' g = dirBlock v s g) ∧
      entriesOf (dirBlock v s' f) (blockOffsets v (dirBlock v s' f)) = entriesOf b os := by
  have hlimit := hv.limit
  subst hs'
  have hat : d.blocks f = some a := by rw [hblocks, update_self]
  have hne : ∀ g, g ≠ f → d.blocks g = s.dino.blocks g := fun g hg => by
    rw [hblocks, update_of_ne hg]
  -- no other block has the address
  have haddr : ∀ g c, d.blocks g = some c → g = f ∧ c = a ∨ c ≠ a ∧ s.dino.blocks g = some c := by
    intro g c hg
    by_cases hgn : g = f
    · rw [hgn, hat] at hg
      exact .inl ⟨hgn, (Option.some.inj hg).symm⟩
    · rw [hne g hgn] at hg
      exact .inr ⟨fun hca => hnew g hgn (hca ▸ hg), hg⟩
  have hother := fun g hg => dirBlock_store_other (v := v) (b := b') (hne g hg) (hnew g hg)
  obtain ⟨htiled, hentries⟩ := tiled_of_below hb fun i hi =>
    (dirBlock_store_same hat hread (by omega)).trans (hbelow i hi)
  refine ⟨⟨hwhole, hsmall, ?_, ?_, ?_, ?_⟩, hother, hentries⟩
  · intro g hg
    by_cases hgn : g = f
    · exact ⟨a, hgn ▸ hat⟩
    · obtain ⟨c, hc⟩ := h.mapped g (hnum g hgn hg)
      exact ⟨c, (hne g hgn).trans hc⟩
  · intro g g' c hg hg'
    obtain ⟨hgf, hca⟩ | ⟨hca, hold⟩ := haddr g c hg <;>
      obtain ⟨hgf', hca'⟩ | ⟨hca', hold'⟩ := haddr g' c hg'
    · rw [hgf, hgf']
    · exact absurd hca hca'
    · exact absurd hca' hca
    · exact h.inj g g' c hold hold'
  · intro g c hg
    obtain ⟨-, rfl⟩ | ⟨-, hold⟩ := haddr g c hg
    · exact hread
    · exact h.readable g c hold
  · intro g hg
    by_cases hgn : g = f
    · rw [hgn]
      exact htiled
    · rw [hother g hgn]
      exact h.tiled g (hnum g hgn hg)

/-- In the place of one of the directory's blocks. -/
theorem Laid.store (h : Laid v s) (hv : v.Ok) (hf : f < numBlocks v s)
    (ha : s.dino.blocks f = some a) (hb : Tiled b (dirLimit v) os) (hsize : d.iSize = s.dino.iSize)
    (hblocks : d.blocks = s.dino.blocks) {s' : Dir}
    (hs' : s' = ⟨d, IoWrite.apply v.toVolume s.disk (.cached a (dirTailFix v s.dino b))⟩) :
    Laid v s' ∧ ∃ front back,
      entries v s = front ++
        (entriesOf (dirBlock v s f) (blockOffsets v (dirBlock v s f)) ++ back) ∧
      entries v s' = front ++ (entriesOf b os ++ back) := by
  obtain ⟨hlaid, hother, hentries⟩ := h.put hv hb (fun i hi => dirTailFix_below hi)
    (h.readable f a ha) (fun g hg hga => hg (h.inj g f a hga ha))
    (by rw [hblocks, ← ha, update_eq_self]) (hsize ▸ h.whole) (hsize ▸ h.small)
    (fun g _ hg => by rwa [hsize] at hg) hs'
  have hnum : numBlocks v s' = numBlocks v s := by rw [hs', numBlocks, numBlocks, hsize]
  obtain ⟨later, hrange, hlater⟩ := range_split hf
  refine ⟨hlaid, (range f).flatMap fun g =>
      entriesOf (dirBlock v s g) (blockOffsets v (dirBlock v s g)),
    later.flatMap fun g => entriesOf (dirBlock v s g) (blockOffsets v (dirBlock v s g)), ?_, ?_⟩
  · rw [entries, hrange, flatMap_append, flatMap_cons]
  · rw [entries, hnum, hrange, flatMap_append, flatMap_cons, hentries]
    congr 1
    · refine flatMap_congr fun g hg => ?_
      have := mem_range.mp hg
      rw [hother g (by omega)]
    · congr 1
      refine flatMap_congr fun g hg => ?_
      have := hlater g hg
      rw [hother g (by omega)]

/-- Behind the last one. -/
theorem Laid.append {d' : DirInode} (h : Laid v s) (hv : v.Ok) (hb : Tiled b (dirLimit v) os)
    (hread : v.readable a = true) (hnew : ∀ g, g ≠ numBlocks v s → s.dino.blocks g ≠ some a)
    (hblocks : d.blocks = update s.dino.blocks (numBlocks v s) (some a))
    (hsize : d.iSize = s.dino.iSize + v.bs) (hroom : s.dino.iSize + 2 * v.bs ≤ 4294967296)
    {s' : Dir} (hs' : s' = ⟨d, IoWrite.apply v.toVolume s.disk (.cached a (dirTailFix v d' b))⟩) :
    Laid v s' ∧ entries v s' = entries v s ++ entriesOf b os := by
  have hdiv : d.iSize / v.bs = numBlocks v s + 1 := by
    rw [hsize, Nat.add_div_right _ hv.limit.2.2.2.1]
    rfl
  obtain ⟨hlaid, hother, hentries⟩ := h.put hv hb (fun i hi => dirTailFix_below hi) hread hnew
    hblocks (by rw [hsize, Nat.add_mod_right]; exact h.whole) (by omega) (by omega) hs'
  have hnum : numBlocks v s' = numBlocks v s + 1 := by rw [hs', numBlocks, hdiv]
  refine ⟨hlaid, ?_⟩
  rw [entries, hnum, range_succ, flatMap_append, flatMap_singleton, hentries]
  congr 1
  refine flatMap_congr fun g hg => ?_
  have := mem_range.mp hg
  rw [hother g (by omega)]

end Store

/-! ### The two operations -/

section Operations

variable {v : DirVolume} {s s' : Dir} {io : DirIo} {name : List UInt8}

/-- The test of the loop over the blocks. -/
theorem Laid.insideDir_iff (h : Laid v s) (hv : v.Ok) {f : Nat} (hf : f ≤ numBlocks v s) :
    insideDir v s.dino f = true ↔ f < numBlocks v s := by
  have hlimit := hv.limit
  have hsmall := h.small
  have hsize := h.size_eq
  have hle : f * v.bs ≤ numBlocks v s * v.bs := Nat.mul_le_mul_right v.bs hf
  unfold insideDir
  rw [decide_eq_true_iff, Nat.mod_eq_of_lt (by omega), hsize]
  exact Nat.mul_lt_mul_right hlimit.2.2.2.1

variable {ino : Nat} {dtype : UInt8}

/-- What the loop of `ext4_add_entry_impl` returns is one block with the entry
put into it. -/
theorem addToBlocks_some (h : Laid v s) (hv : v.Ok)
    (hio : ∀ f a, extLookup io s.dino f = some a → io.readOk a = true) {disk : Disk} :
    ∀ {fuel f : Nat}, f ≤ numBlocks v s →
      addToBlocks v io s ino name dtype fuel f = some disk →
      ∃ g a b, g < numBlocks v s ∧ s.dino.blocks g = some a ∧
        addToBlock v (dirBlock v s g) ino name dtype = some b ∧
        disk = storeDirBlock v io s.disk a (dirTailFix v s.dino b) := by
  intro fuel
  induction fuel with
  | zero =>
    intro f _ hadd
    cases hadd
  | succ fuel ih =>
    intro f hf hadd
    rw [addToBlocks] at hadd
    by_cases hin : insideDir v s.dino f = true
    · have hlt := (h.insideDir_iff hv hf).mp hin
      simp only [hin, if_true] at hadd
      -- A lookup that fails ends the loop, and the entry goes behind the last block.
      cases hlook : extLookup io s.dino f with
      | none =>
        rw [hlook] at hadd
        cases hadd
      | some a =>
        have ha := (extLookup_eq_some.mp hlook).2
        simp only [hlook, readDirBlock_eq (hio f a hlook) ha] at hadd
        cases hblk : addToBlock v (dirBlock v s f) ino name dtype with
        | none =>
          rw [hblk] at hadd
          exact ih hlt hadd
        | some b =>
          rw [hblk] at hadd
          cases hadd
          exact ⟨f, a, b, hlt, ha, hblk, rfl⟩
    · rw [if_neg hin] at hadd
      cases hadd

/-- The insertion succeeds and enters the block, or fails before it has stored a
node of the tree. -/
def Insertion.Sound (o : Insertion) (blocks : Nat → Option Nat) (fblk addr : Nat) : Prop :=
  if o.ok then o.blocks = update blocks fblk (some addr) else o.stored = blocks

/-- The environment of a call that changes the directory: what the source takes
for granted. -/
structure GoodDirIo (v : DirVolume) (io : DirIo) (s : Dir) : Prop where
  reads : ∀ f a, extLookup io s.dino f = some a → io.readOk a = true
  store : io.storeOk = true
  inode : io.inodeOk = true
  /-- `ext4_alloc_block` gives a block of the volume that is not in use. -/
  fresh : ∀ a, io.pick = some a → v.readable a = true ∧ ∀ f, s.dino.blocks f ≠ some a
  insert : ∀ a, io.pick = some a → io.insert.Sound s.dino.blocks (numBlocks v s) a

/-- Link counts move no block. -/
theorem dinoLinkInc_blocks (d : DirInode) (dtype : UInt8) (name : List UInt8) :
    (dinoLinkInc d dtype name).blocks = d.blocks ∧ (dinoLinkInc d dtype name).iSize = d.iSize := by
  unfold dinoLinkInc
  split <;> exact ⟨rfl, rfl⟩

theorem dinoLinkDec_blocks {d : DirInode} {dtype : UInt8} {name : List UInt8} :
    (dinoLinkDec d dtype name).blocks = d.blocks ∧ (dinoLinkDec d dtype name).iSize = d.iSize := by
  unfold dinoLinkDec
  split <;> exact ⟨rfl, rfl⟩

/-- `ext4_ensure_block` fails with the tree as it was. -/
theorem ext4EnsureBlock_none (hio : GoodDirIo v io s)
    (hens : (ext4EnsureBlock io s.dino (numBlocks v s)).addr = none) :
    (ext4EnsureBlock io s.dino (numBlocks v s)).stored = s.dino := by
  unfold ext4EnsureBlock at hens ⊢
  split at hens
  · cases hens
  · cases hpick : io.pick with
    | none => rfl
    | some a =>
      have hsound := hio.insert a hpick
      simp only [hpick, ite_eq_right_iff, reduceCtorEq, imp_false] at hens
      rw [Insertion.Sound, if_neg hens] at hsound
      simp only [hsound]

/-- What `ext4_ensure_block` gives is the map with the block in it. -/
theorem ext4EnsureBlock_some (h : Laid v s) (hio : GoodDirIo v io s) {a : Nat} {d : DirInode}
    (hens : (ext4EnsureBlock io s.dino (numBlocks v s)).addr = some a)
    (hd : (ext4EnsureBlock io s.dino (numBlocks v s)).memory = d) :
    v.readable a = true ∧ (∀ g, g ≠ numBlocks v s → s.dino.blocks g ≠ some a) ∧
      d.blocks = update s.dino.blocks (numBlocks v s) (some a) ∧
      d.iSize = s.dino.iSize := by
  subst hd
  unfold ext4EnsureBlock at hens ⊢
  cases hlook : extLookup io s.dino (numBlocks v s) with
  | some c =>
    rw [hlook] at hens
    cases hens
    have hblk := (extLookup_eq_some.mp hlook).2
    refine ⟨h.readable _ _ hblk, fun g hg hga => hg (h.inj g _ _ hga hblk), ?_, rfl⟩
    show s.dino.blocks = _
    rw [← hblk, update_eq_self]
  | none =>
    rw [hlook] at hens
    cases hpick : io.pick with
    | none =>
      rw [hpick] at hens
      cases hens
    | some c =>
      simp only [hpick, Option.ite_none_right_eq_some, Option.some.injEq] at hens
      obtain ⟨hok, rfl⟩ := hens
      obtain ⟨hread, hnew⟩ := hio.fresh c hpick
      have hsound := hio.insert c hpick
      rw [Insertion.Sound, if_pos hok] at hsound
      exact ⟨hread, fun g _ => hnew g, hsound, rfl⟩

/-- `ext4_add_entry` fails and changes nothing, or puts the entry in. -/
theorem ext4AddEntry_spec (h : Laid v s) (hv : v.Ok) (hio : GoodDirIo v io s)
    (hroom : s.dino.iSize + 2 * v.bs ≤ 4294967296) {ok : Bool} (hnul : 0 ∉ name)
    (hino : 0 < ino ∧ ino < 4294967296) (hadd : ext4AddEntry v io s ino name dtype = (ok, s')) :
    (ok = false ∧ s' = s) ∨
      ok = true ∧ Laid v s' ∧ InsertedIn (name, ino) (entries v s) (entries v s') := by
  have hlimit := hv.limit
  unfold ext4AddEntry at hadd
  by_cases hlen : name.length = 0 ∨ name.length ≥ ext4DirentNameMax
  · rw [if_pos hlen] at hadd
    cases hadd
    exact .inl ⟨rfl, rfl⟩
  rw [if_neg hlen] at hadd
  by_cases hpage : io.page = false
  · rw [if_pos hpage] at hadd
    cases hadd
    exact .inl ⟨rfl, rfl⟩
  rw [if_neg hpage] at hadd
  have he : GoodEntry name ino := by
    unfold ext4DirentNameMax at hlen
    exact ⟨by omega, by omega, hnul, hino.1, hino.2⟩
  have hshort := he.short
  cases hloop : addToBlocks v io s ino name dtype (s.dino.iSize / v.bs + 1) 0 with
  | some disk =>
    -- A block with room: the entry goes into its record list.
    rw [hloop] at hadd
    cases hadd
    obtain ⟨g, a, b, hg, ha, hblk, rfl⟩ := addToBlocks_some h hv hio.reads (Nat.zero_le _) hloop
    obtain ⟨os, htiled, hins⟩ := addToBlock_spec (h.tiled g hg) (by omega) he hblk
    obtain ⟨hbl, hsz⟩ := dinoLinkInc_blocks s.dino dtype name
    simp only [storeInode, hio.inode, if_true, storeDirBlock, hio.store]
    obtain ⟨hlaid, front, back, hold, hnew⟩ := h.store hv hg ha htiled hsz hbl rfl
    refine .inr ⟨trivial, hlaid, ?_⟩
    rw [hold, hnew]
    exact hins.within
  | none =>
    rw [hloop] at hadd
    cases hens : (ext4EnsureBlock io s.dino (s.dino.iSize / v.bs)).addr with
    | none =>
      simp only [hens] at hadd
      cases hadd
      refine .inl ⟨rfl, ?_⟩
      rw [show (ext4EnsureBlock io s.dino (s.dino.iSize / v.bs)).stored = s.dino from
        ext4EnsureBlock_none hio hens]
    | some a =>
      -- A new block behind the last one, with one record.
      obtain ⟨d, hd⟩ : ∃ d, (ext4EnsureBlock io s.dino (s.dino.iSize / v.bs)).memory = d := ⟨_, rfl⟩
      simp only [hens, hd] at hadd
      cases hadd
      obtain ⟨hread, hfree, hblocks, hsize⟩ := ext4EnsureBlock_some h hio hens hd
      have hneed : recordNeed name.length ≤ dirLimit v := by
        unfold recordNeed
        omega
      obtain ⟨htiled, hone⟩ := freshBlock_spec (by omega) hlimit.2.2.1 he hneed
      obtain ⟨hbl, hsz⟩ := dinoLinkInc_blocks
        { d with iSize := (d.iSize + v.bs) % 4294967296 } dtype name
      have hmod : (d.iSize + v.bs) % 4294967296 = s.dino.iSize + v.bs := by
        rw [hsize, Nat.mod_eq_of_lt (by omega)]
      simp only [storeInode, hio.inode, if_true, storeDirBlock, hio.store]
      obtain ⟨hlaid, hentries⟩ := h.append hv htiled hread hfree (hbl.trans hblocks)
        (hsz.trans hmod) hroom rfl
      refine .inr ⟨trivial, hlaid, entries v s, [], by simp, ?_⟩
      rw [hentries, hone]

/-- The loop of `ext4_remove_entry_impl` from a block on. -/
theorem removeFromBlocks_spec (name : List UInt8) (h : Laid v s) (hv : v.Ok)
    (hio : GoodDirIo v io s) (hreads : ReadsOk io s) :
    ∀ {fuel f : Nat}, f ≤ numBlocks v s → numBlocks v s < fuel + f →
      (removeFromBlocks v io s name fuel f = none ∧
        ∀ g, f ≤ g → g < numBlocks v s →
          name ∉ (entriesOf (dirBlock v s g) (blockOffsets v (dirBlock v s g))).map Prod.fst) ∨
      ∃ s' ino, removeFromBlocks v io s name fuel f = some s' ∧ Laid v s' ∧
        InsertedIn (name, ino) (entries v s') (entries v s) := by
  intro fuel
  induction fuel with
  | zero =>
    omega
  | succ fuel ih =>
    intro f hf hfuel
    rw [removeFromBlocks]
    by_cases hin : insideDir v s.dino f = true
    · have hlt := (h.insideDir_iff hv hf).mp hin
      obtain ⟨a, ha⟩ := h.mapped f hlt
      have htiled := h.tiled f hlt
      simp only [hin, if_true, hreads.lookup ha, readDirBlock_eq (hreads f a ha).2 ha,
        htiled.scanDir]
      cases hfind : (blockOffsets v (dirBlock v s f)).find? (isEntry (dirBlock v s f) name) with
      | none =>
        -- not in this block: the answer is that of the blocks after it
        have hhere := not_mem_of_find?_none hfind
        obtain ⟨hnone, hrest⟩ | hsome := ih hlt (by omega)
        · refine .inl ⟨hnone, fun g hfg hg => ?_⟩
          by_cases hgf : g = f
          · rw [hgf]
            exact hhere
          · exact hrest g (by omega) hg
        · exact .inr hsome
      | some x =>
        right
        -- found: one entry of one block goes, the rest of the directory stays
        obtain ⟨hclear, ino, hins⟩ := clearEntry_spec htiled hfind
        obtain ⟨hbl, hsz⟩ := dinoLinkDec_blocks
        simp only [Option.elim_some, storeInode, hio.inode, if_true, storeDirBlock, hio.store]
        obtain ⟨hlaid, front, back, hold, hnew⟩ := h.store hv hlt ha hclear hsz hbl rfl
        refine ⟨_, ino, rfl, hlaid, ?_⟩
        rw [hold, hnew]
        exact hins.within
    · rw [if_neg hin]
      refine .inl ⟨rfl, fun g hfg hg => ?_⟩
      exact absurd ((h.insideDir_iff hv hf).mpr (by omega)) hin

/-- `ext4_remove_entry` takes the entry out, or there was none. -/
theorem ext4RemoveEntry_spec (h : Laid v s) (hv : v.Ok) (hio : GoodDirIo v io s)
    (hreads : ReadsOk io s) (hpage : io.page = true) (hname : 0 < name.length ∧ name.length < 255)
    (hrem : (ext4RemoveEntry v io s name).2 = s') :
    (s' = s ∧ name ∉ (entries v s).map Prod.fst) ∨
      ∃ ino, Laid v s' ∧ InsertedIn (name, ino) (entries v s') (entries v s) := by
  have hlen : ¬ (name.length = 0 ∨ name.length ≥ ext4DirentNameMax) := by
    unfold ext4DirentNameMax
    omega
  rw [ext4RemoveEntry, if_neg hlen, if_neg (by simp [hpage])] at hrem
  have hfuel : numBlocks v s < s.dino.iSize / v.bs + 1 + 0 := Nat.lt_succ_self _
  obtain ⟨hnone, habsent⟩ | ⟨t, ino, hsome, hlaid, hins⟩ :=
    removeFromBlocks_spec name h hv hio hreads (Nat.zero_le _) hfuel
  · rw [hnone] at hrem
    cases hrem
    refine .inl ⟨rfl, fun hmem => ?_⟩
    simp only [entries, map_flatMap, mem_flatMap, mem_range] at hmem
    obtain ⟨g, hg, hin⟩ := hmem
    exact habsent g (Nat.zero_le g) hg hin
  · rw [hsome] at hrem
    cases hrem
    exact .inr ⟨ino, hlaid, hins⟩

end Operations

/-! ### Runs -/

/-- A name of 1 to 255 bytes. -/
structure DirName where
  bytes : List UInt8
  nonempty : 0 < bytes.length
  short : bytes.length ≤ 255
  noNul : 0 ∉ bytes

/-- The number of an inode. -/
def InodeNo := { n : Nat // 0 < n ∧ n < 4294967296 }

/-- An operation on the directory, with what the machine decides in it. -/
inductive DirOp where
  | add (io : DirIo) (name : DirName) (ino : InodeNo) (dtype : UInt8)
  | remove (io : DirIo) (name : DirName)

/-- The directory, and the map that the operations so far have made. -/
structure DirRun where
  dir : Dir
  map : List UInt8 → Option Nat

/-- One operation on both. An entry is only added under a name that is absent,
and an add that reports failure does not count for the map. -/
def DirRun.step (v : DirVolume) (r : DirRun) : DirOp → Option DirRun
  | .add io name ino dtype =>
    if r.map name.bytes ≠ none then none
    else
      let (ok, dir) := ext4AddEntry v io r.dir ino.1 name.bytes dtype
      some { dir := dir,
             map := if ok then Function.update r.map name.bytes (some ino.1) else r.map }
  | .remove io name =>
    some { dir := (ext4RemoveEntry v io r.dir name.bytes).2
           map := Function.update r.map name.bytes none }

/-- What the source takes for granted in an operation. -/
def GoodDirStep (v : DirVolume) (r : DirRun) : DirOp → Prop
  | .add io _ _ _ => GoodDirIo v io r.dir ∧ r.dir.dino.iSize + 2 * v.bs ≤ 4294967296
  | .remove io name =>
    GoodDirIo v io r.dir ∧ ReadsOk io r.dir ∧ io.page = true ∧ name.bytes.length < 255

/-- The map of a directory, read off its records. -/
def mapOf (v : DirVolume) (s : Dir) : List UInt8 → Option Nat := fun name =>
  ((entries v s).find? fun e => decide (e.1 = name)).map Prod.snd

/-- A directory: every block is tiled, and no name stands twice. -/
structure GoodDir (v : DirVolume) (s : Dir) : Prop where
  laid : Laid v s
  nodup : ((entries v s).map Prod.fst).Nodup

/-- The entries of a sound directory are its map. -/
theorem GoodDir.represents {s : Dir} (h : GoodDir v s) : Represents (entries v s) (mapOf v s) := by
  refine ⟨h.nodup, fun name ino => ?_⟩
  have hnodup := h.nodup
  unfold mapOf
  generalize entries v s = es at hnodup
  induction es with
  | nil => simp
  | cons e es ih =>
    obtain ⟨hnot, hnodup⟩ := nodup_cons.mp hnodup
    by_cases hname : e.1 = name
    · -- The first entry has the name, so no later one does.
      rw [find?_cons_of_pos (by simpa using hname), mem_cons]
      have hlater : (name, ino) ∉ es := fun hmem => hnot (hname ▸ mem_map_of_mem hmem)
      simp only [hlater, or_false, Option.map_some, Option.some.injEq]
      constructor
      · rintro rfl
        rfl
      · rintro rfl
        rw [← hname]
    · rw [find?_cons_of_neg (by simpa using hname), mem_cons]
      refine Iff.trans (or_iff_right fun heq => hname ?_) (ih hnodup)
      rw [← heq]

/-- The directory is laid out, and its entries are the map. -/
def Mirrors (v : DirVolume) (r : DirRun) : Prop :=
  Laid v r.dir ∧ Represents (entries v r.dir) r.map

/-- Every call keeps the directory and the map in step. -/
theorem Mirrors.step (hv : v.Ok) {r r' : DirRun} {op : DirOp} (h : Mirrors v r)
    (hgood : GoodDirStep v r op) (hstep : r.step v op = some r') : Mirrors v r' := by
  obtain ⟨hlaid, hrep⟩ := h
  cases op with
  | add io name ino dtype =>
    obtain ⟨hio, hroom⟩ := hgood
    rw [DirRun.step] at hstep
    by_cases hpresent : r.map name.bytes ≠ none
    · rw [if_pos hpresent] at hstep
      cases hstep
    rw [if_neg hpresent] at hstep
    have habsent := not_not.mp hpresent
    cases hadd : ext4AddEntry v io r.dir ino.1 name.bytes dtype with
    | mk ok dir =>
      rw [hadd] at hstep
      cases hstep
      obtain ⟨rfl, rfl⟩ | ⟨rfl, hlaid', hins⟩ :=
        ext4AddEntry_spec hlaid hv hio hroom name.noNul ino.2 hadd
      · exact ⟨hlaid, hrep⟩
      · exact ⟨hlaid', hrep.insert hins habsent⟩
  | remove io name =>
    obtain ⟨hio, hreads, hpage, hshort⟩ := hgood
    cases hstep
    obtain ⟨heq, habsent⟩ | ⟨ino, hlaid', hins⟩ :=
      ext4RemoveEntry_spec hlaid hv hio hreads hpage ⟨name.nonempty, hshort⟩ rfl
    · refine ⟨?_, ?_⟩
      · rw [heq]
        exact hlaid
      · rw [heq]
        rw [← hrep.eq_none habsent, update_eq_self]
        exact hrep
    · exact ⟨hlaid', hrep.erase hins⟩

/-- The map that lookup and iteration give is the one the operations made, and
every block is tiled. -/
structure IsMap (v : DirVolume) (r : DirRun) : Prop where
  tiled : ∀ f, f < numBlocks v r.dir →
    Tiled (dirBlock v r.dir f) (dirLimit v) (blockOffsets v (dirBlock v r.dir f))
  lookup : ∀ (io : DirIo), ReadsOk io r.dir → io.page = true → ∀ name : List UInt8,
    (ext4FindInDir v io r.dir name).map FsDirent.iNo = r.map name
  iterate : ∀ (io : DirIo), ReadsOk io r.dir → io.page = true →
    ((readDir v io r.dir).map FsDirent.filename).Nodup ∧
      ∀ name ino, (name, ino) ∈ (readDir v io r.dir).map (fun de => (de.filename, de.iNo)) ↔
        r.map name = some ino

/-- So the directory is the map. -/
theorem Mirrors.isMap (hv : v.Ok) {r : DirRun} (h : Mirrors v r) : IsMap v r := by
  obtain ⟨hlaid, hrep⟩ := h
  refine ⟨hlaid.tiled, fun io hio hpage name => ?_, fun io hio hpage => ⟨?_, fun name ino => ?_⟩⟩
  · -- the lookup searches the entries of the directory
    rw [← hrep.find? name, ← readDir_entries hlaid hv hio hpage, find?_map, ext4FindInDir,
      findInDirFrom_eq, ← readDir, Option.map_map]
    rfl
  · have hnodup := hrep.nodup
    rw [← readDir_entries hlaid hv hio hpage, map_map] at hnodup
    exact hnodup
  · rw [readDir_entries hlaid hv hio hpage]
    exact hrep.mem_iff name ino

/-- Whatever is added and removed, the directory is the finite map that the
operations make, as long as every step finds what the source takes for
granted. -/
theorem directory_is_map {v : DirVolume} (hv : v.Ok) {s : Dir} (hs : GoodDir v s)
    (ops : List DirOp) (hgood : Along (DirRun.step v) (GoodDirStep v) ⟨s, mapOf v s⟩ ops)
    {r : DirRun} (hrun : run (DirRun.step v) ⟨s, mapOf v s⟩ ops = some r) : IsMap v r := by
  have hinv : Mirrors v r := run_invariant_of_along
    (fun _ _ _ h hgood hstep => Mirrors.step hv h hgood hstep) ops ⟨s, mapOf v s⟩ r
    ⟨hs.laid, hs.represents⟩ hgood hrun
  exact hinv.isMap hv

/-! ### A volume with small directories -/

def smallVolume : DirVolume :=
  { bs := 1024, totalBlocks := 0, hasCsum := false, dirCsum := fun _ _ _ => 0 }

/-- Every request of the call is met; the first block of a directory is at
`addr`. -/
def fullIo (addr : Option Nat) : DirIo :=
  { page := true, lookupOk := fun _ => true, readOk := fun _ => true, storeOk := true
    pick := addr, insert := ⟨true, update (fun _ => none) 0 addr, fun _ => none⟩, inodeOk := true }

def emptyDir : Dir :=
  { dino := { iNo := 2, iGeneration := 0, iSize := 0, iLinksCount := 2, blocks := fun _ => none }
    disk := fun _ _ => 0 }

/-- A directory of one free record is sound. -/
theorem emptyDir_good : GoodDir smallVolume emptyDir := by
  have hnum : numBlocks smallVolume emptyDir = 0 := rfl
  refine ⟨⟨rfl, by decide, fun f hf => ?_, fun f g a hf => ?_, fun f a hf => ?_, fun f hf => ?_⟩,
    ?_⟩
  · omega
  · cases hf
  · cases hf
  · omega
  · exact nodup_nil

theorem fullIo_good {s : Dir} : GoodDirIo v (fullIo none) s :=
  ⟨fun _ _ _ => rfl, rfl, rfl, fun a h => absurd h (Option.some_ne_none a).symm,
    fun a h => absurd h (Option.some_ne_none a).symm⟩

def shortName : DirName := ⟨[104, 105], by decide, by decide, by decide⟩

/-- A name is added and removed again. -/
theorem directory_is_map_add_remove :
    ∃ r, run (DirRun.step smallVolume) ⟨emptyDir, mapOf smallVolume emptyDir⟩
        [.add (fullIo (some 5)) shortName ⟨12, by decide⟩ 1, .remove (fullIo none) shortName]
        = some r ∧ IsMap smallVolume r := by
  have hgood : Along (DirRun.step smallVolume) (GoodDirStep smallVolume)
      ⟨emptyDir, mapOf smallVolume emptyDir⟩
      [.add (fullIo (some 5)) shortName ⟨12, by decide⟩ 1, .remove (fullIo none) shortName] := by
    refine ⟨⟨⟨fun _ _ _ => rfl, rfl, rfl, fun a _ => ⟨rfl, fun f => ?_⟩, fun a ha => ?_⟩,
      by decide⟩, fun r _ => ?_⟩
    · exact Option.some_ne_none a |>.symm
    · obtain rfl : 5 = a := Option.some.inj ha
      rfl
    · exact ⟨⟨fullIo_good, fun _ _ _ => ⟨rfl, rfl⟩, rfl, by decide⟩, fun _ _ => trivial⟩
  exact ⟨_, rfl, directory_is_map (Or.inl rfl) emptyDir_good _ hgood rfl⟩

/-- A name of 255 bytes. -/
def longName : DirName where
  bytes := List.replicate 255 97
  nonempty := by rw [List.length_replicate]; decide
  short := by rw [List.length_replicate]
  noNul := fun h => absurd (List.eq_of_mem_replicate h) (by decide)

/-- A directory of one block with one entry. -/
def longDir : Dir :=
  { dino := { iNo := 2, iGeneration := 0, iSize := 1024, iLinksCount := 2
              blocks := fun f => if f = 0 then some 5 else none }
    disk := fun _ => putDirent (fun _ => 0) 0 12 1024 longName.bytes 1 }

theorem longDir_good : GoodDir smallVolume longDir := by
  have he : GoodEntry longName.bytes 12 :=
    ⟨longName.nonempty, Nat.lt_succ_of_le longName.short, longName.noNul, by decide, by decide⟩
  have hneed : recordNeed longName.bytes.length ≤ 1024 := by
    rw [longName, length_replicate]
    decide
  obtain ⟨htiled, hone⟩ := freshBlock_spec (by decide) (by decide) he hneed
  have hblock : ∀ i, i < 1024 → dirBlock smallVolume longDir 0 i
      = putDirent (fun _ => 0) 0 12 1024 longName.bytes 1 i := by
    intro i hi
    show blit (fun _ => 0) 0 1024 (putDirent (fun _ => 0) 0 12 1024 longName.bytes 1) i = _
    rw [blit_in (by omega), Nat.sub_zero]
  obtain ⟨htiled', hentries⟩ := tiled_of_below (v := smallVolume) htiled hblock
  have hnum : numBlocks smallVolume longDir = 1 := rfl
  have haddr : ∀ f a, longDir.dino.blocks f = some a → f = 0 := by
    intro f a hf
    by_contra hne
    rw [show longDir.dino.blocks f = none from if_neg hne] at hf
    cases hf
  refine ⟨⟨rfl, by decide, fun f hf => ?_, fun f g a hf hg => ?_, fun f a hf => rfl,
    fun f hf => ?_⟩, ?_⟩
  · obtain rfl : f = 0 := by omega
    exact ⟨5, rfl⟩
  · rw [haddr f a hf, haddr g a hg]
  · obtain rfl : f = 0 := by omega
    exact htiled'
  · exact nodup_singleton _

/-- The entry with the long name can be found, and it is still found after
`ext4_remove_entry`. -/
theorem not_map_long_name :
    GoodDir smallVolume longDir ∧
      ∃ r, run (DirRun.step smallVolume) ⟨longDir, mapOf smallVolume longDir⟩
          [.remove (fullIo none) longName] = some r ∧
        r.map longName.bytes = none ∧
        (ext4FindInDir smallVolume (fullIo none) r.dir longName.bytes).map FsDirent.iNo =
          some 12 := by
  refine ⟨longDir_good, _, rfl, ?_, ?_⟩
  · dsimp only
    rw [Function.update_self]
  decide +kernel

end CoreZ.Fs.Ext4
