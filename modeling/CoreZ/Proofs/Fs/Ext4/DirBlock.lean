import CoreZ.Lib.Segments
import CoreZ.Fs.Ext4.Dir

/-!
# `CoreZ.Proofs.Fs.Ext4.DirBlock`: one directory block

A block is tiled when its records cut it exactly (`Tiled`). The walk of the
source over a tiled block is then a search in the list of its offsets
(`scanDir_eq`), and an edit that stays inside one record is a change of that
place of the list (`Tiled.replace`). From the two follows what the block
functions do to the entries of the block: `addToBlock_spec`,
`clearEntry_spec`.
-/

set_option autoImplicit false

namespace CoreZ.Fs.Ext4

open CoreZ.Lib
open List

/-- A record with a length that is possible, and which holds its name when it
is in use. -/
structure GoodRecord (b : Buf) (o : Nat) : Prop where
  long : 8 ≤ direntRecLen b o
  aligned : direntRecLen b o % 4 = 0
  named : direntInode b o ≠ 0 →
    0 < direntNameLen b o ∧ 8 + direntNameLen b o ≤ direntRecLen b o ∧ 0 ∉ direntName b o

/-- The records at `os` tile the block up to `limit`. -/
structure Tiled (b : Buf) (limit : Nat) (os : List Nat) : Prop where
  segs : Segs (direntRecLen b) 0 os limit
  good : ∀ o ∈ os, GoodRecord b o

/-- The name and the inode number of a record in use. -/
def entryAt (b : Buf) (o : Nat) : Option (List UInt8 × Nat) :=
  if direntInode b o = 0 then none else some (direntName b o, direntInode b o)

/-- The entries of the records at `os`, in their order. -/
def entriesOf (b : Buf) (os : List Nat) : List (List UInt8 × Nat) := os.filterMap (entryAt b)

/-! ### The walk -/

variable {b b' : Buf} {os xs ys : List Nat} {name : List UInt8} {ino limit o x : Nat}

/-- The scan of a block stops at the first record of its chain that passes the test. -/
theorem scanDir_eq (test : Nat → Bool) :
    ∀ {a fuel : Nat}, Segs (direntRecLen b) a os limit → (∀ o ∈ os, 8 ≤ direntRecLen b o) →
      limit - a ≤ fuel →
      scanDir b limit test fuel a = (os.find? test).elim DirScan.stop DirScan.hit := by
  -- The induction is on the records that are left; `fuel` outlasts them because
  -- each is longer than one byte.
  induction os with
  | nil =>
    intro a fuel hsegs _ _
    cases hsegs
    cases fuel with
    | zero => rfl
    | succ fuel => simp [scanDir]
  | cons o os ih =>
    intro a fuel hsegs hlong hfuel
    obtain ⟨rfl, hpos, hrest⟩ := hsegs
    have hlen := hlong o mem_cons_self
    have hend := hrest.le
    obtain ⟨fuel, rfl⟩ : ∃ n, fuel = n + 1 := ⟨fuel - 1, by omega⟩
    have hin : o < limit := by omega
    have hok : ¬ (direntRecLen b o < 8 ∨ o + direntRecLen b o > limit) := by omega
    rw [scanDir, if_pos hin]
    rw [if_neg hok, find?_cons]
    cases htest : test o with
    | true => rfl
    | false =>
      exact ih hrest (fun x hx => hlong x (mem_cons_of_mem o hx)) (by omega)

/-- The walk over a whole tiled block. -/
theorem Tiled.scanDir (h : Tiled b limit os) (test : Nat → Bool) :
    Ext4.scanDir b limit test limit 0 = (os.find? test).elim DirScan.stop DirScan.hit :=
  scanDir_eq test h.segs (fun o ho => (h.good o ho).long) (Nat.sub_le limit 0)

/-! ### Edits -/

/-- The fields of a record depend on its own bytes only. -/
structure SameRecord (b b' : Buf) (o : Nat) : Prop where
  recLen : direntRecLen b' o = direntRecLen b o
  inode : direntInode b' o = direntInode b o
  nameLen : direntNameLen b' o = direntNameLen b o
  name : direntInode b o ≠ 0 → direntName b' o = direntName b o

/-- A record depends on its own bytes. -/
theorem GoodRecord.same (h : GoodRecord b o)
    (heq : ∀ i, o ≤ i → i < o + direntRecLen b o → b' i = b i) : SameRecord b b' o := by
  have hlong := h.long
  have hlen : direntNameLen b' o = direntNameLen b o := by
    rw [direntNameLen, direntNameLen, heq (o + 6) (by omega) (by omega)]
  refine ⟨?_, ?_, hlen, ?_⟩
  · exact le16_congr fun k hk => heq (o + 4 + k) (by omega) (by omega)
  · exact le32_congr fun k hk => heq (o + k) (by omega) (by omega)
  · intro hino
    have hfits := (h.named hino).2.1
    rw [direntName, direntName, hlen]
    refine map_congr_left fun i hi => ?_
    have hi := mem_range.mp hi
    exact heq (o + 8 + i) (by omega) (by omega)

/-- A record that is the same is still sound. -/
theorem SameRecord.good (h : SameRecord b b' o) (hg : GoodRecord b o) : GoodRecord b' o := by
  refine ⟨by rw [h.recLen]; exact hg.long, by rw [h.recLen]; exact hg.aligned, fun hino => ?_⟩
  rw [h.inode] at hino
  rw [h.nameLen, h.recLen, h.name hino]
  exact hg.named hino

/-- And still the same entry. -/
theorem SameRecord.entryAt (h : SameRecord b b' o) : Ext4.entryAt b' o = Ext4.entryAt b o := by
  rw [Ext4.entryAt, Ext4.entryAt, h.inode]
  by_cases hino : direntInode b o = 0
  · rw [if_pos hino, if_pos hino]
  · rw [if_neg hino, if_neg hino, h.name hino]

/-- The entries of a block depend on its records. -/
theorem entriesOf_congr (h : ∀ o ∈ os, SameRecord b b' o) : entriesOf b' os = entriesOf b os :=
  filterMap_congr fun o ho => (h o ho).entryAt

theorem entriesOf_append (b : Buf) (xs ys : List Nat) :
    entriesOf b (xs ++ ys) = entriesOf b xs ++ entriesOf b ys := filterMap_append

/-- An edit inside one record `x` puts other records in its place and leaves
the rest of the block as it was. -/
theorem Tiled.replace {b b' : Buf} {limit x : Nat} {xs ys zs : List Nat}
    (h : Tiled b limit (xs ++ x :: ys))
    (heq : ∀ i, i < limit → i < x ∨ x + direntRecLen b x ≤ i → b' i = b i)
    (hsegs : Segs (direntRecLen b') x zs (x + direntRecLen b x))
    (hgood : ∀ z ∈ zs, GoodRecord b' z) :
    Tiled b' limit (xs ++ (zs ++ ys)) ∧
      entriesOf b' (xs ++ (zs ++ ys)) = entriesOf b xs ++ (entriesOf b' zs ++ entriesOf b ys) := by
  obtain ⟨hleft, -, hright⟩ := h.segs.around
  have hend := hright.le
  have hgx : ∀ o ∈ xs, GoodRecord b o := fun o ho => h.good o (by simp [ho])
  have hgy : ∀ o ∈ ys, GoodRecord b o := fun o ho => h.good o (by simp [ho])
  have hsx : ∀ o ∈ xs, SameRecord b b' o := by
    intro o ho
    have hb := hleft.bounds ho
    exact (hgx o ho).same fun i hlo hhi => heq i (by omega) (by omega)
  have hsy : ∀ o ∈ ys, SameRecord b b' o := by
    intro o ho
    have hb := hright.bounds ho
    exact (hgy o ho).same fun i hlo hhi => heq i (by omega) (by omega)
  refine ⟨⟨?_, ?_⟩, ?_⟩
  · exact (hleft.congr fun o ho => (hsx o ho).recLen).append
      (hsegs.append (hright.congr fun o ho => (hsy o ho).recLen))
  · intro o ho
    rcases mem_append.mp ho with ho | ho
    · exact (hsx o ho).good (hgx o ho)
    rcases mem_append.mp ho with ho | ho
    · exact hgood o ho
    · exact (hsy o ho).good (hgy o ho)
  · rw [entriesOf_append, entriesOf_append, entriesOf_congr hsx, entriesOf_congr hsy]

section

variable (h : Tiled b limit os) (heq : ∀ i, i < limit → b' i = b i)

include h heq

/-- Bytes past the records do not matter. -/
theorem Tiled.same : ∀ o ∈ os, SameRecord b b' o := by
  intro o ho
  have hb := h.segs.bounds ho
  exact (h.good o ho).same fun i _ hhi => heq i (by omega)

/-- So does the chain. -/
theorem Tiled.congr : Tiled b' limit os :=
  ⟨h.segs.congr fun o ho => (h.same heq o ho).recLen,
    fun o ho => (h.same heq o ho).good (h.good o ho)⟩

end

/-! ### A record that has just been filled -/

/-- A record is written inside of its place. -/
theorem putDirent_out {b : Buf} {o ino rl : Nat} {name : List UInt8} {dtype : UInt8} {i : Nat}
    (h : i < o ∨ o + 8 + name.length ≤ i) : putDirent b o ino rl name dtype i = b i := by
  show blit _ (o + 8) name.length _ i = _
  rw [blit_out (by omega), blit_out (by omega), blit_out (by omega)]
  show blit _ (o + 4) 2 _ i = _
  rw [blit_out (by omega)]
  exact blit_out (by omega)

section

variable (b : Buf) (o ino rl : Nat) (name : List UInt8) (dtype : UInt8)

theorem direntInode_putDirent :
    direntInode (putDirent b o ino rl name dtype) o = ino % 4294967296 := by
  unfold direntInode putDirent
  rw [le32_blit_of_disjoint (by omega), le32_blit_of_disjoint (by omega),
    le32_blit_of_disjoint (by omega)]
  show le32 (blit _ (o + 4) 2 _) o = _
  rw [le32_blit_of_disjoint (by omega), le32_putLe32]

theorem direntRecLen_putDirent :
    direntRecLen (putDirent b o ino rl name dtype) o = rl % 65536 := by
  unfold direntRecLen putDirent
  rw [le16_blit_of_disjoint (by omega), le16_blit_of_disjoint (by omega),
    le16_blit_of_disjoint (by omega), le16_putLe16]

theorem direntNameLen_putDirent :
    direntNameLen (putDirent b o ino rl name dtype) o = name.length % 256 := by
  unfold direntNameLen putDirent
  rw [blit_out (by omega), blit_out (by omega), blit_zero Nat.one_pos, UInt8.toNat_ofNat']

/-- The name that was written is read. -/
theorem direntName_putDirent (hlen : name.length < 256) :
    direntName (putDirent b o ino rl name dtype) o = name := by
  have hnl := direntNameLen_putDirent b o ino rl name dtype
  rw [Nat.mod_eq_of_lt hlen] at hnl
  refine ext_getElem (by simp [direntName, hnl]) fun i hi hi' => ?_
  simp only [direntName, getElem_map, getElem_range]
  show blit _ (o + 8) name.length (bytesOf name) (o + 8 + i) = _
  rw [blit_add hi', bytesOf, getD_eq_getElem?_getD, getElem?_eq_getElem hi']
  rfl

end

/-- What an entry has to be: a name of 1 to 255 bytes without a zero byte, and
an inode number that is not zero. -/
structure GoodEntry (name : List UInt8) (ino : Nat) : Prop where
  nonempty : 0 < name.length
  short : name.length < 256
  noNul : 0 ∉ name
  used : 0 < ino
  small : ino < 4294967296

/-- A record has room for its header and its name. -/
theorem le_recordNeed (n : Nat) : 8 + n ≤ recordNeed n := by
  unfold recordNeed
  omega

/-- Records are aligned. -/
theorem recordNeed_mod (n : Nat) : recordNeed n % 4 = 0 := by
  unfold recordNeed
  omega

section

variable {b : Buf} {o ino rl : Nat} {name : List UInt8} {dtype : UInt8}

/-- A new record is sound. -/
theorem GoodEntry.goodRecord (he : GoodEntry name ino) (hneed : recordNeed name.length ≤ rl)
    (hrl : rl < 65536) (halign : rl % 4 = 0) : GoodRecord (putDirent b o ino rl name dtype) o := by
  have hlt : name.length < 256 := he.short
  have hle := le_recordNeed name.length
  have hpos := he.nonempty
  refine ⟨?_, ?_, fun _ => ?_⟩
  · rw [direntRecLen_putDirent]
    omega
  · rw [direntRecLen_putDirent]
    omega
  · rw [direntRecLen_putDirent, direntNameLen_putDirent, direntName_putDirent _ _ _ _ _ _ hlt]
    refine ⟨by omega, by omega, he.noNul⟩

/-- And it is the new entry. -/
theorem GoodEntry.entryAt (he : GoodEntry name ino) :
    Ext4.entryAt (putDirent b o ino rl name dtype) o = some (name, ino) := by
  have hlt : name.length < 256 := he.short
  have hused := he.used
  have hsmall := he.small
  unfold Ext4.entryAt
  rw [direntInode_putDirent, direntName_putDirent _ _ _ _ _ _ hlt, Nat.mod_eq_of_lt hsmall,
    if_neg (by omega)]

end

/-! ### `ext4_add_entry_impl` on a block -/

/-- `es'` is `es` with one entry more. -/
def InsertedIn (e : List UInt8 × Nat) (es es' : List (List UInt8 × Nat)) : Prop :=
  ∃ front back, es = front ++ back ∧ es' = front ++ e :: back

section

variable (dtype : UInt8) (h : Tiled b limit (xs ++ x :: ys)) (hlimit : limit < 65536)
  (he : GoodEntry name ino) (hroom : hasRoom b (recordNeed name.length) x = true)

include h hlimit he hroom

/-- The stores at a record that has room, when the record is free. -/
theorem placeEntry_free (hfree : direntInode b x = 0) :
    Tiled (placeEntry b x ino name dtype) limit (xs ++ ([x] ++ ys)) ∧
      InsertedIn (name, ino) (entriesOf b (xs ++ x :: ys))
        (entriesOf (placeEntry b x ino name dtype) (xs ++ ([x] ++ ys))) := by
  have hx := h.segs.bounds (mem_append_right xs mem_cons_self)
  have hgood := h.good x (mem_append_right xs mem_cons_self)
  have hneed : recordNeed name.length ≤ direntRecLen b x := by
    simpa [hasRoom, hfree] using hroom
  have hle := le_recordNeed name.length
  have heq : placeEntry b x ino name dtype = putDirent b x ino (direntRecLen b x) name dtype := by
    simp only [placeEntry, if_pos hfree]
  rw [heq]
  have hlen : direntRecLen (putDirent b x ino (direntRecLen b x) name dtype) x
      = direntRecLen b x := by
    rw [direntRecLen_putDirent]
    omega
  have hsegs : Segs (direntRecLen (putDirent b x ino (direntRecLen b x) name dtype)) x [x]
      (x + direntRecLen b x) := ⟨rfl, by rw [hlen]; exact hx.2.1, by rw [hlen]; rfl⟩
  obtain ⟨htiled, hentries⟩ := h.replace
    (fun i _ hi => putDirent_out (by omega)) hsegs fun z hz => by
      rw [mem_singleton.mp hz]
      exact he.goodRecord hneed (by omega) hgood.aligned
  refine ⟨htiled, entriesOf b xs, entriesOf b ys, ?_, ?_⟩
  · simp [entriesOf, Ext4.entryAt, hfree]
  · rw [hentries]
    simp [entriesOf, he.entryAt]

/-- The same when the record is in use and is cut in two. -/
theorem placeEntry_split (hused : direntInode b x ≠ 0) :
    ∃ zs, Tiled (placeEntry b x ino name dtype) limit (xs ++ (zs ++ ys)) ∧
      InsertedIn (name, ino) (entriesOf b (xs ++ x :: ys))
        (entriesOf (placeEntry b x ino name dtype) (xs ++ (zs ++ ys))) := by
  have hx := h.segs.bounds (mem_append_right xs mem_cons_self)
  have hgood := h.good x (mem_append_right xs mem_cons_self)
  have hnamed := hgood.named hused
  have haligned := hgood.aligned
  -- The record keeps `used` bytes, the rest of it becomes the new record.
  obtain ⟨used, hdef⟩ : ∃ n, n = recordNeed (direntNameLen b x) := ⟨_, rfl⟩
  have hfit : 8 + direntNameLen b x ≤ used := hdef ▸ le_recordNeed _
  have hmod : used % 4 = 0 := hdef ▸ recordNeed_mod _
  obtain ⟨hlt, hneed⟩ : used < direntRecLen b x ∧
      recordNeed name.length ≤ direntRecLen b x - used := by
    simpa [hasRoom, hused, ← hdef] using hroom
  have hle := le_recordNeed name.length
  obtain ⟨b₁, hb₁⟩ : ∃ c, c = putLe16 b (x + 4) used := ⟨_, rfl⟩
  obtain ⟨b', hb'⟩ : ∃ c, c = putDirent b₁ (x + used) ino (direntRecLen b x - used) name dtype :=
    ⟨_, rfl⟩
  have heq : placeEntry b x ino name dtype = b' := by
    simp only [placeEntry, if_neg hused, ← hdef, hb', hb₁]
  have hout₁ : ∀ i, i < x + 4 ∨ x + 6 ≤ i → b₁ i = b i := by
    intro i hi
    rw [hb₁]
    exact blit_out (by omega)
  have hout : ∀ i, i < x + used → b' i = b₁ i := by
    intro i hi
    rw [hb']
    exact putDirent_out (by omega)
  -- The old record: another length, the same inode and name.
  have hlen : direntRecLen b' x = used := by
    have h₁ : direntRecLen b' x = direntRecLen b₁ x :=
      le16_congr fun k hk => hout (x + 4 + k) (by omega)
    have h₂ : direntRecLen b₁ x = used % 65536 := by
      rw [hb₁]
      exact le16_putLe16
    omega
  have hino : direntInode b' x = direntInode b x :=
    le32_congr fun k hk => (hout (x + k) (by omega)).trans (hout₁ (x + k) (by omega))
  have hnl : direntNameLen b' x = direntNameLen b x := by
    rw [direntNameLen, direntNameLen, hout (x + 6) (by omega), hout₁ (x + 6) (by omega)]
  have hname : direntName b' x = direntName b x := by
    rw [direntName, direntName, hnl]
    refine map_congr_left fun i hi => ?_
    have hi := mem_range.mp hi
    rw [hout (x + 8 + i) (by omega), hout₁ (x + 8 + i) (by omega)]
  have hold : GoodRecord b' x := by
    refine ⟨by omega, by omega, fun _ => ?_⟩
    rw [hnl, hlen, hname]
    exact ⟨hnamed.1, hfit, hnamed.2.2⟩
  have hnewlen : direntRecLen b' (x + used) = direntRecLen b x - used := by
    rw [hb', direntRecLen_putDirent]
    omega
  have hnew : GoodRecord b' (x + used) := by
    rw [hb']
    exact he.goodRecord hneed (by omega) (by omega)
  have hsegs : Segs (direntRecLen b') x [x, x + used] (x + direntRecLen b x) := by
    refine ⟨rfl, by omega, by rw [hlen], by omega, ?_⟩
    show x + used + direntRecLen b' (x + used) = x + direntRecLen b x
    omega
  have hoff : ∀ i, i < limit → i < x ∨ x + direntRecLen b x ≤ i → b' i = b i := by
    intro i _ hi
    rw [hb', putDirent_out (by omega)]
    exact hout₁ i (by omega)
  obtain ⟨htiled, hentries⟩ := h.replace hoff hsegs fun z hz => by
    rcases mem_cons.mp hz with rfl | hz
    · exact hold
    · rw [mem_singleton.mp hz]
      exact hnew
  have hatx : Ext4.entryAt b' x = some (direntName b x, direntInode b x) := by
    rw [Ext4.entryAt, hino, hname, if_neg hused]
  have hatx' : Ext4.entryAt b x = some (direntName b x, direntInode b x) := if_neg hused
  have hatn : Ext4.entryAt b' (x + used) = some (name, ino) := by
    rw [hb']
    exact he.entryAt
  rw [heq]
  refine ⟨[x, x + used], htiled,
    entriesOf b xs ++ [(direntName b x, direntInode b x)], entriesOf b ys, ?_, ?_⟩
  · simp [entriesOf, hatx']
  · rw [hentries]
    simp [entriesOf, hatx, hatn]

end

/-- A block function puts one entry into a tiled block. -/
theorem addToBlock_spec {v : DirVolume} {dtype : UInt8} (h : Tiled b (dirLimit v) os)
    (hlimit : dirLimit v < 65536) (he : GoodEntry name ino)
    (hadd : addToBlock v b ino name dtype = some b') :
    ∃ os', Tiled b' (dirLimit v) os' ∧
      InsertedIn (name, ino) (entriesOf b os) (entriesOf b' os') := by
  simp only [addToBlock, h.scanDir] at hadd
  cases hfind : os.find? (hasRoom b (recordNeed name.length)) with
  | none =>
    rw [hfind] at hadd
    cases hadd
  | some x =>
    rw [hfind] at hadd
    cases hadd
    have hroom := find?_some hfind
    obtain ⟨xs, ys, rfl⟩ := append_of_mem (mem_of_find?_eq_some hfind)
    by_cases hfree : direntInode b x = 0
    · exact ⟨_, placeEntry_free dtype h hlimit he hroom hfree⟩
    · obtain ⟨zs, hzs⟩ := placeEntry_split dtype h hlimit he hroom hfree
      exact ⟨_, hzs⟩

/-- The block that is appended when no other has room. -/
theorem freshBlock_spec {dtype : UInt8} (hlimit : limit < 65536) (halign : limit % 4 = 0)
    (he : GoodEntry name ino) (hneed : recordNeed name.length ≤ limit) :
    Tiled (putDirent (fun _ => 0) 0 ino limit name dtype) limit [0] ∧
      entriesOf (putDirent (fun _ => 0) 0 ino limit name dtype) [0] = [(name, ino)] := by
  have hle := le_recordNeed name.length
  have hlen : direntRecLen (putDirent (fun _ => 0) 0 ino limit name dtype) 0 = limit := by
    rw [direntRecLen_putDirent, Nat.mod_eq_of_lt hlimit]
  refine ⟨⟨⟨rfl, by omega, ?_⟩, fun o ho => ?_⟩, ?_⟩
  · show 0 + direntRecLen _ 0 = limit
    omega
  · rw [mem_singleton.mp ho]
    exact he.goodRecord hneed hlimit halign
  · simp [entriesOf, he.entryAt]

/-! ### `ext4_remove_entry_impl` on a block -/

/-- The test of the code for an entry with the name. -/
theorem isEntry_iff : isEntry b name o = true ↔ ∃ ino, entryAt b o = some (name, ino) := by
  unfold isEntry entryAt
  rw [decide_eq_true_iff]
  constructor
  · rintro ⟨hino, -, hname⟩
    exact ⟨direntInode b o, by rw [if_neg hino, hname]⟩
  · rintro ⟨ino, h⟩
    by_cases hino : direntInode b o = 0
    · rw [if_pos hino] at h
      cases h
    · rw [if_neg hino] at h
      cases h
      exact ⟨hino, by simp [direntName], rfl⟩

/-- A block in which the walk finds no record has no entry of that name. -/
theorem not_mem_of_find?_none (h : os.find? (isEntry b name) = none) :
    name ∉ (entriesOf b os).map Prod.fst := by
  intro hmem
  obtain ⟨⟨n, ino⟩, hin, rfl⟩ := mem_map.mp hmem
  obtain ⟨o, ho, hat⟩ := mem_filterMap.mp hin
  have hnot := find?_eq_none.mp h o ho
  exact hnot (isEntry_iff.mpr ⟨ino, hat⟩)

/-- Clearing the record that the walk has found takes its entry out. -/
theorem clearEntry_spec (h : Tiled b limit os) (hfind : os.find? (isEntry b name) = some x) :
    Tiled (clearEntry b x) limit os ∧
      ∃ ino, InsertedIn (name, ino) (entriesOf (clearEntry b x) os) (entriesOf b os) := by
  obtain ⟨ino, hat⟩ := isEntry_iff.mp (find?_some hfind)
  obtain ⟨xs, ys, rfl⟩ := append_of_mem (mem_of_find?_eq_some hfind)
  have hgood := h.good x (mem_append_right xs mem_cons_self)
  have hlong := hgood.long
  have hout : ∀ i, i < x ∨ x + 7 ≤ i ∨ x + 4 ≤ i ∧ i < x + 6 → clearEntry b x i = b i := by
    intro i hi
    unfold clearEntry
    rw [blit_out (by omega)]
    exact blit_out (by omega)
  have hlen : direntRecLen (clearEntry b x) x = direntRecLen b x :=
    le16_congr fun k hk => hout (x + 4 + k) (by omega)
  have hino : direntInode (clearEntry b x) x = 0 := by
    unfold direntInode clearEntry
    rw [le32_blit_of_disjoint (by omega), le32_putLe32]
  have hsegs : Segs (direntRecLen (clearEntry b x)) x [x] (x + direntRecLen b x) :=
    ⟨rfl, by omega, by rw [hlen]; rfl⟩
  obtain ⟨htiled, hentries⟩ := h.replace (fun i _ hi => hout i (by omega)) hsegs fun z hz => by
    rw [mem_singleton.mp hz]
    exact ⟨by omega, by rw [hlen]; exact hgood.aligned, fun hne => absurd hino hne⟩
  refine ⟨htiled, ino, entriesOf b xs, entriesOf b ys, ?_, ?_⟩
  · show entriesOf (clearEntry b x) (xs ++ ([x] ++ ys)) = _
    rw [hentries]
    simp [entriesOf, Ext4.entryAt, hino]
  · simp [entriesOf, hat]

/-! ### The bytes behind the records -/

/-- The checksum stands behind the records. -/
theorem dirTailFix_below {v : DirVolume} {d : DirInode} {b : Buf} {i : Nat}
    (hi : i < dirLimit v) : dirTailFix v d b i = b i := by
  unfold dirLimit at hi
  unfold dirTailFix
  cases hcsum : v.hasCsum with
  | false => rfl
  | true =>
    rw [hcsum, if_pos rfl] at hi
    rw [if_pos rfl]
    rw [show ∀ t : Buf, ∀ c, putLe32 t (v.bs - 4) c i = t i from fun t c => blit_out (by omega)]
    refine puts_of_not_covers fun p hp => ?_
    simp only [mem_cons, not_mem_nil, or_false] at hp
    unfold Put.Covers
    rcases hp with rfl | rfl | rfl | rfl <;> dsimp only <;> omega

end CoreZ.Fs.Ext4
