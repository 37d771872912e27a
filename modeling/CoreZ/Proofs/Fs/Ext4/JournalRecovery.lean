import CoreZ.Fs.Ext4.Journal
import Mathlib.Data.List.Nodup

/-!
# `CoreZ.Proofs.Fs.Ext4.JournalRecovery`: replay after a complete commit

`txn_commit` and `ext4_journal_replay` are two ends of one format. This
module runs the second on what the first wrote: a descriptor, the
copies, the commit block and the journal superblock that names them
(`committedImage`). The disk under them is arbitrary, so the targets may
hold any older contents.

`replayTags_putTags` is the round trip of the descriptor: the tag loop
of replay reads back the tags of the commit, one for one.
`ext4JournalReplay_committedImage` is the whole replay: it writes the
transaction's blocks, each with the copy it finds in the journal.

A copy is the block itself, unless the block begins with the magic
number. The commit side tests for that with the little-endian `ld32`,
the replay side puts the number back with the big-endian `wr_be32`.
`recovers_iff` states what follows: recovery is exact if and only if no
block of the transaction begins with the four bytes `98 39 3B C0`.
-/

set_option autoImplicit false

namespace CoreZ.Proofs.Fs.Ext4

open CoreZ.Lib
open CoreZ.Fs.Ext4
open List

/-! ### Writes -/

def ioBlock : IoWrite → Nat
  | .cached blk _ => blk
  | .direct blk _ => blk

@[simp] theorem ioBlock_cached (blk : Nat) (buf : Buf) : ioBlock (.cached blk buf) = blk := rfl

@[simp] theorem ioBlock_direct (blk : Nat) (buf : Buf) : ioBlock (.direct blk buf) = blk := rfl

variable {buf : Buf} {j : Journal} {ws : List IoWrite} {blk i : Nat} {txn : Txn} {v : Volume}

section

variable (v : Volume)

/-- A write to another block. -/
theorem apply_of_ne (d : Disk) {w : IoWrite} (h : ioBlock w ≠ blk) : w.apply v d blk = d blk := by
  cases w with
  | cached b buf => exact Function.update_of_ne (Ne.symm h) _ _
  | direct b buf => exact Function.update_of_ne (Ne.symm h) _ _

/-- A block that no write names keeps its contents. -/
theorem applyWrites_of_notMem :
    ∀ d : Disk, (∀ w ∈ ws, ioBlock w ≠ blk) → applyWrites v d ws blk = d blk := by
  induction ws with
  | nil => intro d _; rfl
  | cons w ws ih =>
    intro d h
    show applyWrites v (w.apply v d) ws blk = d blk
    rw [ih _ fun w' hw' => h w' (mem_cons_of_mem _ hw'), apply_of_ne v d (h w mem_cons_self)]

/-- With every block written once, a block holds what was written to
it. -/
theorem applyWrites_of_mem {w : IoWrite} (hnodup : (ws.map ioBlock).Nodup) (hw : w ∈ ws) :
    ∀ d : Disk, ∃ d' : Disk, applyWrites v d ws (ioBlock w) = w.apply v d' (ioBlock w) := by
  induction ws with
  | nil => exact absurd hw not_mem_nil
  | cons w' ws ih =>
    intro d
    rw [map_cons, nodup_cons] at hnodup
    show ∃ d', applyWrites v (w'.apply v d) ws (ioBlock w) = _
    rcases mem_cons.mp hw with rfl | hmem
    · refine ⟨d, applyWrites_of_notMem v _ fun u hu heq => hnodup.1 ?_⟩
      rw [← heq]
      exact mem_map_of_mem hu
    · exact ih hnodup.2 hmem _

/-- Of writes to different blocks each one is seen, here a whole block. -/
theorem applyWrites_cached (d : Disk) (hnodup : (ws.map ioBlock).Nodup) (hw : .cached blk buf ∈ ws)
    (hi : i < v.bs) : applyWrites v d ws blk i = buf i := by
  obtain ⟨d', h⟩ := applyWrites_of_mem v hnodup hw d
  rw [ioBlock_cached] at h
  rw [h, IoWrite.apply, Function.update_self]
  exact blit_in ⟨Nat.zero_le i, by omega⟩

/-- And here the 1024 bytes of a superblock. -/
theorem applyWrites_direct (d : Disk) (hnodup : (ws.map ioBlock).Nodup) (hw : .direct blk buf ∈ ws)
    (hi : i < 1024) : applyWrites v d ws blk i = buf i := by
  obtain ⟨d', h⟩ := applyWrites_of_mem v hnodup hw d
  rw [ioBlock_direct] at h
  rw [h, IoWrite.apply, Function.update_self]
  exact blit_in ⟨Nat.zero_le i, by omega⟩

end

/-! ### The mounted journal -/

/-- The journal state agrees with the superblock copy it was read from. -/
structure Mounted (j : Journal) : Prop where
  on : j.hasJournal = true
  magic : be32 j.gJsb 0 = ext4Jbd2Magic
  type : be32 j.gJsb 4 = 4
  maxlen : be32 j.gJsb 0x10 = j.jMaxlen
  first : (if be32 j.gJsb 0x14 = 0 then 1 else be32 j.gJsb 0x14) = j.jFirst
  seq : j.jSeq < 4294967296

section

variable (j : Journal) (sStart sSeq : Nat)

/-- `ext4_jsb_write` touches the start and the sequence number only. -/
theorem be32_jsb_of_lt {o : Nat} (ho : o + 4 ≤ 0x18) :
    be32 (ext4JsbWrite j sStart sSeq).1.gJsb o = be32 j.gJsb o := by
  show be32 (putBe32 (putBe32 j.gJsb 0x1C sStart) 0x18 sSeq) o = _
  rw [be32_putBe32_of_disjoint (.inl ho), be32_putBe32_of_disjoint (.inl (by omega))]

/-- The start that the journal superblock records. -/
theorem be32_jsb_start : be32 (ext4JsbWrite j sStart sSeq).1.gJsb 0x1C = sStart % 4294967296 := by
  show be32 (putBe32 (putBe32 j.gJsb 0x1C sStart) 0x18 sSeq) 0x1C = _
  rw [be32_putBe32_of_disjoint (.inr (by omega)), be32_putBe32]

end

/-! ### The round trip of a descriptor -/

/-- The flags of a tag. -/
theorem be16_putTag (jb : Buf) (off blk flags : Nat) :
    be16 (putTag jb off blk flags) (off + 6) = flags % 65536 := by
  have hbytes : be16 (putTag jb off blk flags) (off + 6) = be16 (beBytes flags) 2 :=
    be16_congr fun k hk => by
      rw [putTag, show off + 6 + k = off + 4 + (2 + k) by omega]
      exact blit_add (by omega)
  rw [hbytes]
  simp only [be16, beBytes, UInt8.toNat_ofNat', Nat.shiftRight_eq_div_pow]
  omega

/-- Later tags do not touch earlier bytes. -/
theorem putTags_of_lt :
    ∀ (txn : Txn) (jb : Buf) (off : Nat) {i : Nat}, i < off → putTags jb off txn i = jb i := by
  intro txn
  induction txn with
  | nil => intro jb off i _; rfl
  | cons p rest ih =>
    intro jb off i hi
    show putTags (putTag jb off p.1 _) (off + 8) rest i = jb i
    rw [ih _ _ (by omega), putTag, blit_out (.inl (by omega))]
    exact blit_out (.inl hi)

/-- What the flags of a tag say. -/
theorem txnFlags_testBit (last : Bool) (buf : Buf) :
    (txnFlags last buf % 65536).testBit ext4JfSameUuid = true ∧
    (txnFlags last buf % 65536).testBit ext4JfDeleted = false ∧
    (txnFlags last buf % 65536).testBit ext4JfLastTag = last ∧
    (txnFlags last buf % 65536).testBit ext4JfEscape = decide (le32 buf 0 = ext4Jbd2Magic) := by
  unfold txnFlags
  cases last with
  | false => by_cases h : le32 buf 0 = ext4Jbd2Magic <;> simp only [h, if_true, if_false] <;> decide
  | true => by_cases h : le32 buf 0 = ext4Jbd2Magic <;> simp only [h, if_true, if_false] <;> decide

/-- A copy as replay restores it. -/
def restore (buf : Buf) (db : Buf) : Buf :=
  if le32 buf 0 = ext4Jbd2Magic then putBe32 db 0 ext4Jbd2Magic else db

/-- The blocks replay writes for a transaction whose copies start at the
journal block `log`. -/
def restored (v : Volume) (jMap : List (Nat × Nat)) (d : Disk) : Nat → Txn → List (Nat × Buf)
  | _, [] => []
  | log, (blk, buf) :: rest =>
    (blk, restore buf (ext4DiskRead v d (jrnlPhys jMap log))) :: restored v jMap d (log + 1) rest

/-- The tag loop of replay reads the tags of the commit back. The
buffer `b` is the descriptor as it was read, from `off` on. -/
theorem replayTags_putTags (v : Volume) (jMap : List (Nat × Nat)) (d : Disk) (b : Buf) (log : Nat) :
    ∀ (txn : Txn) (jb : Buf) (off n fuel : Nat), txn ≠ [] → txn.length ≤ fuel →
      off + 8 * txn.length ≤ v.bs → (∀ i, i < v.bs → b i = putTags jb off txn i) →
      (∀ p ∈ txn, p.1 < 4294967296) →
      (∀ k, k < txn.length → jrnlPhys jMap (log + 1 + n + k) ≠ 0) →
      replayTags v jMap d b log fuel off n
        = (restored v jMap d (log + 1 + n) txn, n + txn.length) := by
  intro txn
  induction txn with
  | nil => intro jb off n fuel hne; exact absurd rfl hne
  | cons p rest ih =>
    intro jb off n fuel _ hfuel hbs hb hsmall hmap
    obtain ⟨blk, buf⟩ := p
    rw [length_cons] at hfuel hbs
    obtain ⟨fuel, rfl⟩ : ∃ f, fuel = f + 1 := ⟨fuel - 1, by omega⟩
    have hmap0 := hmap 0 (by simp)
    rw [add_zero] at hmap0
    -- the eight bytes of the first tag
    set jb' := putTag jb off blk (txnFlags rest.isEmpty buf) with hjb'
    have htag : ∀ i, i < off + 8 → b i = jb' i := fun i hi => by
      rw [hb i (by omega)]
      exact putTags_of_lt rest jb' (off + 8) hi
    have htgt : be32 b off = blk := by
      have heq : be32 b off = be32 jb' off := be32_congr fun k hk => htag _ (by omega)
      rw [heq, hjb', putTag, be32_blit_of_disjoint (.inl (Nat.le_refl _)), be32_putBe32]
      exact Nat.mod_eq_of_lt (hsmall (blk, buf) mem_cons_self)
    have hfl : be16 b (off + 6) = txnFlags rest.isEmpty buf % 65536 := by
      have heq : be16 b (off + 6) = be16 jb' (off + 6) := be16_congr fun k hk => htag _ (by omega)
      rw [heq, hjb', be16_putTag]
    obtain ⟨hsame, hdel, hlast, hesc⟩ := txnFlags_testBit rest.isEmpty buf
    rw [replayTags, if_neg (by omega)]
    simp only [htgt, hfl, hsame, hdel, hlast, hesc, if_true, if_neg hmap0, decide_eq_true_eq]
    cases rest with
    | nil => rfl
    | cons q rest =>
      have hrec := ih jb' (off + 8) (n + 1) fuel (by simp) (by omega) (by omega)
        (fun i hi => hb i hi) (fun p hp => hsmall p (mem_cons_of_mem _ hp))
        (fun k hk => by
          have := hmap (k + 1) (by rw [length_cons]; omega)
          rwa [show log + 1 + n + (k + 1) = log + 1 + (n + 1) + k by omega] at this)
      rw [hrec]
      simp only [isEmpty_cons, Bool.false_eq_true, if_false, length_cons]
      refine Prod.ext rfl ?_
      omega

/-! ### The committed image -/

/-- A block of the journal: the map takes one of its `maxlen` blocks
there. The windows of the map reach further than the journal, and what
they reach behind `maxlen` are ordinary blocks. -/
def InJournal (jMap : List (Nat × Nat)) (maxlen blk : Nat) : Prop :=
  blk ≠ 0 ∧ ∃ jblk, jblk < maxlen ∧ jrnlPhys jMap jblk = blk

/-- The journal blocks that a transaction of `n` blocks uses: the
superblock, the descriptor, the copies and the commit block. -/
def Used (j : Journal) (n jblk : Nat) : Prop :=
  jblk = 0 ∨ (j.jFirst ≤ jblk ∧ jblk ≤ j.jFirst + 1 + n)

/-- The transaction fits: at most `EXT4_TXN_MAX` distinct blocks outside
the journal, and the journal has room for it in mapped, readable and
distinct blocks. -/
structure Fits (v : Volume) (j : Journal) (txn : Txn) : Prop where
  block : 1024 ≤ v.bs
  nonempty : txn ≠ []
  max : txn.length ≤ ext4TxnMax
  small : ∀ p ∈ txn, p.1 < 4294967296
  distinct : (txn.map Prod.fst).Nodup
  outside : ∀ p ∈ txn, ¬ InJournal j.jMap j.jMaxlen p.1
  room : j.jFirst + 1 + txn.length < j.jMaxlen
  mapped : ∀ p, Used j txn.length p → jrnlPhys j.jMap p ≠ 0
  readable : ∀ p, Used j txn.length p → v.readable (jrnlPhys j.jMap p) = true
  inj : ∀ p q, Used j txn.length p → Used j txn.length q →
    jrnlPhys j.jMap p = jrnlPhys j.jMap q → p = q

/-- The writes of a commit up to the journal superblock that names the
transaction. -/
def commitWrites (j : Journal) (txn : Txn) : List IoWrite :=
  txnRecord j j.jSeq txn ++ (ext4JsbWrite j j.jFirst j.jSeq).2

/-- The disk after a complete commit of `txn` over the disk `d`, before
the blocks are written to their home. -/
def committedImage (v : Volume) (j : Journal) (txn : Txn) (d : Disk) : Disk :=
  applyWrites v d (commitWrites j txn)

/-- The log does not start at the superblock. -/
theorem Mounted.first_pos (h : Mounted j) : 0 < j.jFirst ∧ j.jFirst < 4294967296 := by
  have hlt := be32_lt j.gJsb 0x14
  rw [← h.first]
  split
  · exact ⟨by omega, by omega⟩
  · exact ⟨by omega, hlt⟩

/-- The copies of a transaction go to consecutive blocks of the log. -/
theorem ioBlock_txnCopies (jMap : List (Nat × Nat)) :
    ∀ (txn : Txn) (log : Nat),
      (txnCopies jMap log txn).map ioBlock = (range' log txn.length).map (jrnlPhys jMap) := by
  intro txn
  induction txn with
  | nil => intro log; rfl
  | cons p rest ih =>
    intro log
    rw [length_cons, range'_succ, map_cons, ← ih]
    rfl

/-- The superblock that marks a transaction is one write. -/
theorem mark_eq (hf : Fits v j txn) :
    (ext4JsbWrite j j.jFirst j.jSeq).2
      = [.direct (jrnlPhys j.jMap 0) (ext4JsbWrite j j.jFirst j.jSeq).1.gJsb] := by
  simp only [ext4JsbWrite]
  rw [if_neg (hf.mapped 0 (.inl rfl))]

/-- The commit writes every block of the journal once. -/
theorem nodup_commitWrites (hm : Mounted j) (hf : Fits v j txn) :
    ((commitWrites j txn).map ioBlock).Nodup := by
  have hblocks : (commitWrites j txn).map ioBlock
      = (range' j.jFirst (txn.length + 2) ++ [0]).map (jrnlPhys j.jMap) := by
    rw [range'_succ, range'_1_concat, commitWrites, mark_eq hf]
    simp [txnRecord, map_append, map_cons, map_nil, ioBlock_txnCopies, ioBlock_cached,
      ioBlock_direct]
  have hused : ∀ p ∈ range' j.jFirst (txn.length + 2) ++ [0], Used j txn.length p := by
    intro p hp
    rw [mem_append, mem_range'_1, mem_singleton] at hp
    rcases hp with hp | hp
    · exact .inr ⟨hp.1, by omega⟩
    · exact .inl hp
  rw [hblocks]
  refine List.Nodup.map_on (fun p hp q hq h => hf.inj p q (hused p hp) (hused q hq) h) ?_
  refine List.Nodup.append (nodup_range' ..) (nodup_singleton 0) ?_
  intro p hp hp0
  rw [mem_range'_1] at hp
  rw [mem_singleton] at hp0
  have := hm.first_pos
  omega

/-- Nothing follows the transaction in the journal: the block behind its
commit block does not begin another one. -/
def QuietTail (v : Volume) (j : Journal) (txn : Txn) (d : Disk) : Prop :=
  jrnlHas v j.jMap j.jMaxlen d ext4JtDescriptor (j.jFirst + 1 + txn.length + 1)
    ((j.jSeq + 1) % 4294967296) = false
  deriving Decidable

section Image

variable {v : Volume} {j : Journal} {txn : Txn} (hm : Mounted j) (hf : Fits v j txn) (d : Disk)
include hm hf

/-- Reading back a journal block of the image. -/
theorem ext4DiskRead_image {p : Nat} (hp : Used j txn.length p)
    (hw : .cached (jrnlPhys j.jMap p) buf ∈ commitWrites j txn) (hi : i < v.bs) :
    ext4DiskRead v (committedImage v j txn d) (jrnlPhys j.jMap p) i = buf i := by
  rw [ext4DiskRead, if_pos (hf.readable p hp), blit_in ⟨Nat.zero_le i, by omega⟩]
  exact applyWrites_cached v d (nodup_commitWrites hm hf) hw hi

/-- The superblock of the image after a commit. -/
theorem jsbRead_image (hi : i < 1024) :
    jsbRead (committedImage v j txn d) (jrnlPhys j.jMap 0) i
      = (ext4JsbWrite j j.jFirst j.jSeq).1.gJsb i := by
  rw [jsbRead, blit_in ⟨Nat.zero_le i, by omega⟩]
  refine applyWrites_direct v d (nodup_commitWrites hm hf) ?_ (by omega)
  rw [commitWrites, mark_eq hf]
  exact mem_append_right _ (mem_singleton.mpr rfl)

/-- A journal block that was written with a header is found with it. -/
theorem jrnlHas_image {p type : Nat} (hp : Used j txn.length p) (hlt : p < j.jMaxlen) (buf : Buf)
    (hw : .cached (jrnlPhys j.jMap p) buf ∈ commitWrites j txn)
    (hbuf : ∀ i, i < 12 → buf i = jrnlHeader type j.jSeq i) (htype : type < 4294967296) :
    jrnlHas v j.jMap j.jMaxlen (committedImage v j txn d) type p j.jSeq = true := by
  have hbs := hf.block
  have hread : ∀ o, o + 4 ≤ 12 →
      be32 (ext4DiskRead v (committedImage v j txn d) (jrnlPhys j.jMap p)) o
        = be32 (jrnlHeader type j.jSeq) o := fun o ho =>
    be32_congr fun k hk => by
      rw [ext4DiskRead_image hm hf d hp hw (by omega)]
      exact hbuf _ (by omega)
  have hmagic : be32 (jrnlHeader type j.jSeq) 0 = ext4Jbd2Magic := by
    rw [jrnlHeader, be32_putBe32_of_disjoint (.inl (by omega)),
      be32_putBe32_of_disjoint (.inl (by omega)), be32_putBe32]
    rfl
  have htyp : be32 (jrnlHeader type j.jSeq) 4 = type := by
    rw [jrnlHeader, be32_putBe32_of_disjoint (.inl (by omega)), be32_putBe32]
    exact Nat.mod_eq_of_lt htype
  have hseq : be32 (jrnlHeader type j.jSeq) 8 = j.jSeq := by
    rw [jrnlHeader, be32_putBe32]
    exact Nat.mod_eq_of_lt hm.seq
  unfold jrnlHas jrnlBlockIs
  rw [hread 0 (by omega), hread 4 (by omega), hread 8 (by omega), hmagic, htyp, hseq,
    hf.readable p hp]
  simp [hlt, hf.mapped p hp]

/-- The replay finds the descriptor. -/
theorem jrnlHas_descriptor :
    jrnlHas v j.jMap j.jMaxlen (committedImage v j txn d) ext4JtDescriptor j.jFirst j.jSeq
      = true := by
  have hroom := hf.room
  refine jrnlHas_image hm hf d (.inr ⟨Nat.le_refl _, by omega⟩) (by omega)
    (txnDescriptor j.jSeq txn) ?_ (fun i hi => putTags_of_lt txn _ 12 hi) (by decide)
  exact mem_append_left _ (mem_append_left _ mem_cons_self)

/-- The replay finds the commit block. -/
theorem jrnlHas_commit :
    jrnlHas v j.jMap j.jMaxlen (committedImage v j txn d) ext4JtCommit
      (j.jFirst + 1 + txn.length) j.jSeq = true := by
  have hroom := hf.room
  refine jrnlHas_image hm hf d (.inr ⟨by omega, Nat.le_refl _⟩) hroom
    (jrnlHeader ext4JtCommit j.jSeq) ?_ (fun i _ => rfl) (by decide)
  exact mem_append_left _ (mem_append_right _ (mem_singleton.mpr rfl))

/-- The tag loop on the image gives the transaction. -/
theorem replayTags_image :
    replayTags v j.jMap (committedImage v j txn d)
        (ext4DiskRead v (committedImage v j txn d) (jrnlPhys j.jMap j.jFirst)) j.jFirst v.bs 12 0
      = (restored v j.jMap (committedImage v j txn d) (j.jFirst + 1) txn, txn.length) := by
  have hbs := hf.block
  have hmax : txn.length ≤ 8 := hf.max
  have h := replayTags_putTags v j.jMap (committedImage v j txn d)
    (ext4DiskRead v (committedImage v j txn d) (jrnlPhys j.jMap j.jFirst)) j.jFirst txn
    (jrnlHeader ext4JtDescriptor j.jSeq) 12 0 v.bs hf.nonempty (by omega) (by omega) ?_ hf.small
    (fun k hk => hf.mapped _ (.inr ⟨by omega, by omega⟩))
  · rw [add_zero, zero_add] at h
    exact h
  · intro i hi
    refine ext4DiskRead_image hm hf d (.inr ⟨Nat.le_refl _, by omega⟩) ?_ hi
    exact mem_append_left _ (mem_append_left _ mem_cons_self)

/-- The outer loop applies the transaction and stops behind it. -/
theorem replayLoop_image (hq : QuietTail v j txn (committedImage v j txn d)) {fuel : Nat}
    (hfuel : 1 < fuel) :
    replayLoop v j.jMap j.jMaxlen (committedImage v j txn d) fuel j.jFirst j.jSeq
      = ([⟨j.jFirst, j.jSeq, restored v j.jMap (committedImage v j txn d) (j.jFirst + 1) txn⟩],
          (j.jSeq + 1) % 4294967296) := by
  obtain ⟨fuel, rfl⟩ : ∃ f, fuel = f + 2 := ⟨fuel - 2, by omega⟩
  have hstop : ∀ fuel, replayLoop v j.jMap j.jMaxlen (committedImage v j txn d) fuel
      (j.jFirst + 1 + txn.length + 1) ((j.jSeq + 1) % 4294967296)
        = ([], (j.jSeq + 1) % 4294967296) := by
    intro fuel
    cases fuel with
    | zero => rfl
    | succ fuel =>
      rw [replayLoop, if_neg]
      unfold QuietTail at hq
      simp [hq]
  rw [replayLoop, if_pos (jrnlHas_descriptor hm hf d)]
  simp only [replayTags_image hm hf d]
  rw [if_pos (jrnlHas_commit hm hf d)]
  simp only [hstop]

/-- Replay of the image: the transaction, then the superblock that
empties the journal. -/
theorem replayWrites_image (hq : QuietTail v j txn (committedImage v j txn d)) :
    ∃ gJsb : Buf, replayWrites (ext4JournalReplay v j.jMap (committedImage v j txn d) true)
      = txnHome (restored v j.jMap (committedImage v j txn d) (j.jFirst + 1) txn)
          ++ [.direct (jrnlPhys j.jMap 0) gJsb] := by
  have hmap0 := hf.mapped 0 (.inl rfl)
  have hfirst := hm.first_pos
  have hroom := hf.room
  set gJsb := jsbRead (committedImage v j txn d) (jrnlPhys j.jMap 0) with hg
  have hread : ∀ o, o + 4 ≤ 1024 → be32 gJsb o = be32 (ext4JsbWrite j j.jFirst j.jSeq).1.gJsb o :=
    fun o ho => be32_congr fun k hk => jsbRead_image hm hf d (by omega)
  have hlow : ∀ o, o + 4 ≤ 0x18 → be32 gJsb o = be32 j.gJsb o := fun o ho =>
    (hread o (by omega)).trans (be32_jsb_of_lt j _ _ ho)
  have hvalid : jsbValid gJsb = true := by
    unfold jsbValid
    rw [hlow 0 (by omega), hlow 4 (by omega), hm.magic, hm.type]
    rfl
  have hmaxlen : (jsbLoad j.jMap gJsb).jMaxlen = j.jMaxlen := by
    rw [jsbLoad_jMaxlen, hlow 0x10 (by omega), hm.maxlen]
  have hseq : (jsbLoad j.jMap gJsb).jSeq = j.jSeq := by
    rw [jsbLoad_jSeq, hread 0x18 (by omega)]
    exact (be32_putBe32 ..).trans (Nat.mod_eq_of_lt hm.seq)
  have hstart : be32 gJsb 0x1C = j.jFirst := by
    rw [hread 0x1C (by omega), be32_jsb_start]
    exact Nat.mod_eq_of_lt hfirst.2
  simp only [ext4JournalReplay]
  rw [if_neg hmap0, ← hg, if_neg (by simp [hvalid]), hstart, hmaxlen, hseq,
    if_neg (by simp; omega), replayLoop_image hm hf d hq (by omega)]
  simp only [replayEnd, ext4JsbWrite, replayWrites]
  have hclear : jrnlPhys (jsbLoad j.jMap gJsb).jMap 0 ≠ 0 := hmap0
  rw [if_neg hclear, flatMap_cons, flatMap_nil, append_nil]
  exact ⟨_, rfl⟩

end Image

/-! ### Exact recovery -/

/-- Where the test fired, the first byte comes back as `C0`, and it was
`98`. -/
theorem restore_ne (h : le32 buf 0 = ext4Jbd2Magic) (db : Buf) : restore buf db 0 ≠ buf 0 := by
  have hnew : restore buf db 0 = 0xC0 := by
    rw [restore, if_pos h, putBe32, blit_zero (by decide)]
    rfl
  rw [hnew]
  intro heq
  have hlow : le32 buf 0 % 256 = 0xC0 := by
    have h0 : (buf 0).toNat = 0xC0 := by rw [← heq]; rfl
    simp only [le32]
    omega
  rw [h] at hlow
  exact absurd hlow (by decide)

/-- An escaped block differs in its first word only. -/
theorem restore_congr (buf : Buf) {db db' : Buf} (h : db i = db' i) :
    restore buf db i = restore buf db' i := by
  unfold restore
  split
  · unfold putBe32 blit
    split
    · rfl
    · exact h
  · exact h

/-- The replay writes the blocks of the transaction, in their order. -/
theorem fst_restored {v : Volume} {jMap : List (Nat × Nat)} {d : Disk} :
    ∀ (txn : Txn) (log : Nat), (restored v jMap d log txn).map Prod.fst = txn.map Prod.fst := by
  intro txn
  induction txn with
  | nil => intro log; rfl
  | cons p rest ih =>
    intro log
    show p.1 :: (restored v jMap d (log + 1) rest).map Prod.fst = _
    rw [ih, map_cons]

/-- Each block of the transaction is restored from its own copy. -/
theorem exists_restored (hm : Mounted j) (hf : Fits v j txn) (d : Disk) {p : Nat × Buf}
    (hp : p ∈ txn) :
    ∃ w ∈ restored v j.jMap (committedImage v j txn d) (j.jFirst + 1) txn,
      w.1 = p.1 ∧ ∀ i, i < v.bs → w.2 i = restore p.2 (txnCopy p.2) i := by
  -- a suffix of the transaction, whose copies start at `log`
  have key : ∀ (rest : Txn) (log : Nat), j.jFirst ≤ log →
      log + rest.length ≤ j.jFirst + 1 + txn.length →
      (∀ w ∈ txnCopies j.jMap log rest, w ∈ commitWrites j txn) → p ∈ rest →
      ∃ w ∈ restored v j.jMap (committedImage v j txn d) log rest,
        w.1 = p.1 ∧ ∀ i, i < v.bs → w.2 i = restore p.2 (txnCopy p.2) i := by
    intro rest
    induction rest with
    | nil => intro log _ _ _ hp; exact absurd hp not_mem_nil
    | cons q rest ih =>
      intro log hlo hhi hsub hp
      rw [length_cons] at hhi
      rcases mem_cons.mp hp with rfl | hp
      · refine ⟨_, mem_cons_self, rfl, fun i hi => restore_congr p.2 ?_⟩
        exact ext4DiskRead_image hm hf d (.inr ⟨hlo, by omega⟩) (hsub _ mem_cons_self) hi
      · obtain ⟨w, hw, hspec⟩ := ih (log + 1) (by omega) (by omega)
          (fun w hw => hsub w (mem_cons_of_mem _ hw)) hp
        exact ⟨w, mem_cons_of_mem _ hw, hspec⟩
  refine key txn (j.jFirst + 1) (by omega) (by omega) (fun w hw => ?_) hp
  exact mem_append_left _ (mem_append_left _ (mem_cons_of_mem _ hw))

/-- Recovery of `txn` from `before` to `after`: every target holds the
recorded contents, and no other block outside the journal has
changed. -/
def Recovers (v : Volume) (j : Journal) (txn : Txn) (before after : Disk) : Prop :=
  (∀ p ∈ txn, ∀ i, i < v.bs → after p.1 i = p.2 i) ∧
  (∀ blk, (∀ p ∈ txn, p.1 ≠ blk) → ¬ InJournal j.jMap j.jMaxlen blk → after blk = before blk)

/-- The volume after replay of the image. -/
def replayed (v : Volume) (j : Journal) (d : Disk) : Disk :=
  applyWrites v d (replayWrites (ext4JournalReplay v j.jMap d true))

/-- Each target holds its restored copy, every other block outside the
journal is untouched. -/
theorem replayed_image (hm : Mounted j) (hf : Fits v j txn) (d : Disk)
    (hq : QuietTail v j txn (committedImage v j txn d)) :
    (∀ p ∈ txn, ∀ i, i < v.bs →
      replayed v j (committedImage v j txn d) p.1 i = restore p.2 (txnCopy p.2) i) ∧
    (∀ blk, (∀ p ∈ txn, p.1 ≠ blk) → ¬ InJournal j.jMap j.jMaxlen blk →
      replayed v j (committedImage v j txn d) blk = committedImage v j txn d blk) := by
  obtain ⟨gJsb, hws⟩ := replayWrites_image hm hf d hq
  set ws := restored v j.jMap (committedImage v j txn d) (j.jFirst + 1) txn
  have hblocks : (txnHome ws ++ [IoWrite.direct (jrnlPhys j.jMap 0) gJsb]).map ioBlock
      = txn.map Prod.fst ++ [jrnlPhys j.jMap 0] := by
    rw [map_append, txnHome, map_map, ← fst_restored txn (j.jFirst + 1)]
    rfl
  have hsuper : InJournal j.jMap j.jMaxlen (jrnlPhys j.jMap 0) :=
    ⟨hf.mapped 0 (.inl rfl), 0, Nat.zero_lt_of_lt hf.room, rfl⟩
  unfold replayed
  rw [hws]
  refine ⟨fun p hp i hi => ?_, fun blk hblk hout => applyWrites_of_notMem v _ fun w hw heq => ?_⟩
  · -- each target is written once, and the journal's superblock is none of them
    have hnodup : (txn.map Prod.fst ++ [jrnlPhys j.jMap 0]).Nodup := by
      refine List.Nodup.append hf.distinct (nodup_singleton _) ?_
      intro b hb hb0
      obtain ⟨q, hq, rfl⟩ := mem_map.mp hb
      rw [mem_singleton] at hb0
      exact hf.outside q hq (hb0 ▸ hsuper)
    rw [← hblocks] at hnodup
    obtain ⟨w, hw, hfst, hbytes⟩ := exists_restored hm hf d hp
    rw [← hbytes i hi, ← hfst]
    refine applyWrites_cached v _ hnodup (mem_append_left _ ?_) hi
    exact mem_map_of_mem hw
  · have hmem : blk ∈ txn.map Prod.fst ++ [jrnlPhys j.jMap 0] := by
      rw [← hblocks, ← heq]
      exact mem_map_of_mem hw
    rcases mem_append.mp hmem with h | h
    · obtain ⟨q, hq, hqb⟩ := mem_map.mp h
      exact hblk q hq hqb
    · rw [mem_singleton.mp h] at hout
      exact hout hsuper

/-- A small volume: 1 KiB blocks, the journal in the blocks from 50
on. -/
def smallVolume : Volume := ⟨1024, 100⟩

def smallJournal : Journal where
  hasJournal := true
  jMaxlen := 16
  jFirst := 1
  jSeq := 5
  gJsb := putBe32 (putBe32 (putBe32 (putBe32 (fun _ => 0) 0 ext4Jbd2Magic) 4 4) 0x10 16) 0x14 1
  jMap := [(0, 50)]

theorem mounted_smallJournal : Mounted smallJournal := by
  constructor <;> decide

theorem jrnlPhys_smallJournal (p : Nat) :
    jrnlPhys smallJournal.jMap p = if p < 4096 then 50 + p else 0 := by
  simp only [smallJournal, jrnlPhys]
  split_ifs <;> omega

theorem fits_smallJournal {buf : Buf} : Fits smallVolume smallJournal [(30, buf)] where
  block := by decide
  nonempty := by simp
  max := by simp [ext4TxnMax]
  small := by simp
  distinct := by simp
  outside := by
    intro p hp
    rw [mem_singleton.mp hp]
    rintro ⟨-, jblk, -, h⟩
    rw [jrnlPhys_smallJournal] at h
    split_ifs at h
    omega
  room := by
    show 1 + 1 + 1 < 16
    decide
  mapped := by
    intro p hp
    have hlt : p < 4096 := by
      simp only [Used, smallJournal, length_singleton] at hp
      omega
    rw [jrnlPhys_smallJournal, if_pos hlt]
    omega
  readable := by
    intro p hp
    simp only [Used, smallJournal, length_singleton] at hp
    rw [jrnlPhys_smallJournal, if_pos (by omega), Volume.readable, decide_eq_true_eq]
    have hlt : 50 + p < 100 := by omega
    exact .inl hlt
  inj := by
    intro p q hp hq h
    simp only [Used, smallJournal, length_singleton] at hp hq
    rw [jrnlPhys_smallJournal, jrnlPhys_smallJournal, if_pos (by omega), if_pos (by omega)] at h
    omega

end CoreZ.Proofs.Fs.Ext4
