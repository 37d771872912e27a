import CoreZ.Lib.Bytes
import Mathlib.Logic.Function.Basic

/-!
# `CoreZ.Fs.Ext4.Journal`: commit and replay

The model of the journal in `kernel/fs/ext4.c`: `txn_commit`, which
writes a transaction, and `ext4_journal_replay`, which reads it back at
mount time.

A disk is a function from block numbers to block contents, of which the
first `bs` bytes count. The two functions do not write a disk here but
return their writes in order, because the source has two kinds of them:
`ext4_raw_write` goes to the write-back cache (`pbc_write`), the
journal superblock goes to the disk at once (`BLOCK.write_sectors`).
`Proofs` modules apply them to a disk as they need.

Replay reads the journal with `ext4_disk_read`, past the cache, so its
reads see the disk it was started on.

Journal block numbers are plain naturals: a mapped one is below the end
of the last window of `j_map_log`, far from `2 ^ 32`. Not modelled:
`disk == NULL`, and a `pbc_write` that finds every slot busy.
-/

set_option autoImplicit false

namespace CoreZ.Fs.Ext4

open CoreZ.Lib

def ext4Jbd2Magic : Nat := 0xC03B3998
def ext4JtDescriptor : Nat := 1
def ext4JtCommit : Nat := 2
def ext4TxnMax : Nat := 8

/-- The bits `EXT4_JF_*` of a tag's flags, by position. -/
def ext4JfEscape : Nat := 0
def ext4JfSameUuid : Nat := 1
def ext4JfDeleted : Nat := 2
def ext4JfLastTag : Nat := 3

/-- A disk: block number to contents. -/
abbrev Disk := Nat → Buf

/-- The mount parameters the block layer reads. -/
structure Volume where
  bs : Nat
  totalBlocks : Nat

/-- The check of `ext4_disk_read` and `ext4_read_block`. -/
def Volume.readable (v : Volume) (blk : Nat) : Bool :=
  decide (blk < v.totalBlocks ∨ v.totalBlocks = 0)

/-- `ext4_disk_read` into a zeroed page, which stays zero when the block
is out of range. -/
def ext4DiskRead (v : Volume) (d : Disk) (blk : Nat) : Buf :=
  if v.readable blk then blit (fun _ => 0) 0 v.bs (d blk) else fun _ => 0

/-- One write to the volume. -/
inductive IoWrite where
  /-- `pbc_write`: one block, through the write-back cache. -/
  | cached (blk : Nat) (buf : Buf)
  /-- `BLOCK.write_sectors` of two sectors at the start of a block. -/
  | direct (blk : Nat) (buf : Buf)

/-- The effect of a write on a disk, once it gets there. -/
def IoWrite.apply (v : Volume) (d : Disk) : IoWrite → Disk
  | .cached blk buf => Function.update d blk (blit (d blk) 0 v.bs buf)
  | .direct blk buf => Function.update d blk (blit (d blk) 0 1024 buf)

def applyWrites (v : Volume) (d : Disk) (ws : List IoWrite) : Disk := ws.foldl (IoWrite.apply v) d

/-- The journal state of the mounted file system. `jMap` pairs
`j_map_log[i]` with `j_map_phys[i]`, for `i < j_nmap`. -/
structure Journal where
  hasJournal : Bool
  jMaxlen : Nat
  jFirst : Nat
  jSeq : Nat
  gJsb : Buf
  jMap : List (Nat × Nat)

/-- `jrnl_phys`: the first window that holds the block. A window is 4096
blocks long whatever the length of its extent is. -/
def jrnlPhys : List (Nat × Nat) → Nat → Nat
  | [], _ => 0
  | (log, phys) :: rest, jblk =>
    if log ≤ jblk ∧ jblk < (log + 4096) % 4294967296 then (phys + (jblk - log)) % 4294967296
    else jrnlPhys rest jblk

/-! ### Commit -/

/-- One transaction: `t_blk[i]` with `t_buf[i]`. -/
abbrev Txn := List (Nat × Buf)

/-- `ext4_jsb_write`. -/
def ext4JsbWrite (j : Journal) (sStart sSeq : Nat) : Journal × List IoWrite :=
  let gJsb := putBe32 (putBe32 j.gJsb 0x1C sStart) 0x18 sSeq
  let pblk := jrnlPhys j.jMap 0
  ({ j with gJsb := gJsb }, if pblk = 0 then [] else [.direct pblk gJsb])

/-- The header of a journal block. -/
def jrnlHeader (type seq : Nat) : Buf :=
  putBe32 (putBe32 (putBe32 (fun _ => 0) 0 ext4Jbd2Magic) 4 type) 8 seq

/-- The flags of a tag. The magic number is compared in little-endian
order, as `ld32` reads it. -/
def txnFlags (last : Bool) (buf : Buf) : Nat :=
  2 + (if last then 8 else 0) + (if le32 buf 0 = ext4Jbd2Magic then 1 else 0)

/-- The eight bytes of a tag at `off`. -/
def putTag (jb : Buf) (off blk flags : Nat) : Buf :=
  blit (putBe32 jb off blk) (off + 4) 4 (beBytes flags)

/-- The tag loop of `txn_commit`. -/
def putTags : Buf → Nat → Txn → Buf
  | jb, _, [] => jb
  | jb, off, (blk, buf) :: rest =>
    putTags (putTag jb off blk (txnFlags rest.isEmpty buf)) (off + 8) rest

def txnDescriptor (seq : Nat) (txn : Txn) : Buf :=
  putTags (jrnlHeader ext4JtDescriptor seq) 12 txn

/-- The copy that goes to the journal: a block that begins with the
magic number gets zeros there. -/
def txnCopy (buf : Buf) : Buf := if le32 buf 0 = ext4Jbd2Magic then putLe32 buf 0 0 else buf

/-- The copy loop of `txn_commit`, from the journal block `log` on. -/
def txnCopies (jMap : List (Nat × Nat)) : Nat → Txn → List IoWrite
  | _, [] => []
  | log, (_, buf) :: rest =>
    .cached (jrnlPhys jMap log) (txnCopy buf) :: txnCopies jMap (log + 1) rest

/-- The journal part of `txn_commit`: descriptor, copies, commit block. -/
def txnRecord (j : Journal) (seq : Nat) (txn : Txn) : List IoWrite :=
  let log := j.jFirst
  .cached (jrnlPhys j.jMap log) (txnDescriptor seq txn)
    :: txnCopies j.jMap (log + 1) txn
    ++ [.cached (jrnlPhys j.jMap (log + 1 + txn.length)) (jrnlHeader ext4JtCommit seq)]

/-- The blocks written to their home. -/
def txnHome (txn : Txn) : List IoWrite := txn.map fun p => .cached p.1 p.2

/-- `txn_commit`: success, the journal state after it, and the writes in
order. `pages` says whether the two `get_kernel_pages` calls succeed. -/
def txnCommit (j : Journal) (pages : Bool) (txn : Txn) : Bool × Journal × List IoWrite :=
  if txn.isEmpty then (true, j, [])
  else if j.hasJournal = false then (true, j, txnHome txn)
  else if pages = false then (false, j, [])
  else
    let seq := j.jSeq
    let (j, mark) := ext4JsbWrite j j.jFirst seq
    let (j', clear) := ext4JsbWrite j 0 ((seq + 1) % 4294967296)
    (true, { j' with jSeq := (seq + 1) % 4294967296 },
      txnRecord j seq txn ++ mark ++ txnHome txn ++ clear)

/-! ### Replay -/

/-- The inner loop of `ext4_journal_replay` over the tags of the
descriptor `jb` at the journal block `log`: the blocks it writes, and
the number `n` of tags it read. Each round moves `off` by 8 at least, so
`bs` rounds are enough. -/
def replayTags (v : Volume) (jMap : List (Nat × Nat)) (d : Disk) (jb : Buf) (log : Nat) :
    Nat → Nat → Nat → List (Nat × Buf) × Nat
  | 0, _, n => ([], n)
  | fuel + 1, off, n =>
    if off + 8 > v.bs then ([], n)
    else
      let tgt := be32 jb off
      let fl := be16 jb (off + 6)
      let off := if fl.testBit ext4JfSameUuid then off + 8 else off + 8 + 16
      let dpb2 := jrnlPhys jMap (log + 1 + n)
      if dpb2 = 0 then ([], n)
      else
        let db := ext4DiskRead v d dpb2
        let db := if fl.testBit ext4JfEscape then putBe32 db 0 ext4Jbd2Magic else db
        let ws := if fl.testBit ext4JfDeleted then [] else [(tgt, db)]
        if fl.testBit ext4JfLastTag then (ws, n + 1)
        else
          let (ws', n') := replayTags v jMap d jb log fuel off (n + 1)
          (ws ++ ws', n')

/-- The three header checks on a journal block. -/
def jrnlBlockIs (jb : Buf) (type seq : Nat) : Bool :=
  decide (be32 jb 0 = ext4Jbd2Magic ∧ be32 jb 4 = type ∧ be32 jb 8 = seq)

/-- The journal block `log` is inside the journal, mapped, readable, and
has the header `type`, `seq`. -/
def jrnlHas (v : Volume) (jMap : List (Nat × Nat)) (jMaxlen : Nat) (d : Disk) (type log seq : Nat) :
    Bool :=
  decide (log < jMaxlen) && decide (jrnlPhys jMap log ≠ 0) && v.readable (jrnlPhys jMap log)
    && jrnlBlockIs (ext4DiskRead v d (jrnlPhys jMap log)) type seq

/-- What replay applied for one descriptor: its journal block, its
sequence number and the blocks written. -/
structure Applied where
  log : Nat
  seq : Nat
  writes : List (Nat × Buf)

/-- The outer loop of `ext4_journal_replay`. The tags of a descriptor
are applied before its commit block is looked at. `log` moves by two at
least, so `jMaxlen` rounds are enough. -/
def replayLoop (v : Volume) (jMap : List (Nat × Nat)) (jMaxlen : Nat) (d : Disk) :
    Nat → Nat → Nat → List Applied × Nat
  | 0, _, seq => ([], seq)
  | fuel + 1, log, seq =>
    if jrnlHas v jMap jMaxlen d ext4JtDescriptor log seq then
      let (ws, n) := replayTags v jMap d (ext4DiskRead v d (jrnlPhys jMap log)) log v.bs 12 0
      let log' := log + 1 + n
      if jrnlHas v jMap jMaxlen d ext4JtCommit log' seq then
        let (rest, seq') := replayLoop v jMap jMaxlen d fuel (log' + 1) ((seq + 1) % 4294967296)
        (⟨log, seq, ws⟩ :: rest, seq')
      else ([⟨log, seq, ws⟩], seq)
    else ([], seq)

/-- `jsb_read` into the zeroed `g_jsb`: two sectors. -/
def jsbRead (d : Disk) (blk : Nat) : Buf := blit (fun _ => 0) 0 1024 (d blk)

/-- The magic number and the type of a journal superblock. -/
def jsbValid (gJsb : Buf) : Bool := decide (be32 gJsb 0 = ext4Jbd2Magic ∧ be32 gJsb 4 = 4)

/-- The journal state that replay reads from the superblock. -/
def jsbLoad (jMap : List (Nat × Nat)) (gJsb : Buf) : Journal where
  hasJournal := true
  jMaxlen := be32 gJsb 0x10
  jFirst := if be32 gJsb 0x14 = 0 then 1 else be32 gJsb 0x14
  jSeq := be32 gJsb 0x18
  gJsb := gJsb
  jMap := jMap

@[simp] theorem jsbLoad_jMaxlen (jMap : List (Nat × Nat)) (gJsb : Buf) :
    (jsbLoad jMap gJsb).jMaxlen = be32 gJsb 0x10 := rfl

@[simp] theorem jsbLoad_jSeq (jMap : List (Nat × Nat)) (gJsb : Buf) :
    (jsbLoad jMap gJsb).jSeq = be32 gJsb 0x18 := rfl

/-- The journal state of a mount that finds no journal superblock. -/
def jsbNone (jMap : List (Nat × Nat)) (gJsb : Buf) : Journal where
  hasJournal := false
  jMaxlen := 0
  jFirst := 1
  jSeq := 1
  gJsb := gJsb
  jMap := jMap

/-- The end of `ext4_journal_replay`: the journal is empty from the
sequence number behind the last transaction on. -/
def replayEnd (j : Journal) (r : List Applied × Nat) : Journal × List Applied × List IoWrite :=
  let c := ext4JsbWrite { j with jSeq := r.2 } 0 r.2
  (c.1, r.1, c.2)

theorem replayEnd_applied (j : Journal) (r : List Applied × Nat) : (replayEnd j r).2.1 = r.1 := rfl

/-- `ext4_journal_replay`: the journal state it leaves, what it applied,
and its last write. `pages` says whether its two page allocations
succeed. -/
def ext4JournalReplay (v : Volume) (jMap : List (Nat × Nat)) (d : Disk) (pages : Bool) :
    Journal × List Applied × List IoWrite :=
  let pblk := jrnlPhys jMap 0
  let gJsb := jsbRead d pblk
  if pblk = 0 then (jsbNone jMap fun _ => 0, [], [])
  else if jsbValid gJsb = false then (jsbNone jMap gJsb, [], [])
  else
    let j := jsbLoad jMap gJsb
    let sStart := be32 gJsb 0x1C
    if sStart = 0 ∨ pages = false then (j, [], [])
    else replayEnd j (replayLoop v jMap j.jMaxlen d j.jMaxlen sStart j.jSeq)

/-- All writes of a replay, in order. -/
def replayWrites (r : Journal × List Applied × List IoWrite) : List IoWrite :=
  r.2.1.flatMap (fun a => txnHome a.writes) ++ r.2.2

end CoreZ.Fs.Ext4
