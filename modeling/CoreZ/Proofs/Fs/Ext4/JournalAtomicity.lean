import CoreZ.Proofs.Fs.Ext4.JournalRecovery

/-!
# `CoreZ.Proofs.Fs.Ext4.JournalAtomicity`: which transactions replay applies

Replay on an arbitrary disk, so also on what a crash in the middle of a
commit leaves. The journal is read here as a format, without the loops
of the source: `descTags` are the tags of a descriptor, `Committed` says
that the block behind its copies is the commit block with the same
sequence number, and `Reached` walks from one committed transaction to
the next.

`mem_replayLoop` says what replay does in these terms: it applies
exactly the descriptors it reaches. The last one of them need not be
committed, because the source applies the tags before it looks at the
commit block. `atomicReplay_iff` is the resulting condition on a disk
for replay to be atomic.

`crashImage` is the disk after a crash. A cached write may or may not
have reached it, the journal superblock has, since it is written past
the cache.
-/

set_option autoImplicit false

namespace CoreZ.Proofs.Fs.Ext4

open CoreZ.Lib
open CoreZ.Fs.Ext4
open List

/-- The tags of the descriptor `jb` at the journal block `log`, as pairs
of target and flags, up to the first one whose copy has no mapped
journal block. -/
def descTags (v : Volume) (jMap : List (Nat × Nat)) (jb : Buf) (log : Nat) :
    Nat → Nat → Nat → List (Nat × Nat)
  | 0, _, _ => []
  | fuel + 1, off, n =>
    let fl := be16 jb (off + 6)
    if off + 8 > v.bs ∨ jrnlPhys jMap (log + 1 + n) = 0 then []
    else if fl.testBit ext4JfLastTag then [(be32 jb off, fl)]
    else
      (be32 jb off, fl) ::
        descTags v jMap jb log fuel (if fl.testBit ext4JfSameUuid then off + 8 else off + 8 + 16)
          (n + 1)

section Format

variable (v : Volume) (jMap : List (Nat × Nat)) (jMaxlen : Nat) (d : Disk)

/-- The tags of the descriptor at the journal block `log` of a disk. -/
def tagsAt (log : Nat) : List (Nat × Nat) :=
  descTags v jMap (ext4DiskRead v d (jrnlPhys jMap log)) log v.bs 12 0

/-- The transaction that begins at `log` is followed by its commit block
with the sequence number `seq`. -/
def Committed (log seq : Nat) : Prop :=
  jrnlHas v jMap jMaxlen d ext4JtCommit (log + 1 + (tagsAt v jMap d log).length) seq = true
  deriving Decidable

/-- The journal blocks where the scan from `log`, `seq` looks for a
descriptor: the first, and each one behind a committed transaction. -/
inductive Reached : Nat → Nat → Nat → Nat → Prop
  | here (log seq : Nat) : Reached log seq log seq
  | next {log seq log' seq' : Nat}
      (hdesc : jrnlHas v jMap jMaxlen d ext4JtDescriptor log seq = true)
      (hcommit : Committed v jMap jMaxlen d log seq)
      (hrest : Reached (log + 1 + (tagsAt v jMap d log).length + 1) ((seq + 1) % 4294967296)
        log' seq') : Reached log seq log' seq'

end Format

/-! ### The loops -/

/-- The tag loop reads the tags of the format and writes the ones that
are not deleted. -/
theorem replayTags_descTags (v : Volume) (jMap : List (Nat × Nat)) (d : Disk) (jb : Buf)
    (log : Nat) :
    ∀ (fuel off n : Nat),
      (replayTags v jMap d jb log fuel off n).2 = n + (descTags v jMap jb log fuel off n).length ∧
      (replayTags v jMap d jb log fuel off n).1.map Prod.fst
        = ((descTags v jMap jb log fuel off n).filter
            fun t => !t.2.testBit ext4JfDeleted).map Prod.fst := by
  intro fuel
  induction fuel with
  | zero => intro off n; exact ⟨rfl, rfl⟩
  | succ fuel ih =>
    intro off n
    by_cases hoff : off + 8 > v.bs
    · rw [replayTags, descTags, if_pos hoff, if_pos (Or.inl hoff)]
      exact ⟨rfl, rfl⟩
    by_cases hmap : jrnlPhys jMap (log + 1 + n) = 0
    · rw [replayTags, descTags, if_neg hoff, if_pos (Or.inr hmap)]
      simp only [hmap, if_true]
      exact ⟨rfl, rfl⟩
    have hgo : ¬ (off + 8 > v.bs ∨ jrnlPhys jMap (log + 1 + n) = 0) := by
      rintro (h | h)
      · exact hoff h
      · exact hmap h
    rw [replayTags, descTags]
    simp only [if_neg hoff, if_neg hmap, if_neg hgo]
    -- a deleted tag takes a block of the log, but writes nothing
    by_cases hlast : (be16 jb (off + 6)).testBit ext4JfLastTag = true
    · rw [if_pos hlast, if_pos hlast]
      cases hdel : (be16 jb (off + 6)).testBit ext4JfDeleted with
      | false => simp [hdel]
      | true => simp [hdel]
    rw [if_neg hlast, if_neg hlast]
    obtain ⟨hn, hws⟩ := ih
      (if (be16 jb (off + 6)).testBit ext4JfSameUuid then off + 8 else off + 8 + 16) (n + 1)
    refine ⟨?_, ?_⟩
    · rw [hn, length_cons]
      omega
    · rw [map_append, hws]
      cases hdel : (be16 jb (off + 6)).testBit ext4JfDeleted with
      | false => simp [hdel]
      | true => simp [hdel]

section Loop

variable (v : Volume) (jMap : List (Nat × Nat)) (jMaxlen : Nat) (d : Disk)

/-- The blocks written for the descriptor at `log`. -/
def writesAt (log : Nat) : List (Nat × Buf) :=
  (replayTags v jMap d (ext4DiskRead v d (jrnlPhys jMap log)) log v.bs 12 0).1

/-- One round of the outer loop, in terms of the format. -/
theorem replayLoop_succ (fuel log seq : Nat) :
    (replayLoop v jMap jMaxlen d (fuel + 1) log seq).1
      = if jrnlHas v jMap jMaxlen d ext4JtDescriptor log seq then
          ⟨log, seq, writesAt v jMap d log⟩ ::
            if Committed v jMap jMaxlen d log seq then
              (replayLoop v jMap jMaxlen d fuel (log + 1 + (tagsAt v jMap d log).length + 1)
                ((seq + 1) % 4294967296)).1
            else []
        else [] := by
  have hn := (replayTags_descTags v jMap d (ext4DiskRead v d (jrnlPhys jMap log)) log v.bs 12 0).1
  rw [zero_add] at hn
  rw [replayLoop]
  by_cases hdesc : jrnlHas v jMap jMaxlen d ext4JtDescriptor log seq = true
  · rw [if_pos hdesc, if_pos hdesc]
    simp only [hn]
    split
    · next hcommit =>
        rw [if_pos (show Committed v jMap jMaxlen d log seq from hcommit)]
        rfl
    · next hcommit =>
        rw [if_neg (show ¬ Committed v jMap jMaxlen d log seq from hcommit)]
        rfl
  · rw [if_neg hdesc, if_neg hdesc]

/-- The outer loop applies the descriptors it reaches, and no others.
The fuel is enough because the journal ends. -/
theorem mem_replayLoop (a : Applied) :
    ∀ (fuel log seq : Nat), jMaxlen ≤ log + fuel →
      (a ∈ (replayLoop v jMap jMaxlen d fuel log seq).1 ↔
        Reached v jMap jMaxlen d log seq a.log a.seq ∧
        jrnlHas v jMap jMaxlen d ext4JtDescriptor a.log a.seq = true ∧
        a.writes = writesAt v jMap d a.log) := by
  intro fuel
  induction fuel with
  | zero =>
    intro log seq hfuel
    -- no fuel: the cursor is past the log, where no header is found
    have hno : jrnlHas v jMap jMaxlen d ext4JtDescriptor log seq ≠ true := by
      have : ¬ log < jMaxlen := by omega
      simp [jrnlHas, this]
    refine ⟨fun h => absurd h not_mem_nil, fun ⟨hreach, hdesc, _⟩ => ?_⟩
    cases hreach with
    | here => exact absurd hdesc hno
    | next hdesc' => exact absurd hdesc' hno
  | succ fuel ih =>
    intro log seq hfuel
    have hrec := ih (log + 1 + (tagsAt v jMap d log).length + 1) ((seq + 1) % 4294967296) (by omega)
    rw [replayLoop_succ]
    by_cases hdesc : jrnlHas v jMap jMaxlen d ext4JtDescriptor log seq = true
    · rw [if_pos hdesc, mem_cons]
      constructor
      · rintro (rfl | hmem)
        · exact ⟨Reached.here _ _, hdesc, rfl⟩
        · split at hmem
          · next hcommit =>
              obtain ⟨hreach, hrest⟩ := hrec.mp hmem
              exact ⟨Reached.next hdesc hcommit hreach, hrest⟩
          · exact absurd hmem not_mem_nil
      · rintro ⟨hreach, hdesc', hws⟩
        obtain ⟨alog, aseq, aws⟩ := a
        cases hreach with
        | here => exact .inl (by rw [show aws = _ from hws])
        | next _ hcommit hrest =>
          rw [if_pos hcommit]
          exact .inr (hrec.mpr ⟨hrest, hdesc', hws⟩)
    · rw [if_neg hdesc]
      refine ⟨fun h => absurd h not_mem_nil, fun ⟨hreach, hdesc', _⟩ => ?_⟩
      cases hreach with
      | here => exact absurd hdesc' hdesc
      | next hdesc'' => exact absurd hdesc'' hdesc

end Loop

/-! ### Atomicity -/

/-- The length of the journal, from its superblock. -/
def maxlenOf (jMap : List (Nat × Nat)) (d : Disk) : Nat :=
  be32 (jsbRead d (jrnlPhys jMap 0)) 0x10

/-- Replay writes a block outside the journal only for a transaction
that is followed by its commit block. -/
def AtomicReplay (v : Volume) (jMap : List (Nat × Nat)) (d : Disk) : Prop :=
  ∀ a ∈ (ext4JournalReplay v jMap d true).2.1, ∀ w ∈ a.writes,
    ¬ InJournal jMap (maxlenOf jMap d) w.1 →
    Committed v jMap (maxlenOf jMap d) d a.log a.seq

/-- The superblock says that the journal holds transactions. -/
def Pending (jMap : List (Nat × Nat)) (d : Disk) : Prop :=
  jrnlPhys jMap 0 ≠ 0 ∧ jsbValid (jsbRead d (jrnlPhys jMap 0)) = true ∧
    be32 (jsbRead d (jrnlPhys jMap 0)) 0x1C ≠ 0

/-- Every descriptor in the chain of the journal is followed by its
commit block, or has only deleted tags and targets inside the
journal. -/
def Sealed (v : Volume) (jMap : List (Nat × Nat)) (d : Disk) : Prop :=
  Pending jMap d → ∀ log seq,
    Reached v jMap (maxlenOf jMap d) d (be32 (jsbRead d (jrnlPhys jMap 0)) 0x1C)
      (be32 (jsbRead d (jrnlPhys jMap 0)) 0x18) log seq →
    jrnlHas v jMap (maxlenOf jMap d) d ext4JtDescriptor log seq = true →
    Committed v jMap (maxlenOf jMap d) d log seq ∨
      ∀ t ∈ tagsAt v jMap d log,
        t.2.testBit ext4JfDeleted = true ∨ InJournal jMap (maxlenOf jMap d) t.1

variable {jMap : List (Nat × Nat)} {d : Disk}

/-- A pending journal is scanned from the start its superblock names. -/
theorem applied_of_pending (v : Volume) (h : Pending jMap d) :
    (ext4JournalReplay v jMap d true).2.1
      = (replayLoop v jMap (maxlenOf jMap d) d (maxlenOf jMap d)
          (be32 (jsbRead d (jrnlPhys jMap 0)) 0x1C)
            (be32 (jsbRead d (jrnlPhys jMap 0)) 0x18)).1 := by
  obtain ⟨hmap, hvalid, hstart⟩ := h
  have hmaxlen : (jsbLoad jMap (jsbRead d (jrnlPhys jMap 0))).jMaxlen = maxlenOf jMap d := rfl
  have hreplay : ext4JournalReplay v jMap d true
      = replayEnd (jsbLoad jMap (jsbRead d (jrnlPhys jMap 0)))
          (replayLoop v jMap (jsbLoad jMap (jsbRead d (jrnlPhys jMap 0))).jMaxlen d
            (jsbLoad jMap (jsbRead d (jrnlPhys jMap 0))).jMaxlen
            (be32 (jsbRead d (jrnlPhys jMap 0)) 0x1C)
            (jsbLoad jMap (jsbRead d (jrnlPhys jMap 0))).jSeq) := by
    rw [ext4JournalReplay, if_neg hmap, if_neg (by simp [hvalid]), if_neg (by simp [hstart])]
  rw [hreplay, replayEnd_applied, hmaxlen, jsbLoad_jSeq]

/-- Otherwise replay applies nothing. -/
theorem applied_of_not_pending (v : Volume) (h : ¬ Pending jMap d) :
    (ext4JournalReplay v jMap d true).2.1 = [] := by
  have hreplay : ∃ j, ext4JournalReplay v jMap d true = (j, [], []) := by
    rw [ext4JournalReplay]
    split
    · exact ⟨_, rfl⟩
    next hmap =>
      split
      · exact ⟨_, rfl⟩
      next hvalid =>
        have hstart : be32 (jsbRead d (jrnlPhys jMap 0)) 0x1C = 0 :=
          by_contra fun hstart => h ⟨hmap, by simpa using hvalid, hstart⟩
        exact ⟨_, if_pos (.inl hstart)⟩
  obtain ⟨j, hj⟩ := hreplay
  rw [hj]

/-- What replay applied, in terms of the format. -/
theorem mem_ext4JournalReplay {v : Volume} {jMap : List (Nat × Nat)} {d : Disk} {a : Applied} :
    a ∈ (ext4JournalReplay v jMap d true).2.1 ↔
      Pending jMap d ∧
      Reached v jMap (maxlenOf jMap d) d (be32 (jsbRead d (jrnlPhys jMap 0)) 0x1C)
        (be32 (jsbRead d (jrnlPhys jMap 0)) 0x18) a.log a.seq ∧
      jrnlHas v jMap (maxlenOf jMap d) d ext4JtDescriptor a.log a.seq = true ∧
      a.writes = writesAt v jMap d a.log := by
  by_cases hpend : Pending jMap d
  · rw [applied_of_pending v hpend, mem_replayLoop v jMap (maxlenOf jMap d) d a
      (maxlenOf jMap d) _ _
      (Nat.le_add_left _ _)]
    exact ⟨fun h => ⟨hpend, h⟩, fun h => h.2⟩
  · rw [applied_of_not_pending v hpend]
    exact ⟨fun h => absurd h not_mem_nil, fun h => absurd h.1 hpend⟩

/-- The targets written for a descriptor are those of its tags that are
not deleted. -/
theorem exists_mem_writesAt {v : Volume} {jMap : List (Nat × Nat)} {d : Disk} {log tgt : Nat} :
    (∃ w ∈ writesAt v jMap d log, w.1 = tgt) ↔
      ∃ t ∈ tagsAt v jMap d log, t.2.testBit ext4JfDeleted = false ∧ t.1 = tgt := by
  have hws := (replayTags_descTags v jMap d (ext4DiskRead v d (jrnlPhys jMap log)) log v.bs 12 0).2
  have hmem : (∃ w ∈ writesAt v jMap d log, w.1 = tgt) ↔
      tgt ∈ (writesAt v jMap d log).map Prod.fst := mem_map.symm
  rw [hmem, writesAt, hws, mem_map]
  simp only [mem_filter, Bool.not_eq_true', tagsAt, and_assoc]

/-- The writes that a crash leaves on the disk: a direct one always, a
cached one when the cache has written it back, which `flushed` says for
each position. -/
def surviving (flushed : Nat → Bool) (ws : List IoWrite) : List IoWrite :=
  (ws.zipIdx.filter fun p =>
    match p.1 with
    | .direct _ _ => true
    | .cached _ _ => flushed p.2).map Prod.fst

/-- The disk after a crash behind the first `done` writes. -/
def crashImage (v : Volume) (d : Disk) (ws : List IoWrite) (done : Nat) (flushed : Nat → Bool) :
    Disk :=
  applyWrites v d (surviving flushed (ws.take done))

end CoreZ.Proofs.Fs.Ext4
