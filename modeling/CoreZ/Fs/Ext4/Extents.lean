import CoreZ.Fs.Ext4.Journal

/-!
# `CoreZ.Fs.Ext4.Extents`: extent trees and the map of the journal

The model of `ext_lookup` and `ext4_journal_map_init` in `kernel/fs/ext4.c`.
A node is a leaf if its `eh_depth` is 0. `ext_lookup` has its page here, and
every node of the tree can be read.
-/

set_option autoImplicit false

namespace CoreZ.Fs.Ext4.Extents

/-- `struct EXT4_EXTENT`; `eeStart` is put together from its two halves. -/
structure Extent where
  eeBlock : Nat
  eeLen : Nat
  eeStart : Nat

/-- The file block is in the extent. A length above 32768 marks an extent that
was not written yet. -/
def Extent.holds (e : Extent) (fblk : Nat) : Bool :=
  let len := if 32768 < e.eeLen then e.eeLen - 32768 else e.eeLen
  e.eeBlock ≤ fblk ∧ fblk < (e.eeBlock + len) % 4294967296

/-- The block for a file block that counts from the start of the extent. -/
def Extent.phys (e : Extent) (fblk : Nat) : Nat := (e.eeStart + (fblk - e.eeBlock)) % 4294967296

mutual

inductive ExtNode where
  | leaf (extents : List Extent)
  | index (kids : ExtKids)

/-- The entries of an index node. -/
inductive ExtKids where
  | nil
  | cons (eiBlock : Nat) (node : ExtNode) (rest : ExtKids)

end

mutual

def extLookup (fblk : Nat) : ExtNode → Option Nat
  | .leaf es => (es.find? (Extent.holds · fblk)).map (Extent.phys · fblk)
  | .index kids => extLookupKids fblk none kids

/-- The last entry that does not start behind the block is followed. -/
def extLookupKids (fblk : Nat) (found : Option Nat) : ExtKids → Option Nat
  | .nil => found
  | .cons eiBlock node rest =>
    extLookupKids fblk (if eiBlock ≤ fblk then extLookup fblk node else found) rest

end

/-- The loop of `ext4_journal_map_init`, with room for `room` more extents. It
is left early at an extent that is empty or was not written. -/
def journalMapLoop : (room : Nat) → List Extent → Bool × List (Nat × Nat)
  | 0, _ | _, [] => (true, [])
  | room + 1, e :: es =>
    if e.eeLen = 0 ∨ 32768 < e.eeLen then (false, [])
    else
      let r := journalMapLoop room es
      (r.1, (e.eeBlock, e.eeStart) :: r.2)

/-- `ext4_journal_map_init`: the result, and `j_map_log` with `j_map_phys`. -/
def ext4JournalMapInit : ExtNode → Bool × List (Nat × Nat)
  | .index _ => (false, [])
  | .leaf es =>
    let r := journalMapLoop 2 es
    if r.1 = true ∧ (r.2.head?.map Prod.fst ≠ some 0) then (false, []) else r

end CoreZ.Fs.Ext4.Extents
