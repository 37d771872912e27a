import CoreZ.Fs.Ext4.Journal

/-!
# `CoreZ.Fs.Ext4.Dir`: directory blocks

The model of the directory functions of `kernel/fs/ext4.c`:
`ext4_add_entry_impl`, `ext4_remove_entry_impl`, `ext4_dir_next_impl` and
`ext4_find_in_dir`, down to the bytes of the blocks.

A record of a directory block is `struct EXT4_DIRENT`:

```
0  inode      u32      6  name_len   u8
4  rec_len    u16      7  file_type  u8
8  name       name_len bytes
```

The three walks over a block are the same loop with another test, so they are
one function here (`scanDir`), which says at which record the loop left.

The callers in `kernel/fs/fs.c` read the directory's inode before each call, so
a state holds the inode as it is stored; a call works on its own copy. What the
machine decides is in `DirIo`: whether the page is there, and which reads and
stores succeed. The extent tree is the map `blocks` that `ext_lookup` answers
from, and the checksum function is a parameter, since no directory function
reads a checksum.

`ext_insert` is seen from outside, as an `Insertion`. It does not look at what
its stores return, and it stores both halves of a node that it splits before it
has a block for the node above them. So it can fail after it has changed the
tree, and it can report success without having entered the block.

`fblk * bs` is computed in 32 bits as in the source.
-/

set_option autoImplicit false

namespace CoreZ.Fs.Ext4

open CoreZ.Lib

def ext4DirentNameMax : Nat := 255
def maxFileNameLen : Nat := 256
def ext4DtDir : UInt8 := 2
def ext4DtChr : UInt8 := 3
def ext4DtLnk : UInt8 := 7

/-- The file types of `FS_DIRENT`. -/
inductive FileType where
  | regular
  | directory
  | chardevice
  | symlink
  deriving DecidableEq, Repr

/-- What the directory functions read of the mounted volume. `dirCsum` is the
checksum of `dir_tail_fix` over the inode number, the generation and the
block. -/
structure DirVolume extends Volume where
  hasCsum : Bool
  dirCsum : Nat → Nat → Buf → Nat

/-- The fields of a directory's `FS_INODE` that are used here. -/
structure DirInode where
  iNo : Nat
  iGeneration : Nat
  iSize : Nat
  iLinksCount : Nat
  /-- The block of the volume that the extent tree has for a block of the
  directory. -/
  blocks : Nat → Option Nat

/-- A directory: its inode as it is stored, and the disk. -/
structure Dir where
  dino : DirInode
  disk : Disk

/-- What a call of `ext_insert` comes to. -/
structure Insertion where
  /-- it returns 0 -/
  ok : Bool
  /-- the tree as the inode in memory leads to it afterwards -/
  blocks : Nat → Option Nat
  /-- the tree as the inode leads to it that is still stored -/
  stored : Nat → Option Nat

/-- What the machine decides in one call. -/
structure DirIo where
  /-- `get_kernel_pages(1)` -/
  page : Bool
  /-- `ext_lookup` of a block has its page and reads the nodes of the tree -/
  lookupOk : Nat → Bool
  /-- `pbc_read` of a block -/
  readOk : Nat → Bool
  /-- `ext4_store_block` -/
  storeOk : Bool
  /-- `ext4_alloc_block` -/
  pick : Option Nat
  /-- `ext_insert` of the block that was picked -/
  insert : Insertion
  /-- `ext4_write_inode_impl` -/
  inodeOk : Bool

/-! ### Records -/

variable (b : Buf)

def direntInode (o : Nat) : Nat := le32 b o

def direntRecLen (o : Nat) : Nat := le16 b (o + 4)

def direntNameLen (o : Nat) : Nat := (b (o + 6)).toNat

def direntFileType (o : Nat) : UInt8 := b (o + 7)

def direntName (o : Nat) : List UInt8 :=
  (List.range (direntNameLen b o)).map fun i => b (o + 8 + i)

/-- The bytes of a list, followed by zeros. -/
def bytesOf (l : List UInt8) : Buf := fun i => l.getD i 0

/-- The five stores that fill a record. -/
def putDirent (o ino recLen : Nat) (name : List UInt8) (dtype : UInt8) : Buf :=
  let b := putLe32 b o ino
  let b := putLe16 b (o + 4) recLen
  let b := blit b (o + 6) 1 fun _ => UInt8.ofNat name.length
  let b := blit b (o + 7) 1 fun _ => dtype
  blit b (o + 8) name.length (bytesOf name)

/-- The length of a record that just holds a name of `nl` bytes:
`(8 + nl + 3) & ~3`. -/
def recordNeed (nl : Nat) : Nat := (8 + nl + 3) / 4 * 4

variable (v : DirVolume)

def dirLimit : Nat := if v.hasCsum then v.bs - 12 else v.bs

/-- `dir_tail_fix`: the last twelve bytes of the block. -/
def dirTailFix (d : DirInode) (b : Buf) : Buf :=
  if v.hasCsum then
    let t := puts b [⟨v.bs - 12, 4, 0⟩, ⟨v.bs - 8, 2, 12⟩, ⟨v.bs - 6, 1, 0⟩, ⟨v.bs - 5, 1, 0xDE⟩]
    putLe32 t (v.bs - 4) (v.dirCsum d.iNo d.iGeneration t)
  else b

/-- Where a walk over a block ends. -/
inductive DirScan where
  /-- at a record that meets the test -/
  | hit (off : Nat)
  /-- at a record whose length is not possible -/
  | broken (off : Nat)
  /-- at the end of the block -/
  | stop
  deriving DecidableEq, Repr

/-- The loop `while (off < limit)`. A record is at least eight bytes long, so
`limit` steps are enough. -/
def scanDir (b : Buf) (limit : Nat) (test : Nat → Bool) : (fuel off : Nat) → DirScan
  | 0, _ => .stop
  | fuel + 1, off =>
    if off < limit then
      let rl := direntRecLen b off
      if rl < 8 ∨ off + rl > limit then .broken off
      else if test off then .hit off
      else scanDir b limit test fuel (off + rl)
    else .stop

variable (io : DirIo)

/-- `ext_lookup` -/
def extLookup (d : DirInode) (fblk : Nat) : Option Nat :=
  if io.lookupOk fblk then d.blocks fblk else none

/-- The page a block is read into: it is zeroed first, and the result of
`ext4_read_block` is not looked at. -/
def readDirBlock (disk : Disk) (addr : Nat) : Buf :=
  if io.readOk addr then ext4DiskRead v.toVolume disk addr else fun _ => 0

/-- `ext4_store_block`, whose result is not looked at. -/
def storeDirBlock (disk : Disk) (addr : Nat) (b : Buf) : Disk :=
  if io.storeOk then IoWrite.apply v.toVolume disk (.cached addr b) else disk

/-- `ext4_write_inode_impl`, whose result is not looked at: what the next call
reads. -/
def storeInode (old new : DirInode) : DirInode := if io.inodeOk then new else old

def isDots (name : List UInt8) : Bool := decide (name = [46] ∨ name = [46, 46])

/-- `dino_link_inc` -/
def dinoLinkInc (d : DirInode) (dtype : UInt8) (name : List UInt8) : DirInode :=
  if dtype = ext4DtDir ∧ isDots name = false then { d with iLinksCount := d.iLinksCount + 1 } else d

/-- The end of `ext4_remove_entry_impl`. -/
def dinoLinkDec (d : DirInode) (dtype : UInt8) (name : List UInt8) : DirInode :=
  if dtype = ext4DtDir ∧ isDots name = false ∧ 0 < d.iLinksCount then
    { d with iLinksCount := d.iLinksCount - 1 }
  else d

/-- `fblk * bs < dino->i_size` -/
def insideDir (d : DirInode) (fblk : Nat) : Bool :=
  decide (fblk * v.bs % 4294967296 < d.iSize)

/-! ### `ext4_add_entry_impl` -/

/-- The test of the walk in `ext4_add_entry_impl`: a free record that is long
enough, or a record in use with enough room behind its name. -/
def hasRoom (need off : Nat) : Bool :=
  let rl := direntRecLen b off
  if direntInode b off = 0 then decide (need ≤ rl)
  else
    let used := recordNeed (direntNameLen b off)
    decide (used < rl ∧ need ≤ rl - used)

/-- The stores at a record that has room. -/
def placeEntry (off ino : Nat) (name : List UInt8) (dtype : UInt8) : Buf :=
  let rl := direntRecLen b off
  if direntInode b off = 0 then putDirent b off ino rl name dtype
  else
    let used := recordNeed (direntNameLen b off)
    putDirent (putLe16 b (off + 4) used) (off + used) ino (rl - used) name dtype

/-- One block of the loop: the block with the entry in it, or `none` when it
has no room. -/
def addToBlock (b : Buf) (ino : Nat) (name : List UInt8) (dtype : UInt8) : Option Buf :=
  let need := recordNeed name.length
  let limit := dirLimit v
  match scanDir b limit (hasRoom b need) limit 0 with
  | .hit off => some (placeEntry b off ino name dtype)
  | .broken off =>
    if need ≤ limit - off then some (putDirent b off ino (limit - off) name dtype) else none
  | .stop => none

/-- The loop over the blocks: the disk with the entry in it. -/
def addToBlocks (v : DirVolume) (io : DirIo) (s : Dir) (ino : Nat) (name : List UInt8)
    (dtype : UInt8) : (fuel fblk : Nat) → Option Disk
  | 0, _ => none
  | fuel + 1, fblk =>
    if insideDir v s.dino fblk then
      match extLookup io s.dino fblk with
      | none => none
      | some addr =>
        match addToBlock v (readDirBlock v io s.disk addr) ino name dtype with
        | some b => some (storeDirBlock v io s.disk addr (dirTailFix v s.dino b))
        | none => addToBlocks v io s ino name dtype fuel (fblk + 1)
    else none

/-- What `ext4_ensure_block` leaves: the block or `none` for the result -1, the
inode in memory, and the inode as it is stored. -/
structure Ensured where
  addr : Option Nat
  memory : DirInode
  stored : DirInode

/-- `ext4_ensure_block` -/
def ext4EnsureBlock (d : DirInode) (fblk : Nat) : Ensured :=
  match extLookup io d fblk with
  | some addr => ⟨some addr, d, d⟩
  | none =>
    match io.pick with
    | none => ⟨none, d, d⟩
    | some addr =>
      { addr := if io.insert.ok then some addr else none
        memory := { d with blocks := io.insert.blocks }
        stored := { d with blocks := io.insert.stored } }

/-- `ext4_add_entry_impl`; `true` stands for the result 0. -/
def ext4AddEntry (s : Dir) (ino : Nat) (name : List UInt8) (dtype : UInt8) : Bool × Dir :=
  if name.length = 0 ∨ name.length ≥ ext4DirentNameMax then (false, s)
  else if io.page = false then (false, s)
  else
    match addToBlocks v io s ino name dtype (s.dino.iSize / v.bs + 1) 0 with
    | some disk =>
      (true, { dino := storeInode io s.dino (dinoLinkInc s.dino dtype name), disk := disk })
    | none =>
      let e := ext4EnsureBlock io s.dino (s.dino.iSize / v.bs)
      match e.addr with
      | none => (false, { s with dino := e.stored })
      | some addr =>
        let b := putDirent (fun _ => 0) 0 ino (dirLimit v) name dtype
        let d := { e.memory with iSize := (e.memory.iSize + v.bs) % 4294967296 }
        (true, { dino := storeInode io e.stored (dinoLinkInc d dtype name),
                 disk := storeDirBlock v io s.disk addr (dirTailFix v e.memory b) })

/-! ### `ext4_remove_entry_impl` -/

/-- The test of the walk in `ext4_remove_entry_impl`. -/
def isEntry (name : List UInt8) (off : Nat) : Bool :=
  decide (direntInode b off ≠ 0 ∧ direntNameLen b off = name.length ∧ direntName b off = name)

/-- The stores at the record that is removed. -/
def clearEntry (off : Nat) : Buf := blit (putLe32 b off 0) (off + 6) 1 fun _ => 0

def removeFromBlocks (v : DirVolume) (io : DirIo) (s : Dir) (name : List UInt8) :
    (fuel fblk : Nat) → Option Dir
  | 0, _ => none
  | fuel + 1, fblk =>
    if insideDir v s.dino fblk then
      match extLookup io s.dino fblk with
      | none => none
      | some addr =>
        let b := readDirBlock v io s.disk addr
        match scanDir b (dirLimit v) (isEntry b name) (dirLimit v) 0 with
        | .hit off =>
          some { dino := storeInode io s.dino (dinoLinkDec s.dino (direntFileType b off) name),
                 disk := storeDirBlock v io s.disk addr (dirTailFix v s.dino (clearEntry b off)) }
        | _ => removeFromBlocks v io s name fuel (fblk + 1)
    else none

/-- `ext4_remove_entry_impl` -/
def ext4RemoveEntry (s : Dir) (name : List UInt8) : Bool × Dir :=
  if name.length = 0 ∨ name.length ≥ ext4DirentNameMax then (false, s)
  else if io.page = false then (false, s)
  else
    match removeFromBlocks v io s name (s.dino.iSize / v.bs + 1) 0 with
    | some s' => (true, s')
    | none => (false, s)

/-! ### `ext4_dir_next_impl` and `ext4_find_in_dir` -/

/-- `struct FS_DIRENT` -/
structure FsDirent where
  filename : List UInt8
  iNo : Nat
  fType : FileType
  deriving DecidableEq, Repr

def fileTypeOf (dtype : UInt8) : FileType :=
  if dtype = ext4DtDir then .directory
  else if dtype = ext4DtChr then .chardevice
  else if dtype = ext4DtLnk then .symlink
  else .regular

/-- The test of the walk in `ext4_dir_next_impl`; `base` is `fblk * bs`. -/
def isNext (base pos off : Nat) : Bool :=
  decide (direntInode b off ≠ 0 ∧ 0 < direntNameLen b off ∧
    direntNameLen b off ≤ ext4DirentNameMax ∧ pos ≤ base + off)

/-- The entry as it is returned. The name field of `FS_DIRENT` is a C string:
it ends at the first zero. -/
def fsDirentAt (off : Nat) : FsDirent :=
  { filename := ((direntName b off).take (maxFileNameLen - 1)).takeWhile (· ≠ 0)
    iNo := direntInode b off
    fType := fileTypeOf (direntFileType b off) }

/-- `ext4_dir_next_impl`: the next entry and the new position, or `none` for
the result -1. Each turn of the outer loop but the last goes to another block. -/
def ext4DirNext (v : DirVolume) (io : DirIo) (s : Dir) : (fuel pos : Nat) → Option (FsDirent × Nat)
  | 0, _ => none
  | fuel + 1, pos =>
    if pos < s.dino.iSize then
      let fblk := pos / v.bs
      let next := (fblk + 1) * v.bs % 4294967296
      match extLookup io s.dino fblk with
      | none => ext4DirNext v io s fuel next
      | some addr =>
        if io.page = false then none
        else
          let b := readDirBlock v io s.disk addr
          match scanDir b (dirLimit v) (isNext b (fblk * v.bs) pos) (dirLimit v) 0 with
          | .hit off => some (fsDirentAt b off,
            (fblk * v.bs + off + direntRecLen b off) % 4294967296)
          | _ => ext4DirNext v io s fuel next
    else none

/-- Enough turns for the outer loop of `ext4_dir_next_impl`. -/
def dirFuel (s : Dir) : Nat := s.dino.iSize / v.bs + 2

/-- `ext4_find_in_dir`: the loop over `ext4_dir_next_impl`. -/
def findInDirFrom (v : DirVolume) (io : DirIo) (s : Dir) (name : List UInt8) :
    (fuel pos : Nat) → Option FsDirent
  | 0, _ => none
  | fuel + 1, pos =>
    match ext4DirNext v io s (dirFuel v s) pos with
    | none => none
    | some (de, pos') =>
      if de.filename = name then some de else findInDirFrom v io s name fuel pos'

/-- `ext4_find_in_dir`. Each turn moves the position on by eight bytes or more. -/
def ext4FindInDir (s : Dir) (name : List UInt8) : Option FsDirent :=
  findInDirFrom v io s name (s.dino.iSize + 1) 0

/-- What a reader gets that calls `ext4_dir_next` until it fails, as
`fs_dir_is_empty` and the shell do. -/
def readDirFrom (v : DirVolume) (io : DirIo) (s : Dir) : (fuel pos : Nat) → List FsDirent
  | 0, _ => []
  | fuel + 1, pos =>
    match ext4DirNext v io s (dirFuel v s) pos with
    | none => []
    | some (de, pos') => de :: readDirFrom v io s fuel pos'

def readDir (s : Dir) : List FsDirent :=
  readDirFrom v io s (s.dino.iSize + 1) 0

end CoreZ.Fs.Ext4
