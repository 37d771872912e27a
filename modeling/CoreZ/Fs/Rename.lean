import CoreZ.Fs.Ext4.Lookup

/-!
# `CoreZ.Fs.Rename`: `fs_rename_path`

The model of `fs_rename_path` in `kernel/fs/fs.c`, with `split_parent_path` and
`get_parent_inode`, over the file tree that the lookups read.

A directory is the list of its entries in the order in which they are found.
`fs_add_entry_dt` puts an entry at some place of it and `fs_remove_entry` takes
the first entry of a name out: that is what the block functions do
(`CoreZ.Proofs.Fs.Ext4.DirMap`). Both refuse a name of 255 bytes and fail when
there is no page. What the machine decides in a call is in `RenameIo`.

The paths are those of the root file system; `/proc` has functions of its own.
-/

set_option autoImplicit false

namespace CoreZ.Fs

open CoreZ.Fs.Ext4

/-- The file tree, and the inodes that `fs_free_inode` was called for. -/
structure FsState where
  tree : FileTree
  freed : List Nat

/-- What the machine decides in one call, in the order of the source. -/
structure RenameIo where
  /-- `fs_cwd_abs_prefix` -/
  cwd : Option (List UInt8)
  /-- `fs_check_perm(.., 2)` -/
  perm : Nat → Bool
  /-- the two `fs_read_inode` before an existing entry is removed -/
  readTarget : Bool
  /-- the page of `fs_remove_entry` for the existing entry -/
  removeTarget : Bool
  /-- what `ext4_read_target` gives for the inode that was freed -/
  targetAfter : Option (List UInt8)
  /-- `fs_read_inode(opino, &par)` -/
  readPar : Bool
  /-- the place where `fs_add_entry_dt` puts the entry, or its failure -/
  addAt : Option Nat
  /-- `fs_read_inode(opino, &par2)` -/
  readPar2 : Bool
  /-- the page of `fs_remove_entry` for the old entry -/
  removeOld : Bool

/-- `split_parent_path`: the path of the parent and the last component. -/
def splitParentPath (cwd : Option (List UInt8)) (path : List UInt8) :
    Option (List UInt8 × List UInt8) :=
  match ext4AbsPath cwd path maxPathLen with
  | none => none
  | some abs =>
    let parent := abs.take (stripLen abs abs.length)
    let base := (parent.reverse.takeWhile fun c => decide (c ≠ slash)).reverse
    let front := (parent.reverse.dropWhile fun c => decide (c ≠ slash)).reverse
    if front = [] then none
    else if base = [] then none
    else some (if front.length = 1 then [slash] else front.dropLast, base)

/-- `get_parent_inode`, with `none` for the result 0 -/
def getParentInode (t : FileTree) (cwd : Option (List UInt8)) (parent : List UInt8) : Option Nat :=
  match ext4Lookup t cwd parent with
  | some (pino, true) => if pino = 0 then none else some pino
  | _ => none

/-- The length check of `ext4_add_entry_impl` and `ext4_remove_entry_impl`. -/
def entryNameOk (name : List UInt8) : Bool :=
  decide (name.length ≠ 0 ∧ name.length < ext4DirentNameMax)

/-- `fs_remove_entry` -/
def fsRemoveEntry (page : Bool) (t : FileTree) (dir : Nat) (name : List UInt8) :
    Option FileTree :=
  if entryNameOk name = false ∨ page = false then none
  else if (t.find dir name).isNone then none
  else some { t with
    dirs := Function.update t.dirs dir
      ((t.dirs dir).eraseP fun de => decide (de.filename = name)) }

/-- `fs_add_entry_dt` -/
def fsAddEntryDt (place : Option Nat) (t : FileTree) (dir : Nat) (de : FsDirent) :
    Option FileTree :=
  if entryNameOk de.filename = false then none
  else place.map fun k => { t with
    dirs := Function.update t.dirs dir ((t.dirs dir).take k ++ de :: (t.dirs dir).drop k) }

/-- The type that the new entry gets: `dt` is one of three. -/
def renamedType : FileType → FileType
  | .directory => .directory
  | .symlink => .symlink
  | _ => .regular

/-- The part of `fs_rename_path` for a new path that exists already. -/
def replaceTarget (io : RenameIo) (s : FsState) (npino : Nat) (nbase : List UInt8) :
    Option (Nat × FileType) → Except Nat FsState
  | none => .ok s
  | some (exino, exft) =>
    if exft = .directory then .error 21
    else if io.readTarget = false ∨ s.tree.present npino = false ∨ s.tree.present exino = false then
      .error 5
    else if io.perm npino = false then .error 13
    else
      match fsRemoveEntry io.removeTarget s.tree npino nbase with
      | none => .error 5
      | some t => .ok
          { tree := { t with targets := Function.update t.targets exino io.targetAfter }
            freed := exino :: s.freed }

/-- The rest of `fs_rename_path`. The new entry goes into the directory of the
old one. -/
def moveEntry (io : RenameIo) (s : FsState) (opino npino oino : Nat) (oft : FileType)
    (obase nbase : List UInt8) : Option Nat × FsState :=
  if oft = .directory ∧ opino ≠ npino then (some 18, s)
  else if io.readPar = false ∨ s.tree.present opino = false then (some 5, s)
  else if io.perm opino = false then (some 13, s)
  else
    match fsAddEntryDt io.addAt s.tree opino ⟨nbase, oino, renamedType oft⟩ with
    | none => (some 5, s)
    | some t =>
      if io.readPar2 = false ∨ t.present opino = false then (some 5, { s with tree := t })
      else
        match fsRemoveEntry io.removeOld t opino obase with
        | none => (some 5, { s with tree := t })
        | some t' => (none, { s with tree := t' })

/-- `fs_rename_path` after its lookups: `target` is what the new path gave. -/
def renameFound (io : RenameIo) (s : FsState) (opino npino oino : Nat) (oft : FileType)
    (obase nbase : List UInt8) (target : Option (Nat × FileType)) : Option Nat × FsState :=
  match replaceTarget io s npino nbase target with
  | .error e => (some e, s)
  | .ok s' => moveEntry io s' opino npino oino oft obase nbase

/-- `fs_rename_path`: `none` for the result 0, or the `errno` of the result
-1. -/
def fsRenamePath (io : RenameIo) (s : FsState) (old new : List UInt8) : Option Nat × FsState :=
  match splitParentPath io.cwd old, splitParentPath io.cwd new with
  | some (opar, obase), some (npar, nbase) =>
    match getParentInode s.tree io.cwd opar, getParentInode s.tree io.cwd npar with
    | some opino, some npino =>
      match ext4LookupFtype s.tree io.cwd old false with
      | none => (some 2, s)
      | some (oino, oft) =>
        renameFound io s opino npino oino oft obase nbase
          (ext4LookupFtype s.tree io.cwd new false)
    | _, _ => (some 2, s)
  | _, _ => (some 22, s)

end CoreZ.Fs
