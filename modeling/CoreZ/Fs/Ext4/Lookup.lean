import CoreZ.Fs.Ext4.Dir

/-!
# `CoreZ.Fs.Ext4.Lookup`: from a path to an inode

The model of `ext4_lookup_depth` in `kernel/fs/ext4.c` and of its callers
`ext4_lookup` and `ext4_lookup_ftype`. `ext2_lookup_depth` in `kernel/fs/ext2.c`
is the same text over the functions of the other file system.

A path is the list of the bytes of a C string before its end. The string `cur`
of the source is held as two parts, the bytes before the component that is
looked at (`pre`) and the rest (`p`), so `cstart - cur` is the length of `pre`.

The file system is what the lookup asks it: the entries of a directory in the
order in which `ext4_find_in_dir` sees them, the text of a symbolic link, and
whether an inode can be read.
-/

set_option autoImplicit false

namespace CoreZ.Fs.Ext4

/-- `'/'` -/
def slash : UInt8 := 47

def maxPathLen : Nat := 512
def rootIno : Nat := 2

/-- What a lookup reads of the file system. -/
structure FileTree where
  /-- The entries of a directory. -/
  dirs : Nat → List FsDirent
  /-- `ext4_read_target`, with `none` for the result -1. -/
  targets : Nat → Option (List UInt8)
  /-- `ext4_read_inode_impl` succeeds. -/
  present : Nat → Bool

/-- `ext4_find_in_dir` -/
def FileTree.find (t : FileTree) (dir : Nat) (name : List UInt8) : Option FsDirent :=
  (t.dirs dir).find? fun de => decide (de.filename = name)

/-- The next component: up to a slash, and at most `MAX_FILE_NAME_LEN - 1`
bytes of it. -/
def nextComponent (p : List UInt8) : List UInt8 :=
  (p.takeWhile fun c => decide (c ≠ slash)).take (maxFileNameLen - 1)

/-- `while (plen > 1 && cur[plen - 1] == '/') plen--;` -/
def stripLen (cur : List UInt8) : Nat → Nat
  | 0 => 0
  | n + 1 => if n + 1 > 1 ∧ cur.getD n 0 = slash then stripLen cur n else n + 1

/-- The path that the lookup starts again with when it has met a symbolic link
behind `pre`: what follows the link in the old path is not copied. -/
def restartPath (pre tgt : List UInt8) : Option (List UInt8) :=
  let plen := if tgt.head? = some slash then 0 else stripLen pre pre.length
  if plen + tgt.length + 2 > maxPathLen then none
  else if plen > 1 ∨ (plen = 1 ∧ pre.getD 0 0 ≠ slash) then
    some (pre.take plen ++ slash :: tgt)
  else if plen = 0 then some (slash :: tgt)
  else some (pre.take plen ++ tgt)

/-- How the inner loop ends. -/
inductive Walk where
  /-- `return 0` with an inode and its type -/
  | done (ino : Nat) (ftype : FileType)
  /-- `return -1` -/
  | fail
  /-- `break`, with the new contents of `cur` -/
  | again (cur : List UInt8)
  deriving DecidableEq

/-- The inner loop of `ext4_lookup_depth`. Each turn takes a byte of `p` or
more. -/
def lookupWalk (t : FileTree) (follow : Bool) : (fuel : Nat) → (pre p : List UInt8) →
    (node : Nat) → Walk
  | 0, _, _, _ => .fail
  | fuel + 1, pre, p, node =>
    let comp := nextComponent p
    let p' := p.drop comp.length
    if comp = [] then .again (pre ++ p)
    else
      match t.find node comp with
      | none => .fail
      | some de =>
        if de.fType = .symlink then
          match (if follow then t.targets de.iNo else none) with
          | none => .done de.iNo .symlink
          | some tgt =>
            match restartPath pre tgt with
            | none => .fail
            | some np => .again np
        else
          let sep := p'.takeWhile fun c => decide (c = slash)
          let p'' := p'.dropWhile fun c => decide (c = slash)
          if p'' = [] then .done de.iNo de.fType
          else if de.fType ≠ .directory ∨ t.present de.iNo = false then .fail
          else lookupWalk t follow fuel (pre ++ comp ++ sep) p'' de.iNo

/-- The outer loop of `ext4_lookup_depth`. -/
def lookupLoop (t : FileTree) (follow : Bool) : (depth : Nat) → (cur : List UInt8) →
    Option (Nat × FileType)
  | 0, _ => none
  | depth + 1, cur =>
    let pre := cur.takeWhile fun c => decide (c = slash)
    let p := cur.dropWhile fun c => decide (c = slash)
    if p = [] then some (rootIno, .directory)
    else if t.present rootIno = false then none
    else
      match lookupWalk t follow p.length pre p rootIno with
      | .done ino ft => some (ino, ft)
      | .fail => none
      | .again cur' => lookupLoop t follow depth cur'

/-- `ext4_lookup_depth` -/
def ext4LookupDepth (t : FileTree) (path : List UInt8) (follow : Bool) (depth : Nat) :
    Option (Nat × FileType) :=
  if path.head? ≠ some slash then none
  else if path.length ≥ maxPathLen then none
  else lookupLoop t follow depth path

/-- `ext4_abs_path`; `cwd` is what `fs_cwd_abs_prefix` gives. -/
def ext4AbsPath (cwd : Option (List UInt8)) (path : List UInt8) (cap : Nat) :
    Option (List UInt8) :=
  if path = [] then none
  else if path.head? = some slash then (if path.length ≥ cap then none else some path)
  else
    match cwd with
    | none => none
    | some pre =>
      if pre.length + 1 + path.length ≥ cap then none
      else if pre = [] ∨ pre.getLast? ≠ some slash then some (pre ++ slash :: path)
      else some (pre ++ path)

/-- `ext4_lookup_ftype` -/
def ext4LookupFtype (t : FileTree) (cwd : Option (List UInt8)) (path : List UInt8)
    (follow : Bool) : Option (Nat × FileType) :=
  if path.head? ≠ some slash then
    match ext4AbsPath cwd path maxPathLen with
    | none => none
    | some full => ext4LookupDepth t full follow 8
  else ext4LookupDepth t path follow 8

/-- `ext4_lookup`, with `is_dir` -/
def ext4Lookup (t : FileTree) (cwd : Option (List UInt8)) (path : List UInt8) :
    Option (Nat × Bool) :=
  (ext4LookupFtype t cwd path true).map fun r => (r.1, decide (r.2 = .directory))

end CoreZ.Fs.Ext4
