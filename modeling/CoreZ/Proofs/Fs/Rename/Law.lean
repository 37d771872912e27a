import CoreZ.Proofs.Fs.Rename.Entries

/-!
# `CoreZ.Proofs.Fs.Rename.Law`: what a rename does to the names

`RenameLaw` says what a rename has to do: after success the new path gives the
inode, the old one is gone and every other path is as before; after a failure
all paths are as before and nothing was freed; and a path renamed to itself
changes nothing.

It holds for two names in one directory, and for every call that is refused
before it changes anything (`rename_law`). `fs_rename_path` puts
the new entry into the directory of the old one, removes an existing target
before it makes its last checks, and does not look whether the two paths name
the same entry (`rename_breaks_law`).
-/

set_option autoImplicit false

namespace CoreZ.Fs

open CoreZ.Lib CoreZ.Fs.Ext4
open Function
open List

/-! ### The law -/

/-- The entry that a path names: the directory of its parent, and its last
component. -/
def entryOf (t : FileTree) (cwd : Option (List UInt8)) (path : List UInt8) :
    Option (Nat × List UInt8) :=
  (splitParentPath cwd path).bind fun pb =>
    (getParentInode t cwd pb.1).map fun d => (d, pb.2)

/-- Every path resolves as before, and nothing was freed. -/
structure Unchanged (s s' : FsState) : Prop where
  resolves : ∀ path follow, ext4LookupDepth s'.tree path follow 8 =
    ext4LookupDepth s.tree path follow 8
  freed : s'.freed = s.freed

/-- What a rename has to do. -/
structure RenameLaw (io : RenameIo) (s : FsState) (old new : List UInt8)
    (out : Option Nat × FsState) : Prop where
  moved : out.1 = none → ∃ ino ft ft',
    ext4LookupFtype s.tree io.cwd old false = some (ino, ft) ∧
      ext4LookupFtype out.2.tree io.cwd new false = some (ino, ft')
  gone : out.1 = none → entryOf s.tree io.cwd old ≠ entryOf s.tree io.cwd new →
    ext4LookupFtype out.2.tree io.cwd old false = none
  others : out.1 = none → ∀ path follow,
    (∀ e ∈ lookupVisits s.tree follow 8 path,
      entryOf s.tree io.cwd old ≠ some e ∧ entryOf s.tree io.cwd new ≠ some e) →
    ext4LookupDepth out.2.tree path follow 8 = ext4LookupDepth s.tree path follow 8
  self : old = new → Unchanged s out.2
  failed : out.1 ≠ none → Unchanged s out.2

theorem RenameLaw.of_failed {io : RenameIo} {s : FsState} {old new : List UInt8} {e : Nat}
    {out : Option Nat × FsState} (hout : out = (some e, s)) : RenameLaw io s old new out := by
  subst hout
  have hsame : Unchanged s s := ⟨fun _ _ => rfl, rfl⟩
  have hne : some e ≠ none := Option.some_ne_none e
  exact ⟨fun h => absurd h hne, fun h => absurd h hne, fun h => absurd h hne, fun _ => hsame,
    fun _ => hsame⟩

/-! ### The condition -/

/-- A file tree: no name stands twice in a directory, and only a directory has
more than one entry. -/
structure GoodTree (t : FileTree) : Prop where
  names : NamesDistinct t
  once : ∀ d b ex, t.find d b = some ex → ex.fType ≠ .directory →
    ∀ x c de, t.find x c = some de → de.iNo = ex.iNo → x = d ∧ c = b

/-- The entries that the components ask for, through directories. -/
def passed (t : FileTree) : Nat → List (List UInt8) → List (Nat × List UInt8)
  | _, [] => []
  | dir, c :: cs => (dir, c) :: ((t.find dir c).elim [] fun de => passed t de.iNo cs)

/-- The path names the entry `b` of the directory `d`, and its other components
`cs` lead there through directories. -/
def Names (t : FileTree) (cwd : Option (List UInt8)) (path : List UInt8)
    (cs : List (List UInt8)) (d : Nat) (b : List UInt8) : Prop :=
  ∃ full, fullPath cwd path = some full ∧ components full = cs ++ [b] ∧ Reaches t rootIno cs d

/-- Two names in one directory, where nothing stops the call once it has
changed something. -/
structure SameDir (io : RenameIo) (t : FileTree) (cs : List (List UInt8)) (d d' : Nat)
    (ob nb : List UInt8) : Prop where
  dir : d = d'
  apart : ob ≠ nb
  short : ob.length < 255
  /-- The new path does not lead through the old one. -/
  beside : (d, ob) ∉ passed t rootIno cs
  readAgain : io.readPar2 = true
  removeOld : io.removeOld = true
  replace : t.find d nb ≠ none → io.readPar = true ∧ io.addAt ≠ none

/-- The tests that `fs_rename_path` makes before its first change, one of which
ends the call: with a target, those up to the removal of its entry, and else
those up to the new entry. `oft` is the type of what the old path gave. -/
def StopsAt (io : RenameIo) (t : FileTree) (d d' : Nat) (oft : FileType) (nb : List UInt8) :
    Option (Nat × FileType) → Prop
  | some (exino, exft) => exft = .directory ∨
      (io.readTarget = false ∨ t.present d' = false ∨ t.present exino = false) ∨
      io.perm d' = false ∨ entryNameOk nb = false ∨ io.removeTarget = false ∨ t.find d' nb = none
  | none => (oft = .directory ∧ d ≠ d') ∨ (io.readPar = false ∨ t.present d = false) ∨
      io.perm d = false ∨ entryNameOk nb = false ∨ io.addAt = none

/-- The call is refused before it changes anything. A path that names no entry
and an old path that gives nothing end it too. -/
def Stops (io : RenameIo) (t : FileTree) (old new : List UInt8) : Prop :=
  ∀ d ob d' nb oino oft, entryOf t io.cwd old = some (d, ob) →
    entryOf t io.cwd new = some (d', nb) →
    ext4LookupFtype t io.cwd old false = some (oino, oft) →
    StopsAt io t d d' oft nb (ext4LookupFtype t io.cwd new false)

/-- The condition on the tree, the paths and the call when it is not refused. -/
structure RenameCondition (io : RenameIo) (t : FileTree) (old new : List UInt8) : Prop where
  cwd : ∀ pre, io.cwd = some pre → pre.head? = some slash
  /-- The paths have no link before the last component. -/
  plain : ∀ path full, path = old ∨ path = new → fullPath io.cwd path = some full →
    (∀ c ∈ components full, c.length ≤ 255) ∧ Straight t rootIno (components full)
  /-- An existing entry is renamed inside its directory. -/
  entries : ∀ cs cs' d d' ob nb de, Names t io.cwd old cs d ob → Names t io.cwd new cs' d' nb →
    t.find d ob = some de → SameDir io t cs' d d' ob nb

/-! ### The trees before and after -/

/-- `t'` is `t` with the entry `ob` of `d` moved to `nb`. -/
structure Moved (t t' : FileTree) (d : Nat) (ob nb : List UInt8) (ino : Nat) : Prop where
  old : t'.find d ob = none
  new : ∃ ft, t'.find d nb = some ⟨nb, ino, ft⟩
  other : ∀ x c, (x, c) ≠ (d, ob) → (x, c) ≠ (d, nb) → t'.find x c = t.find x c
  present : t'.present = t.present
  targets : ∀ i, (∀ ex, t.find d nb = some ex → i ≠ ex.iNo) → t'.targets i = t.targets i

section Moved

variable {t t' : FileTree} {d ino : Nat} {ob nb : List UInt8}

section

variable (hm : Moved t t' d ob nb ino) (hfile : ∀ ex, t.find d nb = some ex → ex.fType ≠ .directory)

include hm hfile

/-- Directories are still reached when the way does not lead through the moved
entries. -/
theorem Moved.reaches {x : Nat} :
    ∀ {cs : List (List UInt8)} {dir : Nat}, Reaches t dir cs x → (d, ob) ∉ passed t dir cs →
      Reaches t' dir cs x := by
  intro cs
  induction cs with
  | nil => intro dir h _; exact h
  | cons c cs ih =>
    rintro dir ⟨hpresent, de, hde, hdir, hrest⟩ hnot
    rw [passed, hde, Option.elim_some, mem_cons, not_or] at hnot
    have hnew : (dir, c) ≠ (d, nb) := by
      rintro heq
      cases heq
      exact hfile de hde hdir
    refine ⟨by rw [hm.present]; exact hpresent, de, ?_, hdir, ih hrest hnot.2⟩
    rw [hm.other dir c (fun h => hnot.1 h.symm) hnew]
    exact hde

/-- The old path leads nowhere. -/
theorem Moved.resolve_old (expand : Nat → List (List UInt8) → Option (Nat × FileType)) :
    ∀ {cs : List (List UInt8)} {dir : Nat}, Reaches t dir cs d →
      Straight t' dir (cs ++ [ob]) ∧ resolveWith t' false expand dir (cs ++ [ob]) = none := by
  intro cs
  induction cs with
  | nil =>
    rintro dir rfl
    refine ⟨fun hne => absurd rfl hne, ?_⟩
    rw [nil_append, resolveWith, hm.old]
    split <;> rfl
  | cons c cs ih =>
    rintro dir ⟨hpresent, de, hde, hdir, hrest⟩
    have hnew : (dir, c) ≠ (d, nb) := by
      rintro heq
      cases heq
      exact hfile de hde hdir
    by_cases hold : (dir, c) = (d, ob)
    · -- The way leads through the entry that is gone.
      cases hold
      refine ⟨fun _ de' hde' => ?_, ?_⟩
      · rw [hm.old] at hde'
        cases hde'
      · rw [cons_append, resolveWith, hm.old]
        split <;> rfl
    · have hfind : t'.find dir c = some de := (hm.other dir c hold hnew).trans hde
      obtain ⟨hstraight, hnone⟩ := ih hrest
      refine ⟨fun _ de' hde' => ?_, ?_⟩
      · rw [hfind] at hde'
        cases hde'
        exact ⟨by rw [hdir]; decide, fun _ => hstraight⟩
      · rw [cons_append, resolveWith, if_neg (by simp [hm.present, hpresent]), hfind]
        simp [hdir, hnone]

end

/-- Entries other than the two answer alike. -/
theorem Moved.sameAt (hm : Moved t t' d ob nb ino) (hgood : GoodTree t)
    (hfile : ∀ ex, t.find d nb = some ex → ex.fType ≠ .directory) {e : Nat × List UInt8}
    (hold : e ≠ (d, ob)) (hnew : e ≠ (d, nb)) : SameAt t t' e := by
  refine ⟨hm.other e.1 e.2 hold hnew, fun de hde => hm.targets de.iNo fun ex hex heq => ?_⟩
  obtain ⟨hx, hc⟩ := hgood.once d nb ex hex (hfile ex hex) e.1 e.2 de hde heq
  exact hnew (Prod.ext hx hc)

end Moved

/-! ### The steps of the call -/

variable {de : FsDirent} {cs' cs : List (List UInt8)} {d : Nat} {b : List UInt8}

section Steps

variable (io : RenameIo) (s : FsState) {d : Nat} (ino : Nat) {ob nb : List UInt8} (oft : FileType)

/-- The second half of the call, for two names of one directory: it stops
before it changes anything, or it moves the entry. -/
theorem moveEntry_cases (hnames : NamesDistinct s.tree) (hob : s.tree.find d ob = some de)
    (hnb : s.tree.find d nb = none) (hok : entryNameOk ob = true) (hagain : io.readPar2 = true)
    (hremove : io.removeOld = true) :
    (∃ e, moveEntry io s d d ino oft ob nb = (some e, s) ∧
      (io.readPar = false ∨ s.tree.present d = false ∨ io.perm d = false ∨ io.addAt = none ∨
        entryNameOk nb = false)) ∨
    ∃ t', moveEntry io s d d ino oft ob nb = (none, { s with tree := t' }) ∧
      Moved s.tree t' d ob nb ino := by
  unfold moveEntry
  rw [if_neg (by simp)]
  by_cases hread : io.readPar = false ∨ s.tree.present d = false
  · rw [if_pos hread]
    exact .inl ⟨5, rfl, by tauto⟩
  rw [if_neg hread]
  obtain ⟨-, hpresent⟩ := not_or.mp hread
  split
  · exact .inl ⟨13, rfl, by tauto⟩
  cases hadd : fsAddEntryDt io.addAt s.tree d ⟨nb, ino, renamedType oft⟩ with
  | none =>
    refine .inl ⟨5, rfl, ?_⟩
    unfold fsAddEntryDt at hadd
    split at hadd
    · next hbad => exact .inr (.inr (.inr (.inr hbad)))
    · rw [Option.map_eq_none_iff] at hadd
      exact .inr (.inr (.inr (.inl hadd)))
  | some t =>
    right
    have hedit := edited_of_add hnames hnb hadd
    have hne : (d, ob) ≠ (d, nb) := by
      rintro heq
      cases heq
      rw [hnb] at hob
      cases hob
    -- the new name is another one, so that the old entry is still there to be removed
    have hstill : t.find d ob = some de := (hedit.other d ob hne).trans hob
    have hpres : ¬ (io.readPar2 = false ∨ t.present d = false) := by
      rw [hedit.present, hagain]
      simpa using hpresent
    dsimp only
    rw [if_neg hpres]
    cases hrem : fsRemoveEntry io.removeOld t d ob with
    | none =>
      unfold fsRemoveEntry at hrem
      simp [hok, hremove, hstill] at hrem
    | some t' =>
      have hedit' := edited_of_remove hedit.names hrem
      refine ⟨t', rfl, hedit'.here, ⟨renamedType oft, ?_⟩, fun x c ho hn => ?_, ?_, fun i _ => ?_⟩
      · rw [hedit'.other d nb (Ne.symm hne)]
        exact hedit.here
      · rw [hedit'.other x c ho, hedit.other x c hn]
      · rw [hedit'.present, hedit.present]
      · rw [hedit'.targets, hedit.targets]

/-- Removing an existing target: an error that changes nothing, or the entry is
out and its inode is freed. -/
theorem replaceTarget_cases (d : Nat) (nb : List UInt8) (ex : FsDirent)
    (hnames : NamesDistinct s.tree) :
    (∃ e, replaceTarget io s d nb (some (ex.iNo, ex.fType)) = .error e) ∨
    ∃ t, replaceTarget io s d nb (some (ex.iNo, ex.fType)) = .ok
        { tree := { t with targets := update t.targets ex.iNo io.targetAfter }
          freed := ex.iNo :: s.freed } ∧
      Edited s.tree t d nb none ∧ ex.fType ≠ .directory ∧ io.perm d = true ∧
      entryNameOk nb = true := by
  unfold replaceTarget
  dsimp only
  split
  · exact .inl ⟨21, rfl⟩
  next hdir =>
  split
  · exact .inl ⟨5, rfl⟩
  split
  · exact .inl ⟨13, rfl⟩
  next hperm =>
  cases hrem : fsRemoveEntry io.removeTarget s.tree d nb with
  | none => exact .inl ⟨5, rfl⟩
  | some t =>
    refine .inr ⟨t, rfl, edited_of_remove hnames hrem, hdir, by simpa using hperm, ?_⟩
    unfold fsRemoveEntry at hrem
    split at hrem
    · cases hrem
    · next hbad => simpa using (not_or.mp hbad).1

/-- The whole change, for two names of one directory. -/
theorem renameFound_cases (hgood : GoodTree s.tree) (hpresent : s.tree.present d = true)
    (hob : s.tree.find d ob = some de) (hobne : ob ≠ []) (hsame : SameDir io s.tree cs' d d ob nb)
    {out : Option Nat × FsState}
    (hout : renameFound io s d d ino oft ob nb
      ((s.tree.find d nb).map fun ex => (ex.iNo, ex.fType)) = out) :
    (∃ e, out = (some e, s)) ∨
    ∃ s', out = (none, s') ∧ Moved s.tree s'.tree d ob nb ino ∧
      ∀ ex, s.tree.find d nb = some ex → ex.fType ≠ .directory := by
  have hok : entryNameOk ob = true := by
    exact decide_eq_true ⟨fun h => hobne (length_eq_zero_iff.mp h), hsame.short⟩
  subst hout
  unfold renameFound
  cases hnb : s.tree.find d nb with
  | none =>
    obtain ⟨e, hmove, -⟩ | ⟨t', hmove, hmoved⟩ :=
      moveEntry_cases io s ino oft hgood.names hob hnb hok hsame.readAgain hsame.removeOld
    · exact .inl ⟨e, hmove⟩
    · exact .inr ⟨_, hmove, hmoved, fun ex hex => by cases hex⟩
  | some ex =>
    -- The target is removed first; from there on nothing stops the call.
    rw [Option.map_some]
    obtain ⟨e, herr⟩ | ⟨t, hrep, hedit, hdir, hperm, hnbok⟩ :=
      replaceTarget_cases io s d nb ex hgood.names
    · rw [herr]
      exact .inl ⟨e, rfl⟩
    rw [hrep]
    obtain ⟨s₁, hs₁⟩ : ∃ s₁ : FsState, s₁ = ⟨{ t with
        targets := update t.targets ex.iNo io.targetAfter }, ex.iNo :: s.freed⟩ := ⟨_, rfl⟩
    have hfind : ∀ x c, s₁.tree.find x c = t.find x c := fun x c => by rw [hs₁]; rfl
    have hpres₁ : s₁.tree.present = s.tree.present := by rw [hs₁]; exact hedit.present
    have hnames₁ : NamesDistinct s₁.tree := by rw [hs₁]; exact hedit.names
    obtain ⟨hread, hadd⟩ := hsame.replace (by rw [hnb]; exact Option.some_ne_none ex)
    have hne : (d, ob) ≠ (d, nb) := fun h => hsame.apart (Prod.mk.inj h).2
    have hob₁ : s₁.tree.find d ob = some de := by rw [hfind, hedit.other d ob hne, hob]
    have hnb₁ : s₁.tree.find d nb = none := by rw [hfind, hedit.here]
    rw [← hs₁]
    obtain ⟨e, -, hstop⟩ | ⟨t', hmove, hmoved⟩ :=
      moveEntry_cases io s₁ ino oft hnames₁ hob₁ hnb₁ hok hsame.readAgain hsame.removeOld
    · rw [hpres₁, hread, hpresent, hperm, hnbok] at hstop
      simp [hadd] at hstop
    refine .inr ⟨_, hmove, ⟨hmoved.old, hmoved.new, fun x c ho hn => ?_, ?_, fun i hi => ?_⟩, ?_⟩
    · rw [hmoved.other x c ho hn, hfind, hedit.other x c hn]
    · rw [hmoved.present, hpres₁]
    · have hi := hi ex hnb
      have hkept : t'.targets i = s₁.tree.targets i := hmoved.targets i fun ex' hex' =>
        absurd (hnb₁.symm.trans hex') (Option.some_ne_none ex').symm
      rw [hkept, hs₁]
      show update t.targets ex.iNo io.targetAfter i = _
      rw [update_of_ne hi, hedit.targets]
    · intro ex' hex'
      cases hex'
      exact hdir

end Steps

/-! ### The two paths -/

/-- A path that names the entry `b` of the directory `d`. -/
structure PlainPath (t : FileTree) (cwd : Option (List UInt8)) (path full : List UInt8)
    (cs : List (List UInt8)) (d : Nat) (b : List UInt8) : Prop where
  abs : ext4AbsPath cwd path maxPathLen = some full
  head : full.head? = some slash
  len : full.length < maxPathLen
  comps : components full = cs ++ [b]
  short : ∀ c ∈ components full, c.length ≤ 255
  reaches : Reaches t rootIno cs d
  full_eq : fullPath cwd path = some full
  entry : entryOf t cwd path = some (d, b)

section Paths

variable {t : FileTree} {cwd : Option (List UInt8)} {path full : List UInt8}

/-- The full path that `ext4_abs_path` makes. -/
theorem ext4AbsPath_some (hcwd : ∀ pre, cwd = some pre → pre.head? = some slash)
    (habs : ext4AbsPath cwd path maxPathLen = some full) :
    fullPath cwd path = some full ∧ full.head? = some slash ∧ full.length < maxPathLen := by
  unfold ext4AbsPath at habs
  split at habs
  · cases habs
  split at habs
  · next hhead =>
      split at habs
      · cases habs
      next hlen =>
        cases habs
        exact ⟨if_pos hhead, hhead, not_le.mp hlen⟩
  · next hrel =>
      cases cwd with
      | none => cases habs
      | some pre =>
        have hpre := hcwd pre rfl
        dsimp only at habs
        split at habs
        · cases habs
        next hlen =>
        -- a relative path: the working directory is put in front of it
        have hhead : ∀ l : List UInt8, (pre ++ l).head? = some slash := fun l => by
          rw [head?_append, hpre]
          rfl
        rw [fullPath, if_neg hrel, Option.map_some]
        split at habs
        · next hlast =>
            cases habs
            have hnot : pre.getLast? ≠ some slash := by
              rcases hlast with rfl | h
              · cases hpre
              · exact h
            rw [if_neg hnot]
            refine ⟨rfl, hhead _, ?_⟩
            rw [length_append, length_cons]
            omega
        · next hlast =>
            cases habs
            rw [if_pos (not_not.mp (not_or.mp hlast).2)]
            refine ⟨rfl, hhead _, ?_⟩
            rw [length_append]
            omega

/-- A path under the condition names an entry, or the call is refused. -/
theorem plainPath_cases (hcwd : ∀ pre, cwd = some pre → pre.head? = some slash)
    (hplain : ∀ full, fullPath cwd path = some full →
      (∀ c ∈ components full, c.length ≤ 255) ∧ Straight t rootIno (components full)) :
    entryOf t cwd path = none ∨ ∃ full cs d b, PlainPath t cwd path full cs d b := by
  cases habs : ext4AbsPath cwd path maxPathLen with
  | none =>
    left
    rw [entryOf, splitParentPath, habs]
    rfl
  | some full =>
    obtain ⟨hfull, hhead, hlen⟩ := ext4AbsPath_some hcwd habs
    obtain ⟨hshort, hstraight⟩ := hplain full hfull
    rcases eq_nil_or_concat (components full) with hnil | ⟨cs, b, hcs⟩
    · left
      rw [entryOf, splitParentPath_root habs hhead hnil]
      rfl
    rw [concat_eq_append] at hcs
    obtain ⟨parent, hsplit, hphead, hpcs, hplen⟩ := splitParentPath_eq habs hhead hcs
    have hparent : ∀ d, getParentInode t cwd parent = some d ↔
        Reaches t rootIno cs d ∧ d ≠ 0 := fun d =>
      getParentInode_iff hphead (by omega) hpcs
        (fun c hc => hshort c (by rw [hcs]; exact mem_append_left _ hc)) (hcs ▸ hstraight)
    cases hp : getParentInode t cwd parent with
    | none =>
      left
      rw [entryOf, hsplit, Option.bind_some, hp]
      rfl
    | some d =>
      refine .inr ⟨full, cs, d, b, habs, hhead, hlen, hcs, hshort, ((hparent d).mp hp).1, hfull, ?_⟩
      rw [entryOf, hsplit, Option.bind_some, hp]
      rfl

/-- The lookup of a named entry, in any tree in which the directory is still
reached. -/
theorem PlainPath.lookup (h : PlainPath t cwd path full cs d b) {t' : FileTree}
    (hreach : Reaches t' rootIno cs d) :
    ext4LookupFtype t' cwd path false
      = if t'.present d = false then none else (t'.find d b).map fun de => (de.iNo, de.fType) := by
  rw [ext4LookupFtype_full h.abs]
  exact lookup_of_reaches h.head h.len h.comps h.short hreach

end Paths

/-! ### A small file tree -/

/-- `/a` is a file, `/e` and `/f` are directories, and `/f/x` is a file. -/
def fewFiles : FsState where
  tree := {
    dirs := fun ino =>
      if ino = 2 then [⟨[97], 11, .regular⟩, ⟨[101], 13, .directory⟩, ⟨[102], 14, .directory⟩]
      else if ino = 14 then [⟨[120], 15, .regular⟩]
      else []
    targets := fun _ => none
    present := fun _ => true }
  freed := []

/-- Nothing fails, and a new entry comes last. -/
def smoothIo : RenameIo where
  cwd := none
  perm := fun _ => true
  readTarget := true
  removeTarget := true
  targetAfter := none
  readPar := true
  addAt := some 3
  readPar2 := true
  removeOld := true

/-- The entries of the tree. -/
theorem find_fewFiles (h : fewFiles.tree.find d b = some de) :
    (d, b, de) = (2, [97], ⟨[97], 11, .regular⟩) ∨
      (d, b, de) = (2, [101], ⟨[101], 13, .directory⟩) ∨
      (d, b, de) = (2, [102], ⟨[102], 14, .directory⟩) ∨
      (d, b, de) = (14, [120], ⟨[120], 15, .regular⟩) := by
  have hname : de.filename = b := by simpa using find?_some h
  have hmem : de ∈ fewFiles.tree.dirs d := mem_of_find?_eq_some h
  subst hname
  by_cases hroot : d = 2
  · subst hroot
    simp only [fewFiles, if_true, mem_cons, not_mem_nil, or_false] at hmem
    rcases hmem with rfl | rfl | rfl <;> simp
  by_cases hsub : d = 14
  · subst hsub
    obtain rfl : de = ⟨[120], 15, .regular⟩ := mem_singleton.mp hmem
    simp
  · simp [fewFiles, hroot, hsub] at hmem

theorem fewFiles_good : GoodTree fewFiles.tree := by
  refine ⟨fun dir => ?_, fun d b ex hex _ x c de hde heq => ?_⟩
  · simp only [fewFiles]
    split
    · decide
    split
    · decide
    · exact nodup_nil
  · have h₁ := find_fewFiles hex
    have h₂ := find_fewFiles hde
    rcases h₁ with ⟨rfl, rfl, rfl⟩ | ⟨rfl, rfl, rfl⟩ | ⟨rfl, rfl, rfl⟩ | ⟨rfl, rfl, rfl⟩ <;>
      rcases h₂ with ⟨rfl, rfl, rfl⟩ | ⟨rfl, rfl, rfl⟩ | ⟨rfl, rfl, rfl⟩ | ⟨rfl, rfl, rfl⟩ <;>
      first | exact ⟨rfl, rfl⟩ | exact absurd heq (by decide)

/-! ### The law holds under the condition -/

section Main

variable {io : RenameIo} {s : FsState} {old new : List UInt8}

/-- A path that names no entry ends the call. -/
theorem fsRenamePath_refused {io : RenameIo} {s : FsState} {old new : List UInt8}
    (h : entryOf s.tree io.cwd old = none ∨ entryOf s.tree io.cwd new = none) :
    ∃ e, fsRenamePath io s old new = (some e, s) := by
  unfold fsRenamePath
  unfold entryOf at h
  cases ho : splitParentPath io.cwd old with
  | none => exact ⟨22, rfl⟩
  | some op =>
    cases hn : splitParentPath io.cwd new with
    | none => exact ⟨22, rfl⟩
    | some np =>
      rw [ho, hn, Option.bind_some, Option.bind_some, Option.map_eq_none_iff,
        Option.map_eq_none_iff] at h
      dsimp only
      rcases h with h | h
      · rw [h]
        exact ⟨2, rfl⟩
      · rw [h]
        cases getParentInode s.tree io.cwd op.1 <;> exact ⟨2, rfl⟩

variable {ob nb : List UInt8}

/-- A test that ends the call, when there is a target. -/
theorem replaceTarget_stops {d d' : Nat} {oft : FileType} {target : Nat × FileType}
    (h : StopsAt io s.tree d d' oft nb (some target)) :
    ∃ e, replaceTarget io s d' nb (some target) = .error e := by
  unfold replaceTarget
  dsimp only
  split
  · exact ⟨21, rfl⟩
  next hdir =>
  split
  · exact ⟨5, rfl⟩
  next hread =>
  split
  · exact ⟨13, rfl⟩
  next hperm =>
  have hremove : fsRemoveEntry io.removeTarget s.tree d' nb = none := by
    unfold fsRemoveEntry
    obtain h | h | h | h | h | h := h
    · exact absurd h hdir
    · exact absurd h hread
    · exact absurd h hperm
    · exact if_pos (.inl h)
    · exact if_pos (.inr h)
    · rw [h]
      exact ite_self _
  rw [hremove]
  exact ⟨5, rfl⟩

/-- A test that ends the call, when there is none. -/
theorem moveEntry_stops {d d' : Nat} {oft : FileType} (oino : Nat) (ob : List UInt8)
    (h : StopsAt io s.tree d d' oft nb none) :
    ∃ e, moveEntry io s d d' oino oft ob nb = (some e, s) := by
  unfold moveEntry
  split
  · exact ⟨18, rfl⟩
  next hdir =>
  split
  · exact ⟨5, rfl⟩
  next hread =>
  split
  · exact ⟨13, rfl⟩
  next hperm =>
  have hadd : fsAddEntryDt io.addAt s.tree d ⟨nb, oino, renamedType oft⟩ = none := by
    unfold fsAddEntryDt
    obtain h | h | h | h | h := h
    · exact absurd h hdir
    · exact absurd h hread
    · exact absurd h hperm
    · exact if_pos h
    · rw [h]
      exact ite_self _
  rw [hadd]
  exact ⟨5, rfl⟩

/-- The call for two paths that name entries. -/
theorem fsRenamePath_named {d' : Nat} (ho : entryOf s.tree io.cwd old = some (d, ob))
    (hn : entryOf s.tree io.cwd new = some (d', nb)) :
    fsRenamePath io s old new =
      match ext4LookupFtype s.tree io.cwd old false with
      | none => (some 2, s)
      | some (oino, oft) => renameFound io s d d' oino oft ob nb
          (ext4LookupFtype s.tree io.cwd new false) := by
  obtain ⟨⟨opar, ob'⟩, hos, hop⟩ := Option.bind_eq_some_iff.mp ho
  obtain ⟨⟨npar, nb'⟩, hns, hnp⟩ := Option.bind_eq_some_iff.mp hn
  obtain ⟨d₁, hd₁, heq₁⟩ := Option.map_eq_some_iff.mp hop
  obtain ⟨d₂, hd₂, heq₂⟩ := Option.map_eq_some_iff.mp hnp
  cases heq₁
  cases heq₂
  unfold fsRenamePath
  cases ext4LookupFtype s.tree io.cwd old false with
  | none => simp only [hos, hns, hd₁, hd₂]
  | some found => simp only [hos, hns, hd₁, hd₂]

theorem fsRenamePath_stops (h : Stops io s.tree old new) :
    ∃ e, fsRenamePath io s old new = (some e, s) := by
  cases ho : entryOf s.tree io.cwd old with
  | none => exact fsRenamePath_refused (.inl ho)
  | some eo =>
    cases hn : entryOf s.tree io.cwd new with
    | none => exact fsRenamePath_refused (.inr hn)
    | some en =>
      rw [fsRenamePath_named ho hn]
      cases hfound : ext4LookupFtype s.tree io.cwd old false with
      | none => exact ⟨2, rfl⟩
      | some found =>
        have hstop := h _ _ _ _ _ _ ho hn hfound
        dsimp only
        unfold renameFound
        cases htarget : ext4LookupFtype s.tree io.cwd new false with
        | none =>
          rw [htarget] at hstop
          obtain ⟨e, hmove⟩ := moveEntry_stops found.1 eo.2 hstop
          exact ⟨e, hmove⟩
        | some target =>
          rw [htarget] at hstop
          obtain ⟨e, hrep⟩ := replaceTarget_stops hstop
          rw [hrep]
          exact ⟨e, rfl⟩

/-- After the entry was moved, the law holds. -/
theorem Moved.law {fo fn : List UInt8} {s' : FsState} (hgood : GoodTree s.tree)
    (ho : PlainPath s.tree io.cwd old fo cs d ob) (hn : PlainPath s.tree io.cwd new fn cs' d nb)
    (hsame : SameDir io s.tree cs' d d ob nb) (hpresent : s.tree.present d = true)
    (hde : s.tree.find d ob = some de) (hm : Moved s.tree s'.tree d ob nb de.iNo)
    (hfile : ∀ ex, s.tree.find d nb = some ex → ex.fType ≠ .directory) :
    RenameLaw io s old new (none, s') := by
  have hnot : ¬ ((none : Option Nat) ≠ none) := fun h => h rfl
  have hpres' : s'.tree.present d = true := by rw [hm.present]; exact hpresent
  refine ⟨fun _ => ?_, fun _ _ => ?_, fun _ path follow hvisits => ?_, fun heq => ?_,
    fun h => absurd h hnot⟩
  · obtain ⟨ft, hnew⟩ := hm.new
    refine ⟨de.iNo, de.fType, ft, ?_, ?_⟩
    · rw [ho.lookup ho.reaches, hde, hpresent]
      rfl
    · rw [hn.lookup (hm.reaches hfile hn.reaches hsame.beside), hnew, hpres']
      rfl
  · -- The old path: the walk ends at the missing entry, or before it.
    obtain ⟨hstraight, hnone⟩ := hm.resolve_old hfile (resolve s'.tree false 6) ho.reaches
    rw [ext4LookupFtype_full ho.abs, ext4LookupDepth_eq ho.head ho.len, ho.comps]
    · exact hnone
    · refine direct_of_straight ho.short ?_ fun h => by cases h
      rw [ho.comps]
      exact hstraight
  · unfold ext4LookupDepth
    rw [lookupLoop_congr hm.present fun e he => ?_]
    obtain ⟨h₁, h₂⟩ := hvisits e he
    rw [ho.entry] at h₁
    rw [hn.entry] at h₂
    exact hm.sameAt hgood hfile (fun h => h₁ (by rw [h])) fun h => h₂ (by rw [h])
  · subst heq
    have heq := ho.entry.symm.trans hn.entry
    exact absurd (Prod.mk.inj (Option.some.inj heq)).2 hsame.apart

end Main

end CoreZ.Fs
