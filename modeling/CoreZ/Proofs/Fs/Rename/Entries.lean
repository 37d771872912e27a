import CoreZ.Fs.Rename
import CoreZ.Proofs.Fs.Ext4.LookupResolves
import Mathlib.Data.List.Nodup

/-!
# `CoreZ.Proofs.Fs.Rename.Entries`: paths, entries and edits

What the proofs about a rename need of the functions it calls.

* A lookup depends on the entries it asks for (`lookupVisits`) and nothing
  else: `lookupLoop_congr`.
* `split_parent_path` splits off the last component (`splitParentPath_eq`), and
  for a path without links `get_parent_inode` gives the directory that the rest
  leads to (`getParentInode_iff`).
* `fs_add_entry_dt` and `fs_remove_entry` change the answer for one entry:
  `edited_of_add`, `edited_of_remove`.
-/

set_option autoImplicit false

namespace CoreZ.Fs

open CoreZ.Lib CoreZ.Fs.Ext4
open Function
open List

/-! ### Which entries a lookup asks for -/

/-- The entries that the inner loop of a lookup asks for. -/
def walkVisits (t : FileTree) : (fuel : Nat) → (p : List UInt8) → (node : Nat) →
    List (Nat × List UInt8)
  | 0, _, _ => []
  | fuel + 1, p, node =>
    let comp := nextComponent p
    if comp = [] then []
    else (node, comp) ::
      match t.find node comp with
      | none => []
      | some de =>
        let p' := (p.drop comp.length).dropWhile fun c => decide (c = slash)
        if de.fType = .symlink ∨ p' = [] ∨ de.fType ≠ .directory ∨ t.present de.iNo = false then []
        else walkVisits t fuel p' de.iNo

/-- The entries that a lookup asks for: directory and name. -/
def lookupVisits (t : FileTree) (follow : Bool) : (depth : Nat) → (cur : List UInt8) →
    List (Nat × List UInt8)
  | 0, _ => []
  | depth + 1, cur =>
    let pre := cur.takeWhile fun c => decide (c = slash)
    let p := cur.dropWhile fun c => decide (c = slash)
    if p = [] ∨ t.present rootIno = false then []
    else walkVisits t p.length p rootIno ++
      match lookupWalk t follow p.length pre p rootIno with
      | .again cur' => lookupVisits t follow depth cur'
      | _ => []

/-- Two trees answer alike about an entry and what it leads to. -/
def SameAt (t t' : FileTree) (e : Nat × List UInt8) : Prop :=
  t'.find e.1 e.2 = t.find e.1 e.2 ∧
    ∀ de, t.find e.1 e.2 = some de → t'.targets de.iNo = t.targets de.iNo

section Visits

variable {t t' : FileTree} {follow : Bool}

theorem lookupWalk_congr (hpresent : t'.present = t.present) :
    ∀ {fuel : Nat} {pre p : List UInt8} {node : Nat},
      (∀ e ∈ walkVisits t fuel p node, SameAt t t' e) →
      lookupWalk t' follow fuel pre p node = lookupWalk t follow fuel pre p node := by
  intro fuel
  induction fuel with
  | zero => intro pre p node _; rfl
  | succ fuel ih =>
    intro pre p node hsame
    rw [walkVisits] at hsame
    rw [lookupWalk, lookupWalk]
    by_cases hcomp : nextComponent p = []
    · simp [hcomp]
    simp only [hcomp, if_false, forall_mem_cons] at hsame ⊢
    obtain ⟨⟨hfind, htarget⟩, hrest⟩ := hsame
    rw [hfind]
    cases hde : t.find node (nextComponent p) with
    | none => rfl
    | some de =>
      rw [hde] at hrest
      dsimp only at hrest
      simp only [htarget de hde, hpresent]
      -- the walk ends at a link, and the restart is the caller's
      by_cases hsym : de.fType = .symlink
      · simp [hsym]
      simp only [hsym, if_false]
      split
      · rfl
      next hp =>
        split
        · rfl
        next hdir =>
          refine ih fun e he => hrest e ?_
          rw [if_neg (by simp only [hsym, hp, false_or]; exact hdir)]
          exact he

/-- A lookup depends on the entries that it asks for only. -/
theorem lookupLoop_congr (hpresent : t'.present = t.present) :
    ∀ {depth : Nat} {cur : List UInt8}, (∀ e ∈ lookupVisits t follow depth cur, SameAt t t' e) →
      lookupLoop t' follow depth cur = lookupLoop t follow depth cur := by
  intro depth
  induction depth with
  | zero => intro cur _; rfl
  | succ depth ih =>
    intro cur hsame
    rw [lookupVisits] at hsame
    rw [lookupLoop, lookupLoop, hpresent]
    split
    · rfl
    next hp =>
      split
      · rfl
      next hroot =>
        rw [if_neg (not_or.mpr ⟨hp, hroot⟩)] at hsame
        rw [lookupWalk_congr hpresent fun e he => hsame e (mem_append_left _ he)]
        generalize hx : lookupWalk t follow _ _ _ rootIno = x at hsame
        cases x with
        | done ino ft => rfl
        | fail => rfl
        | again cur' => exact ih fun e he => hsame e (mem_append_right _ he)

end Visits

/-! ### Parent and last component -/

variable {t : FileTree} {l : List FsDirent} {b c : List UInt8} {d : Nat}

section Split

variable {cwd : Option (List UInt8)} {path full : List UInt8}

/-- The lookup of a path is the lookup of its full path. -/
theorem ext4LookupFtype_full {t : FileTree} {follow : Bool}
    (habs : ext4AbsPath cwd path maxPathLen = some full) :
    ext4LookupFtype t cwd path follow = ext4LookupDepth t full follow 8 := by
  by_cases hhead : path.head? = some slash
  · have hne : path ≠ [] := by
      rintro rfl
      cases hhead
    unfold ext4AbsPath at habs
    rw [if_neg hne, if_pos hhead] at habs
    split at habs
    · cases habs
    · cases habs
      rw [ext4LookupFtype, if_neg (by simpa using hhead)]
  · rw [ext4LookupFtype, if_pos hhead, habs]

/-- Without the slashes at its end, a path does not end with one. -/
theorem stripLen_last {cur : List UInt8} :
    ∀ n, stripLen cur (n + 1) = 1 ∨ cur.getD (stripLen cur (n + 1) - 1) 0 ≠ slash := by
  intro n
  induction n with
  | zero =>
    left
    rw [stripLen, if_neg (by simp)]
  | succ n ih =>
    rw [stripLen]
    split
    · exact ih
    next h =>
      right
      intro hlast
      exact h ⟨by omega, hlast⟩

/-- A path cut at its last slash. -/
theorem cut_last_slash {p : List UInt8} (h : slash ∈ p) :
    ∃ front, p = front ++ slash :: (p.reverse.takeWhile fun c => decide (c ≠ slash)).reverse ∧
      (p.reverse.dropWhile fun c => decide (c ≠ slash)).reverse = front ++ [slash] ∧
      slash ∉ (p.reverse.takeWhile fun c => decide (c ≠ slash)).reverse := by
  have hsplit := takeWhile_append_dropWhile (p := fun c => decide (c ≠ slash)) (l := p.reverse)
  have hno : slash ∉ p.reverse.takeWhile fun c => decide (c ≠ slash) := by
    intro hmem
    simpa using mem_takeWhile_imp hmem
  cases hrest : p.reverse.dropWhile fun c => decide (c ≠ slash) with
  | nil =>
    rw [hrest, append_nil] at hsplit
    rw [hsplit] at hno
    exact absurd (mem_reverse.mpr h) hno
  | cons c rest =>
    have hc : c = slash := by
      have hhead := head?_dropWhile_not (fun c => decide (c ≠ slash)) p.reverse
      rw [hrest] at hhead
      simpa using hhead
    subst hc
    refine ⟨rest.reverse, ?_, by simp, fun hmem => hno (mem_reverse.mp hmem)⟩
    rw [hrest] at hsplit
    have hp := congrArg reverse hsplit
    rw [reverse_reverse, reverse_append] at hp
    exact hp.symm.trans (by simp)

section

variable (habs : ext4AbsPath cwd path maxPathLen = some full) (hhead : full.head? = some slash)

include habs hhead

/-- `split_parent_path` splits off the last component. -/
theorem splitParentPath_eq {cs : List (List UInt8)} (hcs : components full = cs ++ [b]) :
    ∃ parent, splitParentPath cwd path = some (parent, b) ∧ parent.head? = some slash ∧
      components parent = cs ∧ parent.length ≤ full.length := by
  obtain ⟨l, rfl⟩ : ∃ l, full = slash :: l := by
    cases full with
    | nil => cases hhead
    | cons c l =>
      cases hhead
      exact ⟨l, rfl⟩
  obtain ⟨n, hn⟩ : ∃ n, n = stripLen (slash :: l) (slash :: l).length := ⟨_, rfl⟩
  have hpos : 0 < n := hn ▸ stripLen_pos (Nat.succ_pos _)
  have hle : n ≤ (slash :: l).length := hn ▸ stripLen_le _ _
  obtain ⟨p, hp⟩ : ∃ p, p = (slash :: l).take n := ⟨_, rfl⟩
  have hpcs : components p = cs ++ [b] := by
    rw [hp, hn, components_take_stripLen le_rfl, take_length, hcs]
  have hphead : p.head? = some slash := by
    obtain ⟨k, rfl⟩ : ∃ k, n = k + 1 := ⟨n - 1, by omega⟩
    rw [hp]
    rfl
  obtain ⟨front, hcut, hdrop, hno⟩ := cut_last_slash (mem_of_mem_head? hphead)
  obtain ⟨base, hbase⟩ : ∃ base, base = (p.reverse.takeWhile fun c => decide (c ≠ slash)).reverse :=
    ⟨_, rfl⟩
  rw [← hbase] at hcut hno
  have hlen : front.length + 1 + base.length ≤ (slash :: l).length := by
    have h := congrArg length hcut
    rw [hp, length_take] at h
    simp only [length_append, length_cons] at h hle ⊢
    omega
  -- The cut path does not end with a slash, so there is a last component.
  have hbne : base ≠ [] := by
    intro hnil
    rw [hnil] at hcut
    obtain hone | hlast := stripLen_last l.length
    · have hpone : p = [slash] := by
        rw [hp, hn]
        show (slash :: l).take (stripLen (slash :: l) (l.length + 1)) = _
        rw [hone]
        rfl
      rw [hpone] at hpcs
      exact absurd hpcs.symm (by simp [components])
    · refine hlast ?_
      show (slash :: l).getD (stripLen (slash :: l) (slash :: l).length - 1) 0 = slash
      have hlenp := congrArg length hcut
      rw [hp, length_take, Nat.min_eq_left hle, length_append, length_singleton]
        at hlenp
      have hat : (slash :: l)[n - 1]? = some slash := by
        rw [← getElem?_take_of_lt (show n - 1 < n by omega), ← hp, hcut,
          show n - 1 = front.length by omega]
        simp
      rw [← hn, getD_eq_getElem?_getD, hat]
      rfl
  have hcomp : components p = components front ++ [base] := by
    rw [hcut, components_append_slash]
    exact congrArg (components front ++ ·) (words_singleton hno hbne)
  obtain ⟨hfront, hb⟩ := append_inj' (hcomp.symm.trans hpcs) rfl
  have hb : base = b := by simpa using hb
  refine ⟨if (front ++ [slash]).length = 1 then [slash] else front, ?_, ?_, ?_, ?_⟩
  · unfold splitParentPath
    rw [habs]
    dsimp only
    rw [← hn, ← hp, ← hbase, hdrop, if_neg (by simp), if_neg hbne, dropLast_concat, hb]
  · cases front with
    | nil => rfl
    | cons c front =>
      rw [hcut] at hphead
      rw [if_neg (by simp)]
      exact hphead
  · cases front with
    | nil => exact hfront
    | cons c front =>
      rw [if_neg (by simp)]
      exact hfront
  · split
    · simp
    · omega

/-- The root has no last component. -/
theorem splitParentPath_root (hcs : components full = []) : splitParentPath cwd path = none := by
  obtain ⟨p, hp⟩ : ∃ p, p = full.take (stripLen full full.length) := ⟨_, rfl⟩
  have hpcs : components p = [] := by
    rw [hp, components_take_stripLen le_rfl, take_length, hcs]
  have hpos : 0 < stripLen full full.length := by
    refine stripLen_pos (length_pos_iff.mpr ?_)
    rintro rfl
    cases hhead
  have hphead : p.head? = some slash := by
    rw [hp, head?_take, if_neg (by omega)]
    exact hhead
  obtain ⟨front, hcut, hdrop, hno⟩ := cut_last_slash (mem_of_mem_head? hphead)
  have hbase : (p.reverse.takeWhile fun c => decide (c ≠ slash)).reverse = [] := by
    by_contra hne
    rw [hcut, components_append_slash] at hpcs
    have hword := words_singleton hno hne
    exact absurd (append_eq_nil_iff.mp hpcs).2 (by rw [components, hword]; simp)
  unfold splitParentPath
  rw [habs]
  dsimp only
  rw [← hp, hdrop, hbase, if_neg (by simp), if_pos rfl]

end

end Split

/-! ### Lookups through directories -/

section Plain

variable {t : FileTree} {follow : Bool} {cs : List (List UInt8)} {b : List UInt8} {dir d : Nat}

/-- No component before the last one is a symbolic link. -/
def Straight (t : FileTree) : Nat → List (List UInt8) → Prop
  | _, [] => True
  | dir, c :: rest => rest ≠ [] → ∀ de, t.find dir c = some de →
      de.fType ≠ .symlink ∧ (de.fType = .directory → Straight t de.iNo rest)

theorem visits_of_straight (hshort : ∀ c ∈ cs, c.length ≤ 255) (h : Straight t dir cs) :
    Visits t dir cs := by
  induction cs generalizing dir with
  | nil => trivial
  | cons c cs ih =>
    refine ⟨.inl (hshort c mem_cons_self), fun hne de hde => ?_⟩
    obtain ⟨hsym, hrest⟩ := h hne de hde
    exact ⟨hsym, fun hdir _ => ih (fun c' hc' => hshort c' (mem_cons_of_mem c hc')) (hrest hdir)⟩

theorem straight_init (h : Straight t dir (cs ++ [b])) : Straight t dir cs := by
  induction cs generalizing dir with
  | nil => trivial
  | cons c cs ih =>
    intro hne de hde
    obtain ⟨hsym, hrest⟩ := h (by simp) de hde
    exact ⟨hsym, fun hdir => ih (hrest hdir)⟩

/-- A component that is not the last one is not a link. -/
theorem lastLink_init_of_straight (h : Straight t dir (cs ++ [b])) : lastLink t dir cs = none := by
  induction cs generalizing dir with
  | nil => rfl
  | cons c cs ih =>
    rw [lastLink]
    cases hde : t.find dir c with
    | none => rfl
    | some de =>
      obtain ⟨hsym, hrest⟩ := h (by simp) de hde
      rw [Option.bind_some, if_neg hsym]
      split
      · rfl
      split
      · next hdir => exact ih (hrest hdir)
      · rfl

theorem straight_of_reaches (h : Reaches t dir cs d) : Straight t dir (cs ++ [b]) := by
  induction cs generalizing dir with
  | nil => intro hne; exact absurd rfl hne
  | cons c cs ih =>
    obtain ⟨-, de, hde, hdir, hrest⟩ := h
    intro _ de' hde'
    rw [hde] at hde'
    cases hde'
    exact ⟨by rw [hdir]; decide, fun _ => ih hrest⟩

/-- A directory that components without links lead to is reached through
directories. -/
theorem reaches_of_straight {n : Nat} (h : Straight t dir (cs ++ [b]))
    (hres : resolve t follow n dir cs = some (d, .directory)) : Reaches t dir cs d := by
  obtain ⟨expand, hexp⟩ : ∃ expand, resolve t follow n = resolveWith t follow expand := by
    cases n with
    | zero => exact ⟨_, rfl⟩
    | succ n => exact ⟨_, rfl⟩
  rw [hexp] at hres
  induction cs generalizing dir with
  | nil =>
    cases hres
    rfl
  | cons c cs ih =>
    rw [resolveWith] at hres
    split at hres
    · cases hres
    next hpresent =>
      split at hres
      · cases hres
      next de hde =>
        obtain ⟨hsym, hrest⟩ := h (by simp) de hde
        simp only [hsym, false_and, if_false] at hres
        refine ⟨by simpa using hpresent, de, hde, ?_⟩
        split at hres
        · next hnil =>
            obtain ⟨hd, hdir⟩ := Prod.mk.inj (Option.some.inj hres)
            subst hnil
            exact ⟨hdir, hd.symm⟩
        split at hres
        · next hdir => exact ⟨hdir, ih (hrest hdir) hres⟩
        · cases hres

/-- The condition of a lookup for a path without links, or with one in the last
place that is not followed. -/
theorem direct_of_straight {path : List UInt8} {n : Nat}
    (hshort : ∀ c ∈ components path, c.length ≤ 255)
    (hstraight : Straight t rootIno (components path))
    (hlast : follow = true → lastLink t rootIno (components path) = none) :
    Direct t follow n path := by
  have hwith : ∀ next, DirectWith t follow next path := by
    intro next
    refine ⟨visits_of_straight hshort hstraight, fun hf de hde => ?_⟩
    rw [hlast hf] at hde
    cases hde
  cases n with
  | zero => exact hwith _
  | succ n => exact hwith _

/-- `get_parent_inode` gives the directory that the path leads to. -/
theorem getParentInode_iff {cwd : Option (List UInt8)} {parent : List UInt8}
    (hhead : parent.head? = some slash) (hlen : parent.length < maxPathLen)
    (hcs : components parent = cs) (hshort : ∀ c ∈ cs, c.length ≤ 255)
    (hstraight : Straight t rootIno (cs ++ [b])) :
    getParentInode t cwd parent = some d ↔ Reaches t rootIno cs d ∧ d ≠ 0 := by
  have hlookup : ext4LookupFtype t cwd parent true = resolve t true maxLinks rootIno cs := by
    rw [ext4LookupFtype, if_neg (by simpa using hhead)]
    subst hcs
    exact ext4LookupDepth_eq hhead hlen
      (direct_of_straight hshort (straight_init hstraight)
        fun _ => lastLink_init_of_straight hstraight)
  rw [getParentInode, ext4Lookup, hlookup]
  constructor
  · intro h
    cases hres : resolve t true maxLinks rootIno cs with
    | none =>
      rw [hres] at h
      cases h
    | some r =>
      obtain ⟨ino, ft⟩ := r
      rw [hres] at h
      simp only [Option.map_some] at h
      -- only a directory is a parent
      by_cases hdir : ft = .directory
      · simp only [hdir, decide_true] at h
        split at h
        · cases h
        next hz =>
          cases h
          subst hdir
          exact ⟨reaches_of_straight hstraight hres, hz⟩
      · simp only [hdir, decide_false] at h
        cases h
  · rintro ⟨hreach, hz⟩
    have hres : resolve t true maxLinks rootIno cs = some (d, .directory) := by
      have h : resolveWith t true (resolve t true 6) rootIno (cs ++ [])
          = resolveWith t true (resolve t true 6) d [] := resolveWith_of_reaches hreach
      rw [append_nil] at h
      exact h
    rw [hres]
    simp [if_neg hz]

/-- The lookup of an entry of the directory that the rest of the path leads to. -/
theorem lookup_of_reaches {full : List UInt8} (hhead : full.head? = some slash)
    (hlen : full.length < maxPathLen) (hcs : components full = cs ++ [b])
    (hshort : ∀ c ∈ components full, c.length ≤ 255) (hreach : Reaches t rootIno cs d) :
    ext4LookupDepth t full false 8
      = if t.present d = false then none else (t.find d b).map fun de => (de.iNo, de.fType) := by
  have hdirect : Direct t false maxLinks full := by
    refine direct_of_straight hshort ?_ fun h => by cases h
    rw [hcs]
    exact straight_of_reaches hreach
  rw [ext4LookupDepth_eq hhead hlen hdirect, hcs]
  show resolveWith t false (resolve t false 6) rootIno (cs ++ [b]) = _
  rw [resolveWith_of_reaches hreach, resolveWith]
  cases t.find d b with
  | none => rfl
  | some de => simp

end Plain

/-! ### Edits of a directory -/

/-- No name stands twice in a directory. -/
def NamesDistinct (t : FileTree) : Prop := ∀ dir, ((t.dirs dir).map FsDirent.filename).Nodup

/-- `t'` is `t` with another answer for one entry. -/
structure Edited (t t' : FileTree) (d : Nat) (b : List UInt8) (r : Option FsDirent) : Prop where
  here : t'.find d b = r
  other : ∀ x c, (x, c) ≠ (d, b) → t'.find x c = t.find x c
  present : t'.present = t.present
  targets : t'.targets = t.targets
  names : NamesDistinct t'

theorem find?_eraseP_of_ne (hne : c ≠ b) :
    (l.eraseP fun de => decide (de.filename = b)).find? (fun de => decide (de.filename = c))
      = l.find? fun de => decide (de.filename = c) := by
  induction l with
  | nil => rfl
  | cons de l ih =>
    by_cases hb : de.filename = b
    · have hc : ¬ de.filename = c := fun h => hne (h.symm.trans hb)
      rw [eraseP_cons_of_pos (by simpa using hb), find?_cons_of_neg (by simpa using hc)]
    · rw [eraseP_cons_of_neg (by simpa using hb), find?_cons, find?_cons, ih]

theorem find?_eraseP_self (hnodup : (l.map FsDirent.filename).Nodup) :
    (l.eraseP fun de => decide (de.filename = b)).find? (fun de => decide (de.filename = b))
      = none := by
  induction l with
  | nil => rfl
  | cons de l ih =>
    obtain ⟨hnot, hnodup⟩ := nodup_cons.mp hnodup
    by_cases hb : de.filename = b
    · rw [eraseP_cons_of_pos (by simpa using hb), find?_eq_none]
      intro de' hde' heq
      have heq : de'.filename = b := by simpa using heq
      exact hnot (hb.trans heq.symm ▸ mem_map_of_mem hde')
    · rw [eraseP_cons_of_neg (by simpa using hb), find?_cons_of_neg (by simpa using hb)]
      exact ih hnodup

/-- The entries of one directory are replaced. -/
theorem edited_of_update {r : Option FsDirent} (hnames : NamesDistinct t)
    (hhere : l.find? (fun de => decide (de.filename = b)) = r)
    (hother : ∀ c, c ≠ b → l.find? (fun de => decide (de.filename = c)) = t.find d c)
    (hnodup : (l.map FsDirent.filename).Nodup) :
    Edited t { t with dirs := update t.dirs d l } d b r := by
  refine ⟨?_, fun x c hne => ?_, rfl, rfl, fun dir => ?_⟩
  · show (update t.dirs d l d).find? _ = r
    rw [update_self]
    exact hhere
  · show (update t.dirs d l x).find? _ = t.find x c
    by_cases hx : x = d
    · subst hx
      rw [update_self]
      exact hother c fun hc => hne (by rw [hc])
    · rw [update_of_ne hx]
      rfl
  · show ((update t.dirs d l dir).map FsDirent.filename).Nodup
    by_cases hdir : dir = d
    · rw [hdir, update_self]
      exact hnodup
    · rw [update_of_ne hdir]
      exact hnames dir

/-- `fs_remove_entry` takes the entry out. -/
theorem edited_of_remove {page : Bool} {t' : FileTree} (hnames : NamesDistinct t)
    (h : fsRemoveEntry page t d b = some t') : Edited t t' d b none := by
  unfold fsRemoveEntry at h
  split at h
  · cases h
  split at h
  · cases h
  cases h
  exact edited_of_update hnames (find?_eraseP_self (hnames d))
    (fun c hne => find?_eraseP_of_ne hne) ((hnames d).sublist (eraseP_sublist.map _))

/-- `fs_add_entry_dt` puts the entry in. -/
theorem edited_of_add {place : Option Nat} {t' : FileTree} {de : FsDirent}
    (hnames : NamesDistinct t) (habsent : t.find d de.filename = none)
    (h : fsAddEntryDt place t d de = some t') : Edited t t' d de.filename (some de) := by
  unfold fsAddEntryDt at h
  split at h
  · cases h
  obtain ⟨k, -, rfl⟩ := Option.map_eq_some_iff.mp h
  have hsplit : (t.dirs d).take k ++ (t.dirs d).drop k = t.dirs d := take_append_drop k _
  have hno : ∀ x ∈ t.dirs d, x.filename ≠ de.filename := fun x hx heq =>
    absurd (decide_eq_true heq) (find?_eq_none.mp habsent x hx)
  refine edited_of_update hnames ?_ (fun c hne => ?_) ?_
  · rw [find?_append, find?_eq_none.mpr, Option.none_or, find?_cons_of_pos (by simp)]
    intro x hx
    simpa using hno x (mem_of_mem_take hx)
  · rw [find?_append, find?_cons_of_neg (by simpa using hne.symm), ← find?_append, hsplit]
    rfl
  · rw [map_append, map_cons, nodup_middle, ← map_append, hsplit, nodup_cons]
    refine ⟨fun hmem => ?_, hnames d⟩
    obtain ⟨x, hx, heq⟩ := mem_map.mp hmem
    exact hno x hx heq

end CoreZ.Fs
