import CoreZ.Lib.Words
import CoreZ.Fs.Ext4.Lookup

/-!
# `CoreZ.Proofs.Fs.Ext4.LookupResolves`: lookup against the meaning of a path

The meaning of a path is `resolve`: its components are taken one after another,
and a symbolic link is replaced by the components of its target, in front of
those that are left. A number bounds how many links are replaced.

`ext4_lookup_depth` works on strings. It meets the meaning
(`ext4LookupFtype_eq_resolvePath`) for the paths that `Direct` describes. Two
things are asked of the components that the lookup comes to (`Visits`): none but
the last one is a symbolic link, and the buffer of 256 bytes does not change
what is found. A link in the last place can be read and fits into the path's
buffer together with what stands before it. Nothing is asked of a component
behind one that is missing.

Links are where the lookup goes wrong: the string that it starts again with
ends with the target, so what followed the link is lost
(`lookup_drops_components`), and without `follow` the link itself is returned
wherever it stands.
-/

set_option autoImplicit false

namespace CoreZ.Fs.Ext4

open CoreZ.Lib
open List

/-! ### The meaning of a path -/

/-- The components of a path. -/
def components (path : List UInt8) : List (List UInt8) := words slash path

/-- One component after another from the directory `dir` on; `expand` resolves
what a symbolic link is replaced by. -/
def resolveWith (t : FileTree) (follow : Bool)
    (expand : Nat → List (List UInt8) → Option (Nat × FileType)) :
    Nat → List (List UInt8) → Option (Nat × FileType)
  | dir, [] => some (dir, .directory)
  | dir, c :: rest =>
    if t.present dir = false then none
    else
      match t.find dir c with
      | none => none
      | some de =>
        if de.fType = .symlink ∧ (rest ≠ [] ∨ follow = true) then
          match t.targets de.iNo with
          | none => none
          | some tgt =>
            expand (if tgt.head? = some slash then rootIno else dir) (components tgt ++ rest)
        else if rest = [] then some (de.iNo, de.fType)
        else if de.fType = .directory then resolveWith t follow expand de.iNo rest
        else none

/-- The meaning of a list of components in a directory, with at most `n`
symbolic links on the way. -/
def resolve (t : FileTree) (follow : Bool) :
    (n : Nat) → Nat → List (List UInt8) → Option (Nat × FileType)
  | 0 => resolveWith t follow fun _ _ => none
  | n + 1 => resolveWith t follow (resolve t follow n)

/-- How many links a lookup may replace: `depth` is 8, and the last turn of the
loop replaces none. -/
def maxLinks : Nat := 7

/-- The meaning of a path of a process whose working directory is `cwd`. -/
def resolvePath (t : FileTree) (cwd : Option (List UInt8)) (path : List UInt8) (follow : Bool) :
    Option (Nat × FileType) :=
  if path = [] then none
  else if path.head? = some slash then resolve t follow maxLinks rootIno (components path)
  else cwd.bind fun pre => resolve t follow maxLinks rootIno (components pre ++ components path)

/-! ### The condition -/

/-- What the lookup needs in the directories that the components lead to.

- The loop copies at most 255 bytes of a component and takes the rest for the
  next one. With a longer component the directory may have neither an entry of
  that name nor one with the name that the loop asks for: then both fail here.
- A component before the last one is not a symbolic link. The walk goes on
  behind it only if it is a directory that can be read. -/
def Visits (t : FileTree) : Nat → List (List UInt8) → Prop
  | _, [] => True
  | dir, c :: rest =>
    (c.length ≤ 255 ∨ t.find dir c = none ∧ t.find dir (c.take 255) = none) ∧
    (rest ≠ [] → ∀ de, t.find dir c = some de →
      de.fType ≠ .symlink ∧
      (de.fType = .directory → t.present de.iNo = true → Visits t de.iNo rest))

/-- The last component, if it is a symbolic link. -/
def lastLink (t : FileTree) : Nat → List (List UInt8) → Option FsDirent
  | _, [] => none
  | dir, c :: rest =>
    (t.find dir c).bind fun de =>
      if rest = [] then (if de.fType = .symlink then some de else none)
      else if de.fType = .directory then lastLink t de.iNo rest
      else none

/-- The bytes of a path before its last component. -/
def dirPart (path : List UInt8) : List UInt8 :=
  ((path.reverse.dropWhile fun c => decide (c = slash)).dropWhile
    fun c => decide (c ≠ slash)).reverse

/-- The condition on one path; `next` is the condition on the path that a link
in the last place leads to. -/
structure DirectWith (t : FileTree) (follow : Bool) (next : List UInt8 → Prop)
    (path : List UInt8) : Prop where
  visits : Visits t rootIno (components path)
  link : follow = true → ∀ de, lastLink t rootIno (components path) = some de →
    ∃ tgt np, t.targets de.iNo = some tgt ∧ restartPath (dirPart path) tgt = some np ∧ next np

/-- The condition over a chain of at most `n` links. -/
def Direct (t : FileTree) (follow : Bool) : (n : Nat) → List UInt8 → Prop
  | 0 => DirectWith t follow fun _ => True
  | n + 1 => DirectWith t follow (Direct t follow n)

/-! ### Walking through directories -/

/-- The components lead through directories to `node`. -/
def Reaches (t : FileTree) : Nat → List (List UInt8) → Nat → Prop
  | dir, [], node => node = dir
  | dir, c :: cs, node => t.present dir = true ∧
      ∃ de, t.find dir c = some de ∧ de.fType = .directory ∧ Reaches t de.iNo cs node

variable {p path pre w : List UInt8} {node : Nat}

variable {cs' : List (List UInt8)} {de : FsDirent}

section Reaches

variable {t : FileTree} {follow : Bool}
  {expand : Nat → List (List UInt8) → Option (Nat × FileType)}

/-- A resolution that goes through known directories. -/
theorem resolveWith_of_reaches :
    ∀ {cs : List (List UInt8)} {dir : Nat}, Reaches t dir cs node →
      resolveWith t follow expand dir (cs ++ cs') = resolveWith t follow expand node cs' := by
  intro cs
  induction cs with
  | nil =>
    rintro dir rfl
    rfl
  | cons c cs ih =>
    rintro dir ⟨hpresent, de, hfind, hdir, hrest⟩
    rw [cons_append, resolveWith, if_neg (by simp [hpresent]), hfind]
    simp only [hdir, reduceCtorEq, false_and, if_false, if_true]
    by_cases hnil : cs ++ cs' = []
    · obtain ⟨rfl, rfl⟩ := append_eq_nil_iff.mp hnil
      cases hrest
      rfl
    · rw [if_neg hnil]
      exact ih hrest

/-- One directory further. -/
theorem Reaches.snoc {c : List UInt8} (hpresent : t.present node = true)
    (hfind : t.find node c = some de) (hdir : de.fType = .directory) :
    ∀ {cs : List (List UInt8)} {dir : Nat}, Reaches t dir cs node →
      Reaches t dir (cs ++ [c]) de.iNo := by
  intro cs
  induction cs with
  | nil =>
    rintro dir rfl
    exact ⟨hpresent, de, hfind, hdir, rfl⟩
  | cons c' cs ih =>
    rintro dir ⟨hp, de', hf, hd, hrest⟩
    exact ⟨hp, de', hf, hd, ih hrest⟩

end Reaches

/-! ### Strings and components -/

/-- The components before and behind a slash. -/
theorem components_append_slash {l r : List UInt8} :
    components (l ++ slash :: r) = components l ++ components r := words_append_sep l r

/-- Trailing slashes are taken away. -/
theorem stripLen_le (cur : List UInt8) : ∀ n, stripLen cur n ≤ n := by
  intro n
  induction n with
  | zero => exact le_refl 0
  | succ n ih =>
    rw [stripLen]
    split
    · omega
    · exact le_rfl

/-- The slash of the root stays. -/
theorem stripLen_pos {cur : List UInt8} : ∀ {n}, 0 < n → 0 < stripLen cur n := by
  intro n
  induction n with
  | zero => intro h; exact h
  | succ n ih =>
    intro _
    rw [stripLen]
    split
    · next h => exact ih (by omega)
    · exact Nat.succ_pos n

/-- Cutting the slashes at the end keeps the components. -/
theorem components_take_stripLen {cur : List UInt8} :
    ∀ {n}, n ≤ cur.length → components (cur.take (stripLen cur n)) = components (cur.take n) := by
  intro n
  induction n with
  | zero => intro _; rfl
  | succ n ih =>
    intro hn
    rw [stripLen]
    split
    · next h =>
        have hget : cur.getD n 0 = cur[n] := by
          rw [getD_eq_getElem?_getD, getElem?_eq_getElem hn]
          rfl
        rw [ih (by omega), take_succ_eq_append_getElem hn, ← hget, h.2, components_append_slash]
        exact (append_nil _).symm
    · rfl

/-- The path that the lookup starts again with has the components of the part
before the link and of the target. -/
theorem components_restartPath {tgt np : List UInt8} (hpre : pre = [] ∨ pre.head? = some slash)
    (h : restartPath pre tgt = some np) :
    np.head? = some slash ∧
      components np
        = (if tgt.head? = some slash then [] else components pre) ++ components tgt := by
  cases pre with
  | nil =>
    simp only [restartPath, length_nil, stripLen, ite_self] at h
    split at h
    · cases h
    simp at h
    subst h
    rw [show components [] = [] from rfl, ite_self]
    exact ⟨rfl, words_cons_sep⟩
  | cons c pre =>
    obtain rfl : c = slash := by simpa using hpre
    by_cases habs : tgt.head? = some slash
    · -- An absolute target: everything before it goes.
      simp only [restartPath, habs, if_true] at h
      split at h
      · cases h
      simp at h
      subst h
      rw [if_pos habs]
      exact ⟨rfl, words_cons_sep⟩
    · -- a relative target stands behind the directory, without its trailing slashes
      obtain ⟨n, hn⟩ : ∃ n, n = stripLen (slash :: pre) (slash :: pre).length := ⟨_, rfl⟩
      have hpos : 0 < n := hn ▸ stripLen_pos (Nat.succ_pos _)
      have hcomp : components ((slash :: pre).take n) = components (slash :: pre) := by
        rw [hn, components_take_stripLen le_rfl, take_length]
      have hhead : ((slash :: pre).take n).head? = some slash := by
        obtain ⟨k, rfl⟩ : ∃ k, n = k + 1 := ⟨n - 1, by omega⟩
        rfl
      simp only [restartPath, habs, if_false, ← hn] at h
      rw [if_neg habs]
      split at h
      · cases h
      split at h
      · cases h
        refine ⟨?_, ?_⟩
        · rw [head?_append, hhead]
          rfl
        · rw [components_append_slash, hcomp]
      · next hone =>
          rw [if_neg (by omega)] at h
          cases h
          have hn1 : n = 1 := by omega
          rw [hn1] at hcomp ⊢
          refine ⟨rfl, ?_⟩
          rw [← hcomp]
          exact words_append_sep [] tgt

/-- The part before the last component. -/
theorem dirPart_eq {r : List UInt8} (hpre : pre.getLast? = some slash) (hw : w ≠ [])
    (hno : slash ∉ w) (hr : ∀ c ∈ r, c = slash) : dirPart (pre ++ (w ++ r)) = pre := by
  obtain ⟨front, rfl⟩ := getLast?_eq_some_iff.mp hpre
  obtain ⟨y, ys, hys⟩ := exists_cons_of_ne_nil (by simpa using hw : w.reverse ≠ [])
  have hy : y ≠ slash := by
    rintro rfl
    exact hno (mem_reverse.mp (hys ▸ mem_cons_self))
  have hrev : (front ++ [slash] ++ (w ++ r)).reverse
      = r.reverse ++ (w.reverse ++ slash :: front.reverse) := by simp
  have hskip : (r.reverse ++ (w.reverse ++ slash :: front.reverse)).dropWhile
      (fun c => decide (c = slash)) = w.reverse ++ slash :: front.reverse := by
    rw [dropWhile_append_of_pos fun c hc => decide_eq_true (hr c (mem_reverse.mp hc)),
      hys, cons_append, dropWhile_cons_of_neg (by simpa using hy)]
  have hword : (w.reverse ++ slash :: front.reverse).dropWhile (fun c => decide (c ≠ slash))
      = slash :: front.reverse := by
    rw [dropWhile_append_of_pos, dropWhile_cons_of_neg (by simp)]
    intro c hc
    refine decide_eq_true ?_
    rintro rfl
    exact hno (mem_reverse.mp hc)
  rw [dirPart, hrev, hskip, hword]
  simp

/-- The directory of an absolute path is absolute. -/
theorem dirPart_head (h : path.head? = some slash) :
    dirPart path = [] ∨ (dirPart path).head? = some slash := by
  have hprefix : dirPart path <+: path := by
    rw [← reverse_suffix, dirPart, reverse_reverse]
    exact (dropWhile_suffix _).trans (dropWhile_suffix _)
  obtain ⟨rest, hrest⟩ := hprefix
  cases hpart : dirPart path with
  | nil => exact .inl rfl
  | cons c part =>
    rw [hpart, cons_append] at hrest
    rw [← hrest] at h
    exact .inr h

/-! ### The walk over one string -/

section Walk

variable {t : FileTree} {follow : Bool}
  {expand : Nat → List (List UInt8) → Option (Nat × FileType)}

/-- How the walk over the rest of a string relates to the meaning of the
components that are left. In the third case a link stands in the last place, in
the directory `dir`. -/
inductive WalkMeets (t : FileTree) (follow : Bool)
    (expand : Nat → List (List UInt8) → Option (Nat × FileType)) (path : List UInt8) (node : Nat)
    (cs : List (List UInt8)) : Walk → Prop where
  | done {ino : Nat} {ft : FileType}
      (h : resolveWith t follow expand node cs = some (ino, ft)) :
      WalkMeets t follow expand path node cs (.done ino ft)
  | fail (h : resolveWith t follow expand node cs = none) :
      WalkMeets t follow expand path node cs .fail
  | again {de : FsDirent} {tgt np : List UInt8} {dir : Nat} (hfollow : follow = true)
      (hlink : lastLink t node cs = some de) (htgt : t.targets de.iNo = some tgt)
      (hnp : restartPath (dirPart path) tgt = some np)
      (hreach : Reaches t rootIno (components (dirPart path)) dir)
      (h : resolveWith t follow expand node cs
        = expand (if tgt.head? = some slash then rootIno else dir) (components tgt)) :
      WalkMeets t follow expand path node cs (.again np)

/-- Passing a directory. -/
theorem WalkMeets.pass {child : Nat} {cs : List (List UInt8)} {x : Walk}
    (h : WalkMeets t follow expand path child cs x)
    (hres : resolveWith t follow expand node cs' = resolveWith t follow expand child cs)
    (hlast : lastLink t node cs' = lastLink t child cs) :
    WalkMeets t follow expand path node cs' x := by
  cases h with
  | done h => exact .done (hres.trans h)
  | fail h => exact .fail (hres.trans h)
  | again hfollow hlink htgt hnp hreach h =>
    exact .again hfollow (hlast.trans hlink) htgt hnp hreach (hres.trans h)

variable {x : List UInt8} {c : UInt8}

/-- The slashes in front are skipped. -/
theorem head_dropWhile_slash (h : p.dropWhile (fun c => decide (c = slash)) = c :: x) :
    c ≠ slash := by
  have hhead := head?_dropWhile_not (fun c => decide (c = slash)) p
  rw [h] at hhead
  simpa using hhead

/-- What is left does not start with a slash. -/
theorem head_skipped (hp : p = path.dropWhile fun c => decide (c = slash)) :
    p.head? ≠ some slash := by
  cases p with
  | nil => simp
  | cons c p => simpa using head_dropWhile_slash hp.symm

/-- The rest of a path from a component on: the component `w`, the slashes
behind it, and what follows them. -/
structure Cut (p w sep q : List UInt8) : Prop where
  split : p = w ++ (sep ++ q)
  ne : w ≠ []
  word : slash ∉ w
  seps : ∀ c ∈ sep, c = slash
  next : q.head? ≠ some slash
  passed : q ≠ [] → sep ≠ []

/-- Every path that is left has a first component. -/
theorem exists_cut (hne : p ≠ []) (hhead : p.head? ≠ some slash) :
    ∃ w sep q, Cut p w sep q := by
  obtain ⟨c, l, rfl⟩ := exists_cons_of_ne_nil hne
  have hc : c ≠ slash := fun h => hhead (by rw [h]; rfl)
  obtain ⟨r, hr⟩ : ∃ r, r = (c :: l).dropWhile fun c => decide (c ≠ slash) := ⟨_, rfl⟩
  refine ⟨(c :: l).takeWhile fun c => decide (c ≠ slash),
    r.takeWhile fun c => decide (c = slash), r.dropWhile fun c => decide (c = slash), ?_, ?_, ?_,
    ?_, ?_, ?_⟩
  · rw [takeWhile_append_dropWhile, hr]
    exact takeWhile_append_dropWhile.symm
  · rw [takeWhile_cons_of_pos (by simpa using hc)]
    exact cons_ne_nil _ _
  · intro hmem
    simpa using mem_takeWhile_imp hmem
  · intro y hy
    simpa using mem_takeWhile_imp hy
  · exact head_skipped rfl
  · -- What is left behind the component starts with a slash.
    intro hq hsep
    have hrq := takeWhile_append_dropWhile (p := fun c => decide (c = slash)) (l := r)
    rw [hsep, nil_append] at hrq
    cases hrc : r with
    | nil =>
      rw [hrc] at hq
      exact hq rfl
    | cons y r' =>
      have hy : y ≠ slash := head_dropWhile_slash (hrq.trans hrc)
      have hhead := head?_dropWhile_not (fun c => decide (c ≠ slash)) (c :: l)
      rw [← hr, hrc] at hhead
      exact hy (by simpa using hhead)

namespace Cut

variable {sep q : List UInt8}

/-- Without a slash nothing follows. -/
theorem nil_of_sep_nil (h : Cut p w [] q) : q = [] := by
  cases q with
  | nil => rfl
  | cons c q => exact absurd rfl (h.passed (cons_ne_nil c q))

theorem takeWhile_eq (h : Cut p w sep q) : p.takeWhile (fun c => decide (c ≠ slash)) = w := by
  have hall : ∀ c ∈ w, decide (c ≠ slash) = true := by
    intro c hc
    refine decide_eq_true ?_
    rintro rfl
    exact h.word hc
  rw [h.split, takeWhile_append_of_pos hall]
  cases sep with
  | nil => rw [h.nil_of_sep_nil, nil_append, takeWhile_nil, append_nil]
  | cons y sep =>
    rw [h.seps y mem_cons_self, cons_append, takeWhile_cons_of_neg (by simp), append_nil]

/-- The code takes 255 bytes of the component. -/
theorem nextComponent_eq (h : Cut p w sep q) : nextComponent p = w.take 255 := by
  rw [nextComponent, h.takeWhile_eq]
  rfl

theorem seps_eq (h : Cut p w sep q) :
    (sep ++ q).takeWhile (fun c => decide (c = slash)) = sep ∧
      (sep ++ q).dropWhile (fun c => decide (c = slash)) = q := by
  have hall : ∀ c ∈ sep, decide (c = slash) = true := fun c hc => decide_eq_true (h.seps c hc)
  rw [takeWhile_append_of_pos hall, dropWhile_append_of_pos hall]
  cases q with
  | nil => exact ⟨append_nil _, rfl⟩
  | cons c q =>
    have hc : c ≠ slash := by simpa using h.next
    rw [takeWhile_cons_of_neg (by simpa using hc), dropWhile_cons_of_neg (by simpa using hc)]
    exact ⟨append_nil _, rfl⟩

/-- The components of a path: the first, and those of the rest. -/
theorem components_eq (h : Cut p w sep q) : components p = w :: components q := by
  cases sep with
  | nil =>
    obtain rfl := h.nil_of_sep_nil
    rw [h.split, nil_append, append_nil]
    exact words_singleton h.word h.ne
  | cons y sep =>
    obtain rfl : y = slash := h.seps y mem_cons_self
    have hskip : components (sep ++ q) = components q :=
      calc components (sep ++ q)
          = components (slash :: sep ++ q) := words_cons_sep.symm
        _ = components ((slash :: sep ++ q).dropWhile fun c => decide (c = slash)) :=
            words_skip.symm
        _ = components q := by rw [h.seps_eq.2]
    rw [h.split, cons_append, components_append_slash, hskip]
    exact congrArg (· ++ components q) (words_singleton h.word h.ne)

theorem components_ne_nil (h : Cut p w sep q) : components p ≠ [] := by
  rw [h.components_eq]
  exact cons_ne_nil _ _

/-- Behind the last component stand only slashes. -/
theorem dirPart_eq (h : Cut p w sep []) (hpre : pre.getLast? = some slash) :
    dirPart (pre ++ p) = pre := by
  rw [h.split, append_nil]
  exact Ext4.dirPart_eq hpre h.ne h.word h.seps

/-- The rest is shorter, which ends the walk. -/
theorem length_lt (h : Cut p w sep q) : q.length < p.length := by
  have hpos := length_pos_iff.mpr h.ne
  rw [h.split, length_append, length_append]
  omega

end Cut

theorem components_ne_nil (hne : p ≠ []) (hhead : p.head? ≠ some slash) : components p ≠ [] := by
  obtain ⟨w, sep, q, h⟩ := exists_cut hne hhead
  exact h.components_ne_nil

/-- The part before the next component, when the walk has passed one. -/
theorem components_pass {sep : List UInt8} (hpre : pre.getLast? = some slash) (hw : w ≠ [])
    (hno : slash ∉ w) (hsep : ∀ c ∈ sep, c = slash) :
    components (pre ++ w ++ sep) = components pre ++ [w] := by
  obtain ⟨front, rfl⟩ := getLast?_eq_some_iff.mp hpre
  have hstep : components (front ++ slash :: w) = components front ++ [w] := by
    rw [components_append_slash]
    exact congrArg (components front ++ ·) (words_singleton hno hw)
  have hfront : components (front ++ [slash]) = components front := by
    rw [components_append_slash]
    exact append_nil _
  rw [components, words_append_seps hsep, ← components, hfront, ← hstep]
  simp

variable {sep q : List UInt8} {fuel : Nat}

/-- One turn of the inner loop at an entry that is no link and whose name fits
into the buffer. -/
theorem lookupWalk_cut (hcut : Cut p w sep q) (hlen : w.length ≤ 255)
    (hfind : t.find node w = some de) (hsym : de.fType ≠ .symlink) :
    lookupWalk t follow (fuel + 1) pre p node
      = if q = [] then .done de.iNo de.fType
        else if de.fType ≠ .directory ∨ t.present de.iNo = false then .fail
        else lookupWalk t follow fuel (pre ++ w ++ sep) q de.iNo := by
  have hcomp : nextComponent p = w := by rw [hcut.nextComponent_eq, take_of_length_le hlen]
  have hdrop : p.drop w.length = sep ++ q := by rw [hcut.split, drop_left]
  rw [lookupWalk]
  simp only [hcomp, hcut.ne, hdrop, hcut.seps_eq.1, hcut.seps_eq.2, hfind, hsym, if_false]

/-- A link in the last place: it is returned, or the lookup starts again. -/
theorem walkMeets_link (hcut : Cut p w sep []) (hlen : w.length ≤ 255) (hpart : dirPart path = pre)
    (hreach : Reaches t rootIno (components pre) node) (hpresent : t.present node = true)
    (hfind : t.find node w = some de) (hsym : de.fType = .symlink)
    (hlink : follow = true → ∀ de, lastLink t node [w] = some de →
      ∃ tgt np, t.targets de.iNo = some tgt ∧ restartPath (dirPart path) tgt = some np) :
    WalkMeets t follow expand path node [w] (lookupWalk t follow (fuel + 1) pre p node) := by
  subst hpart
  have hcomp : nextComponent p = w := by rw [hcut.nextComponent_eq, take_of_length_le hlen]
  have hlast : lastLink t node [w] = some de := by
    rw [lastLink, hfind, Option.bind_some, if_pos rfl, if_pos hsym]
  rw [lookupWalk]
  simp only [hcomp, hcut.ne, if_false, hfind, hsym, if_true]
  cases hf : follow with
  | false =>
    refine .done ?_
    rw [resolveWith, if_neg (by simp [hpresent]), hfind]
    simp [hsym]
  | true =>
    obtain ⟨tgt, np, htgt, hnp⟩ := hlink hf de hlast
    simp only [if_true, htgt, hnp]
    refine .again rfl hlast htgt hnp hreach ?_
    rw [resolveWith, if_neg (by simp [hpresent]), hfind]
    simp [hsym, htgt]

/-- A component that is missing. A long one is missing under the name that the
loop asks for too. -/
theorem walkMeets_missing (hcut : Cut p w sep q) (hfind : t.find node w = none)
    (hlong : w.length ≤ 255 ∨ t.find node (w.take 255) = none) :
    WalkMeets t follow expand path node (w :: components q)
      (lookupWalk t follow (fuel + 1) pre p node) := by
  have hasked : t.find node (nextComponent p) = none := by
    rw [hcut.nextComponent_eq]
    rcases hlong with hlen | hlong
    · rwa [take_of_length_le hlen]
    · exact hlong
  have hne : nextComponent p ≠ [] := by
    rw [hcut.nextComponent_eq]
    simpa using hcut.ne
  have hstep : lookupWalk t follow (fuel + 1) pre p node = .fail := by
    rw [lookupWalk]
    simp only [hne, if_false, hasked]
  rw [hstep]
  refine .fail ?_
  rw [resolveWith, hfind, ite_self]

/-- The last component, when it is no link. -/
theorem walkMeets_last (hpresent : t.present node = true) (hfind : t.find node w = some de)
    (hsym : de.fType ≠ .symlink) :
    WalkMeets t follow expand path node [w] (.done de.iNo de.fType) := by
  refine .done ?_
  rw [resolveWith, if_neg (by simp [hpresent]), hfind]
  simp [hsym]

/-- The meaning behind a component that is no link: the walk goes on in a
directory. -/
theorem resolveWith_pass {cs : List (List UInt8)} (hcs : cs ≠ [])
    (hpresent : t.present node = true) (hfind : t.find node w = some de)
    (hsym : de.fType ≠ .symlink) :
    resolveWith t follow expand node (w :: cs)
      = if de.fType = .directory then resolveWith t follow expand de.iNo cs else none := by
  rw [resolveWith, if_neg (by simp [hpresent]), hfind]
  simp only [hsym, false_and, if_false, hcs]

/-- A file in the middle of a path, or a directory that cannot be read. -/
theorem walkMeets_blocked {cs : List (List UInt8)} (hcs : cs ≠ [])
    (hpresent : t.present node = true) (hfind : t.find node w = some de)
    (hsym : de.fType ≠ .symlink) (hblocked : de.fType ≠ .directory ∨ t.present de.iNo = false) :
    WalkMeets t follow expand path node (w :: cs) .fail := by
  refine .fail ?_
  rw [resolveWith_pass hcs hpresent hfind hsym]
  obtain ⟨c, cs, rfl⟩ := exists_cons_of_ne_nil hcs
  rcases hblocked with hdir | habsent
  · rw [if_neg hdir]
  · rw [resolveWith, if_pos habsent, ite_self]

/-- The walk meets the meaning of the rest of the path. The induction is on the
turns of the loop; `pre` is what the walk has passed, and its components have
led to `node`. -/
theorem lookupWalk_meets :
    ∀ {fuel : Nat} {pre p : List UInt8} {node : Nat}, path = pre ++ p → p ≠ [] →
      p.head? ≠ some slash → pre.getLast? = some slash → p.length ≤ fuel →
      Reaches t rootIno (components pre) node → t.present node = true →
      Visits t node (components p) →
      (follow = true → ∀ de, lastLink t node (components p) = some de →
        ∃ tgt np, t.targets de.iNo = some tgt ∧ restartPath (dirPart path) tgt = some np) →
      WalkMeets t follow expand path node (components p) (lookupWalk t follow fuel pre p node) := by
  intro fuel
  induction fuel with
  | zero =>
    intro pre p node _ hne _ _ hfuel
    exact absurd (length_eq_zero_iff.mp (Nat.le_zero.mp hfuel)) hne
  | succ fuel ih =>
    intro pre p node hpath hne hhead hpre hfuel hreach hpresent hvisits hlink
    obtain ⟨w, sep, q, hcut⟩ := exists_cut hne hhead
    rw [hcut.components_eq] at hvisits hlink ⊢
    obtain ⟨hlong, hstraight⟩ := hvisits
    cases hfind : t.find node w with
    | none => exact walkMeets_missing hcut hfind (hlong.imp_right And.right)
    | some de =>
      have hlen : w.length ≤ 255 := by
        rcases hlong with hlen | ⟨hnone, -⟩
        · exact hlen
        · rw [hfind] at hnone
          cases hnone
      by_cases hq : q = []
      · subst hq
        rw [show components [] = [] from rfl] at hlink ⊢
        by_cases hsym : de.fType = .symlink
        · have hpart : dirPart path = pre := by rw [hpath, hcut.dirPart_eq hpre]
          exact walkMeets_link hcut hlen hpart hreach hpresent hfind hsym hlink
        · rw [lookupWalk_cut hcut hlen hfind hsym, if_pos rfl]
          exact walkMeets_last hpresent hfind hsym
      · have hrest : components q ≠ [] := components_ne_nil hq hcut.next
        obtain ⟨hsym, hgo⟩ := hstraight hrest de hfind
        rw [lookupWalk_cut hcut hlen hfind hsym, if_neg hq]
        by_cases hblocked : de.fType ≠ .directory ∨ t.present de.iNo = false
        · rw [if_pos hblocked]
          exact walkMeets_blocked hrest hpresent hfind hsym hblocked
        rw [if_neg hblocked]
        -- A directory: the walk goes on in it.
        obtain ⟨hdir, hp⟩ : de.fType = .directory ∧ t.present de.iNo = true := by
          simpa using hblocked
        have hres : resolveWith t follow expand node (w :: components q)
            = resolveWith t follow expand de.iNo (components q) := by
          rw [resolveWith_pass hrest hpresent hfind hsym, if_pos hdir]
        have hlast : lastLink t node (w :: components q) = lastLink t de.iNo (components q) := by
          rw [lastLink, hfind, Option.bind_some, if_neg hrest, if_pos hdir]
        have hsep : sep ≠ [] := hcut.passed hq
        refine (ih ?_ hq hcut.next ?_ ?_ ?_ hp (hgo hdir hp) (hlast ▸ hlink)).pass hres hlast
        · rw [hpath, hcut.split]
          simp
        · rw [getLast?_append, getLast?_eq_some_getLast hsep, hcut.seps _ (getLast_mem hsep)]
          rfl
        · have hlt := hcut.length_lt
          omega
        · rw [components_pass hpre hcut.ne hcut.word hcut.seps]
          exact hreach.snoc hpresent hfind hdir

end Walk

/-! ### The whole lookup -/

section Lookup

variable {t : FileTree} {follow : Bool}

variable {next : List UInt8 → Prop}

/-- The walk over a whole absolute path, from the root. -/
theorem lookupWalk_root (expand : Nat → List (List UInt8) → Option (Nat × FileType))
    (habs : path.head? = some slash) (hdirect : DirectWith t follow next path)
    (hpresent : t.present rootIno = true) (hp : p = path.dropWhile fun c => decide (c = slash))
    (hne : p ≠ []) :
    WalkMeets t follow expand path rootIno (components path)
      (lookupWalk t follow p.length (path.takeWhile fun c => decide (c = slash)) p rootIno) := by
  obtain ⟨pre, hpre⟩ : ∃ pre, pre = path.takeWhile fun c => decide (c = slash) := ⟨_, rfl⟩
  have hsplit : path = pre ++ p := by
    rw [hpre, hp]
    exact takeWhile_append_dropWhile.symm
  have hslashes : ∀ c ∈ pre, c = slash := by
    intro c hc
    rw [hpre] at hc
    simpa using mem_takeWhile_imp hc
  have hcomp : components p = components path := by
    rw [hp]
    exact words_skip
  have hprenil : components pre = [] := words_append_seps hslashes []
  have hprene : pre ≠ [] := by
    rintro rfl
    rw [hsplit] at habs
    exact head_skipped hp habs
  have hlast : pre.getLast? = some slash := by
    rw [getLast?_eq_some_getLast hprene, hslashes _ (getLast_mem hprene)]
  rw [← hpre, ← hcomp]
  refine lookupWalk_meets hsplit hne (head_skipped hp) hlast le_rfl ?_ hpresent
    (hcomp ▸ hdirect.visits) ?_
  · rw [hprenil]
    rfl
  · intro hf de hde
    obtain ⟨tgt, np, htgt, hnp, -⟩ := hdirect.link hf de (hcomp ▸ hde)
    exact ⟨tgt, np, htgt, hnp⟩

/-- One turn of the outer loop: the lookup gives the meaning of the path if it
gives the meaning of the path it starts again with. -/
theorem lookupLoop_turn {expand : Nat → List (List UInt8) → Option (Nat × FileType)} {depth : Nat}
    (habs : path.head? = some slash) (hdirect : DirectWith t follow next path)
    (hagain : ∀ np, np.head? = some slash → next np →
      lookupLoop t follow depth np = expand rootIno (components np))
    (hreach : ∀ dir cs cs', Reaches t rootIno cs dir →
      expand rootIno (cs ++ cs') = expand dir cs') :
    lookupLoop t follow (depth + 1) path
      = resolveWith t follow expand rootIno (components path) := by
  obtain ⟨p, hp⟩ : ∃ p, p = path.dropWhile fun c => decide (c = slash) := ⟨_, rfl⟩
  have hcomp : components p = components path := by
    rw [hp]
    exact words_skip
  rw [lookupLoop]
  simp only [← hp]
  by_cases hne : p = []
  · rw [if_pos hne, ← hcomp, hne]
    rfl
  rw [if_neg hne]
  by_cases hpresent : t.present rootIno = true
  · rw [if_neg (by simp [hpresent])]
    have hmeets := lookupWalk_root expand habs hdirect hpresent hp hne
    revert hmeets
    generalize lookupWalk t follow p.length (path.takeWhile fun c => decide (c = slash)) p rootIno
      = x
    intro hmeets
    cases hmeets with
    | done h => exact h.symm
    | fail h => exact h.symm
    | again hfollow hlink htgt hnp hdir h =>
      -- The condition on the path gives the condition on the next one.
      obtain ⟨tgt', np', htgt', hnp', hnext⟩ := hdirect.link hfollow _ hlink
      rw [htgt] at htgt'
      cases htgt'
      rw [hnp] at hnp'
      cases hnp'
      obtain ⟨hhead, hcs⟩ := components_restartPath (dirPart_head habs) hnp
      rw [h]
      show lookupLoop t follow depth _ = _
      rw [hagain _ hhead hnext, hcs]
      split
      · rfl
      · exact hreach _ _ _ hdir
  · rw [if_pos (by simpa using hpresent)]
    obtain ⟨c', cs, hcs⟩ := exists_cons_of_ne_nil (components_ne_nil hne (head_skipped hp))
    rw [← hcomp, hcs, resolveWith, if_pos (by simpa using hpresent)]

/-- The lookup of an absolute path gives its meaning. -/
theorem lookupLoop_eq_resolve :
    ∀ (n : Nat) {path : List UInt8}, path.head? = some slash → Direct t follow n path →
      lookupLoop t follow (n + 1) path = resolve t follow n rootIno (components path) := by
  intro n
  induction n with
  | zero =>
    intro path habs hdirect
    exact lookupLoop_turn habs hdirect (fun _ _ _ => rfl) fun _ _ _ _ => rfl
  | succ n ih =>
    intro path habs hdirect
    refine lookupLoop_turn habs hdirect (fun np hhead hnext => ih hhead hnext) ?_
    intro dir cs cs' hreach
    cases n with
    | zero => exact resolveWith_of_reaches hreach
    | succ n => exact resolveWith_of_reaches hreach

/-- The full path of a process whose working directory is `cwd`. -/
def fullPath (cwd : Option (List UInt8)) (path : List UInt8) : Option (List UInt8) :=
  if path.head? = some slash then some path
  else cwd.map fun pre =>
    if pre.getLast? = some slash then pre ++ path else pre ++ slash :: path

/-- The condition on a path and the working directory. A relative path has to
fit into the buffer together with the working directory. -/
def LookupCondition (t : FileTree) (cwd : Option (List UInt8)) (path : List UInt8)
    (follow : Bool) : Prop :=
  ∀ full, fullPath cwd path = some full →
    full.head? = some slash ∧
    (path.head? ≠ some slash → full.length + 1 < maxPathLen) ∧
    Direct t follow maxLinks full

/-- The working directory is put before a relative path. -/
theorem components_fullPath (pre path : List UInt8) :
    components (if pre.getLast? = some slash then pre ++ path else pre ++ slash :: path)
      = components pre ++ components path := by
  split
  · next h =>
      obtain ⟨front, rfl⟩ := getLast?_eq_some_iff.mp h
      have hfront : components (front ++ [slash]) = components front := by
        rw [components_append_slash]
        exact append_nil _
      rw [hfront, ← components_append_slash, append_assoc]
      rfl
  · exact components_append_slash

/-- `ext4_lookup_depth` on an absolute path. -/
theorem ext4LookupDepth_eq (habs : path.head? = some slash) (hlen : path.length < maxPathLen)
    (hdirect : Direct t follow maxLinks path) :
    ext4LookupDepth t path follow 8 = resolve t follow maxLinks rootIno (components path) := by
  rw [ext4LookupDepth, if_neg (by simpa using habs), if_neg (not_le.mpr hlen)]
  exact lookupLoop_eq_resolve maxLinks habs hdirect

/-- `ext4_abs_path` of a relative path that fits. -/
theorem ext4AbsPath_eq (hne : path ≠ []) (hrel : path.head? ≠ some slash)
    (hlen : pre.length + 1 + path.length < maxPathLen) :
    ext4AbsPath (some pre) path maxPathLen = fullPath (some pre) path := by
  rw [ext4AbsPath, if_neg hne, if_neg hrel, fullPath, if_neg hrel]
  simp only [not_le.mpr hlen, if_false, Option.map_some]
  by_cases hlast : pre.getLast? = some slash
  · have hpre : pre ≠ [] := by
      rintro rfl
      cases hlast
    rw [if_pos hlast, if_neg (by simp [hpre, hlast])]
  · rw [if_neg hlast, if_pos (.inr hlast)]

end Lookup

/-! ### A small file system -/

/-- `/l` is a link to `e/f`, `/d` a link to `e`, and `/e` a directory with the
file `f`. -/
def smallTree : FileTree where
  dirs := fun ino =>
    if ino = 2 then [⟨[108], 11, .symlink⟩, ⟨[100], 12, .symlink⟩, ⟨[101], 13, .directory⟩]
    else if ino = 13 then [⟨[102], 14, .regular⟩]
    else []
  targets := fun ino =>
    if ino = 11 then some [101, 47, 102] else if ino = 12 then some [101] else none
  present := fun _ => true

end CoreZ.Fs.Ext4
