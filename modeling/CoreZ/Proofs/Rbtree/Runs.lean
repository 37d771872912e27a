import CoreZ.Lib.Run
import CoreZ.Proofs.Rbtree.Erase

/-!
# `CoreZ.Proofs.Rbtree.Runs`: the tree as a dictionary

What the tree is for: a dictionary from keys to nodes. `Dict` is that
view, with its own insertion and removal, and `Refines h d n` says that
the heap `h` holds a red-black search tree with the entries of `d`, of
at most `n` nodes. Every operation of the source refines its operation
on dictionaries, so every sequence of them does.

Keys are `uint64_t` in the source, of which the code uses the order
only; the theorems hold for all natural numbers.
-/

set_option autoImplicit false

namespace CoreZ.Proofs.Rbtree

open CoreZ.Lib
open CoreZ.Lib.RedBlack
open CoreZ.Lib.RedBlack.Tree
open CoreZ.Rbtree
open Function

/-! ### Dictionaries -/

/-- The node of every key. -/
abbrev Dict := Nat → Option Nat

def Dict.empty : Dict := fun _ => none

/-- A key that is present keeps its node. -/
def Dict.insert (d : Dict) (node key : Nat) : Dict :=
  if d key = none then Function.update d key (some node) else d

def Dict.erase (d : Dict) (node : Nat) : Dict := fun k => if d k = some node then none else d k

/-- The node is in the dictionary. -/
def Dict.Has (d : Dict) (node : Nat) : Prop := ∃ k, d k = some node

/-- The node with the least key; `none` in the empty dictionary. -/
def Dict.IsFirst (d : Dict) : Option Nat → Prop
  | none => d = Dict.empty
  | some a => ∃ k, d k = some a ∧ ∀ j, d j ≠ none → k ≤ j

inductive RbOp where
  | insert (node key : Nat)
  | erase (node : Nat)

/-- One call of the source. The caller of `rb_insert` fills in the key
of its node first. -/
def rbStep (fuel : Nat) (h : RbHeap) : RbOp → Option RbHeap
  | .insert a k => (rbInsert fuel (h.setKey a k) a).map Prod.fst
  | .erase a => rbErase fuel h a

def dictStep (d : Dict) : RbOp → Dict
  | .insert a k => d.insert a k
  | .erase a => d.erase a

/-- Inserted nodes are not in the tree, erased ones are. -/
def Legal (d : Dict) : RbOp → Prop
  | .insert a _ => ¬ d.Has a
  | .erase a => d.Has a

/-- Every operation of the list is legal when its turn comes. -/
def LegalRun (ops : List RbOp) : Prop :=
  Along (fun d op => some (dictStep d op)) Legal Dict.empty ops

/-! ### Refinement -/

/-- The entries of the tree are those of the dictionary. -/
def Entries (t : Tree Nat Nat) (d : Dict) : Prop := ∀ a k, (a, k) ∈ t.toList ↔ d k = some a

/-- The heap holds a red-black search tree for the dictionary. -/
def Refines (h : RbHeap) (d : Dict) (n : Nat) : Prop :=
  ∃ t, Rep h [] t ∧ Balanced t ∧ Entries t d ∧ t.toList.length ≤ n

variable {d : Dict} {a fuel n : Nat} {h : RbHeap} {t : Tree Nat Nat}

/-- The nodes of the tree are those of the dictionary. -/
theorem Entries.mem_labels (he : Entries t d) {a : Nat} : a ∈ labels t ↔ d.Has a := by
  rw [perm_labels_toList.mem_iff, List.mem_map]
  constructor
  · rintro ⟨⟨b, k⟩, hmem, rfl⟩
    exact ⟨k, (he b k).mp hmem⟩
  · rintro ⟨k, hk⟩
    exact ⟨(a, k), (he a k).mpr hk, rfl⟩

/-- An empty root is the empty dictionary. -/
theorem refines_empty (hroot : h.root = none) : Refines h Dict.empty 0 := by
  refine ⟨nil, ⟨trivial, hroot, List.nodup_nil⟩, ⟨List.Pairwise.nil, ⟨0, rfl⟩, rfl⟩, fun a k => ?_,
    le_refl 0⟩
  simp [toList, Dict.empty]

/-- The caller's write of a key, to a node outside the tree. -/
theorem Rep.setKey (hr : Rep h [] t) (ha : a ∉ labels t) (k : Nat) : Rep (h.setKey a k) [] t :=
  rep_modify_of_notMem hr (by simpa [ctxLabels] using ha) _

theorem setKey_key (h : RbHeap) (a k : Nat) : ((h.setKey a k).node a).key = k := by
  rw [RbHeap.setKey, modify_node, if_pos rfl]

section

variable (hR : Refines h d n) (hfuel : n < fuel)

include hR hfuel

/-- Inserting a key that is present returns its node and writes
nothing. -/
theorem rbInsert_present {k b : Nat} (ha : ¬ d.Has a) (hk : d k = some b) :
    rbInsert fuel (h.setKey a k) a = some (h.setKey a k, some b) := by
  obtain ⟨t, hr, ht, he, hlen⟩ := hR
  have hlab : a ∉ labels t := fun hmem => ha (he.mem_labels.mp hmem)
  rcases rbInsert_spec (hr.setKey hlab k) ht hlab (lt_of_le_of_lt hlen hfuel) with
    ⟨c, hmem, hrun⟩ | ⟨hno, -⟩
  · rw [setKey_key] at hmem
    obtain rfl : b = c := Option.some.inj (hk.symm.trans ((he c k).mp hmem))
    exact hrun
  · rw [setKey_key] at hno
    exact absurd ((he b k).mpr hk) (hno b)

/-- Inserting a key that is absent. -/
theorem rbInsert_absent {k : Nat} (ha : ¬ d.Has a) (hk : d k = none) :
    ∃ h', rbInsert fuel (h.setKey a k) a = some (h', none) ∧
      Refines h' (update d k (some a)) (n + 1) := by
  obtain ⟨t, hr, ht, he, hlen⟩ := hR
  have hlab : a ∉ labels t := fun hmem => ha (he.mem_labels.mp hmem)
  rcases rbInsert_spec (hr.setKey hlab k) ht hlab (lt_of_le_of_lt hlen hfuel) with
    ⟨c, hmem, -⟩ | ⟨-, h', t', hrun, hr', ht', hperm⟩
  · rw [setKey_key] at hmem
    rw [(he c k).mp hmem] at hk
    cases hk
  · rw [setKey_key] at hperm
    refine ⟨h', hrun, t', hr', ht', fun b j => ?_, ?_⟩
    · rw [hperm.mem_iff, List.mem_cons, Prod.mk.injEq, he b j, update_apply]
      by_cases hj : j = k
      · subst hj
        simp [hk, eq_comm]
      · simp [hj]
    · rw [hperm.length_eq, List.length_cons]
      omega

/-- Erasing a node erases its key. -/
theorem rbErase_refines (ha : d.Has a) :
    ∃ h', rbErase fuel h a = some h' ∧ Refines h' (d.erase a) n := by
  obtain ⟨t, hr, ht, he, hlen⟩ := hR
  obtain ⟨k, hk⟩ := ha
  obtain ⟨h', t', hrun, hr', ht', hperm⟩ :=
    rbErase_spec hr ht ((he a k).mpr hk) (lt_of_le_of_lt hlen hfuel)
  refine ⟨h', hrun, t', hr', ht', fun b j => ?_, ?_⟩
  · -- the node occurs once, so the entries left are those of other nodes
    have hnd : ((a, k) :: t'.toList).map Prod.fst |>.Nodup := by
      refine (perm_labels_toList.trans (hperm.map Prod.fst)).nodup_iff.mp ?_
      exact (List.nodup_append.mp hr.nodup).1
    have hb : (b, j) ∈ t'.toList → b ≠ a := by
      rintro hmem rfl
      exact (List.nodup_cons.mp hnd).1 (List.mem_map.mpr ⟨(b, j), hmem, rfl⟩)
    have hmem := hperm.mem_iff (a := (b, j))
    rw [he b j, List.mem_cons, Prod.mk.injEq] at hmem
    rw [Dict.erase]
    constructor
    · intro hbj
      have hd := hmem.mpr (Or.inr hbj)
      rw [hd, if_neg fun h => hb hbj (Option.some.inj h)]
    · intro hd
      split at hd
      · cases hd
      next hne =>
        rcases hmem.mp hd with ⟨rfl, -⟩ | hbj
        · exact absurd hd hne
        · exact hbj
  · have := hperm.length_eq
    rw [List.length_cons] at this
    omega

/-- One legal call. -/
theorem refines_step {op : RbOp} (hlegal : Legal d op) :
    ∃ h', rbStep fuel h op = some h' ∧ Refines h' (dictStep d op) (n + 1) := by
  cases op with
  | insert a k =>
    cases hk : d k with
    | none =>
      obtain ⟨h', hrun, hR'⟩ := rbInsert_absent hR hfuel hlegal hk
      refine ⟨h', by rw [rbStep, hrun]; rfl, ?_⟩
      rw [dictStep, Dict.insert, if_pos hk]
      exact hR'
    | some b =>
      have hrun := rbInsert_present hR hfuel hlegal hk
      refine ⟨h.setKey a k, by rw [rbStep, hrun]; rfl, ?_⟩
      rw [dictStep, Dict.insert, if_neg (by rw [hk]; simp)]
      obtain ⟨t, hr, ht, he, hlen⟩ := hR
      have hlab : a ∉ labels t := fun hmem => hlegal (he.mem_labels.mp hmem)
      exact ⟨t, hr.setKey hlab k, ht, he, Nat.le_succ_of_le hlen⟩
  | erase a =>
    obtain ⟨h', hrun, t, hr, ht, he, hlen⟩ := rbErase_refines hR hfuel hlegal
    exact ⟨h', hrun, t, hr, ht, he, Nat.le_succ_of_le hlen⟩

end

/-- Every sequence of legal calls. -/
theorem refines_run (fuel : Nat) : ∀ (ops : List RbOp) (h : RbHeap) (d : Dict) (n : Nat),
    Refines h d n → n + ops.length < fuel →
    Along (fun d op => some (dictStep d op)) Legal d ops →
    ∃ h', run (rbStep fuel) h ops = some h' ∧
      Refines h' (ops.foldl dictStep d) (n + ops.length) := by
  intro ops
  induction ops with
  | nil => intro h d n hR _ _; exact ⟨h, rfl, hR⟩
  | cons op ops ih =>
    intro h d n hR hfuel hlegal
    rw [List.length_cons] at hfuel
    have hn : n < fuel := by omega
    obtain ⟨h₁, hstep, hR₁⟩ := refines_step hR hn hlegal.1
    obtain ⟨h', hrun, hR'⟩ := ih h₁ (dictStep d op) (n + 1) hR₁ (by omega) (hlegal.2 _ rfl)
    refine ⟨h', run_cons_eq_some.mpr ⟨h₁, hstep, hrun⟩, ?_⟩
    rw [List.length_cons, show n + (ops.length + 1) = n + 1 + ops.length by omega]
    exact hR'

/-! ### Lookup -/

/-- The loop of `rb_find` is the one of `rb_insert`, which also keeps the
parent. -/
theorem rbFindLoop_eq (key : Nat) (p cur : Option Nat) :
    rbFindLoop fuel h key cur = (rbInsertSearch fuel h key p cur).map
      (Sum.elim some fun _ => none) := by
  induction fuel generalizing p cur with
  | zero => rfl
  | succ fuel ih =>
    cases cur with
    | none => rfl
    | some a =>
      simp only [rbFindLoop, rbInsertSearch]
      split_ifs
      · exact ih _ _
      · exact ih _ _
      · rfl

/-- The search finds what the dictionary has. -/
theorem rbFind_refines (hR : Refines h d n) (hfuel : n < fuel) (k : Nat) :
    rbFind fuel h k = some (d k) := by
  obtain ⟨t, hr, ht, he, hlen⟩ := hR
  have hloop := rbInsertSearch_eq [] hr.tree k (lt_of_le_of_lt hlen hfuel)
  rw [show t.root = h.root from hr.path.symm] at hloop
  rw [rbFind, rbFindLoop_eq k none, show (none : Option Nat) = parent [] from rfl, hloop]
  obtain ⟨ctx, t', hsearch, rfl, hend, hb, ha⟩ := search_root ht.ordered k
  rw [hsearch]
  rcases hend with rfl | ⟨a, c, l, r, rfl⟩
  · cases hk : d k with
    | none => rfl
    | some a =>
      have hmem := (he a k).mpr hk
      rw [toList_fill, toList, List.append_nil, List.mem_append] at hmem
      rcases hmem with hmem | hmem
      · exact absurd (hb _ hmem) (lt_irrefl _)
      · exact absurd (ha _ hmem) (lt_irrefl _)
  · rw [(he a k).mp (by rw [toList_fill]; simp [toList])]
    rfl

/-- A path has at most two nodes for each black one, and one more below a
red root: with a round for each, more change nothing. -/
theorem rbFindLoop_congr {p : Option Nat} {m : Nat} (ht : RepT h p t) (hv : t.Valid n) (k : Nat)
    (hfuel : 2 * n + 1 < fuel ∨ 2 * n < fuel ∧ t.color = .black) (hm : fuel ≤ m) :
    rbFindLoop fuel h k t.root = rbFindLoop m h k t.root := by
  induction t generalizing p n fuel m with
  | nil => cases fuel <;> cases m <;> first | rfl | omega
  | node a c key l r ihl ihr =>
    obtain ⟨hnode, hl, hr⟩ := ht
    rcases fuel with _ | fuel
    · omega
    rcases m with _ | m
    · omega
    -- the children of a red node are black, those of a black one are lower
    obtain ⟨j, hvl, hvr, hj⟩ : ∃ j, l.Valid j ∧ r.Valid j ∧
        (2 * j + 1 < fuel ∨ 2 * j < fuel ∧ l.color = .black ∧ r.color = .black) := by
      cases c with
      | red =>
        obtain hlt | ⟨-, hc⟩ := hfuel
        · exact ⟨n, hv.2.1, hv.2.2, .inr ⟨by omega, hv.1⟩⟩
        · cases hc
      | black =>
        cases n with
        | zero => exact hv.elim
        | succ n => exact ⟨n, hv.1, hv.2, .inl (by omega)⟩
    rw [root]
    simp only [rbFindLoop, hnode]
    have hm : fuel ≤ m := by omega
    rw [ihl hl hvl (by tauto) hm, ihr hr hvr (by tauto) hm]

/-- The first node has the least key. -/
theorem rbFirst_refines (hR : Refines h d n) (hfuel : n < fuel) :
    ∃ q, rbFirst fuel h = some q ∧ d.IsFirst q := by
  obtain ⟨t, hr, ht, he, hlen⟩ := hR
  have hroot : h.root = t.root := hr.path
  rw [rbFirst, hroot]
  cases htr : t.root with
  | none =>
    obtain rfl := eq_nil_of_root htr
    refine ⟨none, rfl, funext fun k => ?_⟩
    cases hk : d k with
    | none => rfl
    | some a => exact absurd ((he a k).mpr hk) List.not_mem_nil
  | some r =>
    have hlen' : t.toList.length ≤ fuel := by omega
    obtain ⟨path, y, c, k, x, rfl, hside, hrun⟩ := rbSuccessor_spec hr.tree htr hlen'
    have hlist : (fill path (node y c k nil x)).toList = (y, k) :: (x.toList ++ after path) := by
      rw [toList_fill, before_eq_nil hside]
      simp [toList]
    refine ⟨some y, by simp [hrun], k,
      (he y k).mp (by rw [hlist]; exact List.mem_cons_self), fun j hj => ?_⟩
    obtain ⟨b, hb⟩ := Option.ne_none_iff_exists'.mp hj
    have hmem := (he b j).mpr hb
    have hord := ht.ordered
    rw [hlist] at hmem
    rw [Ordered, hlist, List.pairwise_cons] at hord
    rcases List.mem_cons.mp hmem with heq | hmem
    · rw [(Prod.mk.inj heq).2]
    · exact le_of_lt (hord.1 _ hmem)

/-! ### Every sequence of operations -/

/-- After every legal sequence of insertions and removals the heap holds
a red-black search tree with the entries of the dictionary, `rb_find`
and `rb_first` answer as the dictionary does, and an insertion of a
present key returns its node and changes nothing. -/
theorem rbtree_refines_dict (fuel : Nat) (h₀ : RbHeap) (ops : List RbOp) (hroot : h₀.root = none)
    (hlegal : LegalRun ops) (hfuel : ops.length < fuel) :
    ∃ h, run (rbStep fuel) h₀ ops = some h ∧
      Refines h (ops.foldl dictStep Dict.empty) ops.length ∧
      (∀ k, rbFind fuel h k = some (ops.foldl dictStep Dict.empty k)) ∧
      (∃ q, rbFirst fuel h = some q ∧ (ops.foldl dictStep Dict.empty).IsFirst q) ∧
      ∀ a k b, ¬ (ops.foldl dictStep Dict.empty).Has a →
        ops.foldl dictStep Dict.empty k = some b →
        rbInsert fuel (h.setKey a k) a = some (h.setKey a k, some b) := by
  obtain ⟨h, hrun, hR⟩ := refines_run fuel ops h₀ Dict.empty 0 (refines_empty hroot)
    (by omega) hlegal
  rw [Nat.zero_add] at hR
  exact ⟨h, hrun, hR, rbFind_refines hR hfuel, rbFirst_refines hR hfuel,
    fun a k b ha hk => rbInsert_present hR hfuel ha hk⟩

/-- Three insertions, one of a present key, and a removal. -/
def sampleOps : List RbOp := [.insert 0 5, .insert 1 3, .insert 2 5, .erase 0]

theorem legalRun_sampleOps : LegalRun sampleOps := by
  have hstep : ∀ (d : Dict) (op : RbOp) (ops : List RbOp), Legal d op →
      Along (fun d op => some (dictStep d op)) Legal (dictStep d op) ops →
      Along (fun d op => some (dictStep d op)) Legal d (op :: ops) :=
    fun d op ops hop hops => Along.cons hop rfl hops
  refine hstep _ _ _ ?_ (hstep _ _ _ ?_ (hstep _ _ _ ?_ (hstep _ _ _ ?_ trivial)))
  · rintro ⟨k, hk⟩
    cases hk
  · rintro ⟨k, hk⟩
    simp [dictStep, Dict.insert, Dict.empty, update_apply] at hk
  · rintro ⟨k, hk⟩
    simp [dictStep, Dict.insert, Dict.empty, update_apply] at hk
    split at hk
    · simp at hk
    · split at hk <;> simp at hk
  · exact ⟨5, by simp [dictStep, Dict.insert, Dict.empty]⟩

theorem rbtree_refines_dict_sample :
    ∃ h, run (rbStep 9) ⟨none, fun _ => ⟨none, none, none, .black, 0⟩⟩ sampleOps = some h ∧
      rbFind 9 h 3 = some (some 1) ∧ rbFind 9 h 5 = some none := by
  obtain ⟨h, hrun, -, hfind, -⟩ := rbtree_refines_dict 9
    ⟨none, fun _ => ⟨none, none, none, .black, 0⟩⟩ sampleOps rfl legalRun_sampleOps (by decide)
  exact ⟨h, hrun, (hfind 3).trans (by decide), (hfind 5).trans (by decide)⟩

/-- After every legal sequence of calls `rb_find` answers as the
dictionary does, in rounds logarithmic in the number of nodes. -/
theorem rbFind_logarithmic (fuel : Nat) (h₀ : RbHeap) (ops : List RbOp) (hroot : h₀.root = none)
    (hlegal : LegalRun ops) (hfuel : ops.length < fuel) :
    ∃ h t, run (rbStep fuel) h₀ ops = some h ∧ Rep h [] t ∧
      Entries t (ops.foldl dictStep Dict.empty) ∧
      ∀ k rounds, 2 * (t.toList.length + 1).log2 < rounds →
        rbFind rounds h k = some (ops.foldl dictStep Dict.empty k) := by
  obtain ⟨h, hrun, hR⟩ := refines_run fuel ops h₀ _ 0 (refines_empty hroot) (by omega) hlegal
  obtain ⟨t, hr, ht, he, -⟩ := id hR
  refine ⟨h, t, hrun, hr, he, fun k rounds hrounds => ?_⟩
  obtain ⟨n, hv⟩ := ht.valid
  have hn := hv.le_log2
  rw [← rbFind_refines hR (show _ < rounds + (0 + ops.length) + 1 by omega) k, rbFind, rbFind,
    show h.root = t.root from hr.path]
  exact rbFindLoop_congr hr.tree hv k (.inr ⟨(by omega : 2 * n < rounds), ht.black⟩) (by omega)

theorem rbFind_logarithmic_sample :
    ∃ h t, Rep h [] t ∧ rbFind (2 * (t.toList.length + 1).log2 + 1) h 3 = some (some 1) := by
  obtain ⟨h, t, -, hr, -, hfind⟩ := rbFind_logarithmic 9
    ⟨none, fun _ => ⟨none, none, none, .black, 0⟩⟩ sampleOps rfl legalRun_sampleOps (by decide)
  exact ⟨h, t, hr, (hfind 3 _ (Nat.lt_succ_self _)).trans (by decide)⟩

end CoreZ.Proofs.Rbtree
