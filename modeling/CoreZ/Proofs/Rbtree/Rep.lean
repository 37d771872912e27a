import CoreZ.Rbtree

/-!
# `CoreZ.Proofs.Rbtree.Rep`: heaps that represent a tree

`Rep h ctx t` says that the heap `h` holds the tree `fill ctx t`, seen
from the place `ctx`: every node of `t` and of the context has the
fields the tree asks for, parent pointers included, and no address
occurs twice. Moving the place up or down changes nothing in the heap
(`rep_cons`).

The pointer operations of the source are then local changes of the tree
at the place: `rep_setColor` recolors its root, `rep_rotate` rotates it,
`rep_link` puts a new node into an empty place, `rep_unlink` takes a
node with one child out, `rep_replace` puts another node in its
position. The fixup loops are built from the first two, so no proof
about them looks at a pointer.
-/

set_option autoImplicit false

namespace CoreZ.Proofs.Rbtree

open CoreZ.Lib.RedBlack
open CoreZ.Lib.RedBlack.Tree
open CoreZ.Rbtree
open List (perm_middle cons_append nodup_cons mem_append nodup_append mem_cons)

/-! ### Labels -/

/-- The addresses of a tree. -/
def labels : Tree Nat Nat → List Nat
  | nil => []
  | node a _ _ l r => a :: labels l ++ labels r

/-- The addresses of a context. -/
def ctxLabels : Ctx Nat Nat → List Nat
  | [] => []
  | f :: rest => f.addr :: labels f.sib ++ ctxLabels rest

attribute [local simp] labels ctxLabels

/-- The addresses along a path that is put together. -/
theorem ctxLabels_append (c₁ c₂ : Ctx Nat Nat) :
    ctxLabels (c₁ ++ c₂) = ctxLabels c₁ ++ ctxLabels c₂ := by
  induction c₁ with
  | nil => rfl
  | cons f rest ih => simp [ih]

/-- The addresses of a node and its subtrees, whichever side comes first. -/
theorem perm_labels_bin {s : Side} {a : Nat} {c : Color} {k : Nat} {x y : Tree Nat Nat} :
    (labels (bin s a c k x y)).Perm (a :: labels x ++ labels y) := by
  cases s with
  | left => exact List.Perm.refl _
  | right => exact List.Perm.cons a List.perm_append_comm

/-- The addresses of a tree are those of its entries. -/
theorem perm_labels_toList {t : Tree Nat Nat} : (labels t).Perm (t.toList.map Prod.fst) := by
  induction t with
  | nil => exact List.Perm.refl _
  | node a c k l r ihl ihr =>
    rw [toList, List.map_append, List.map_cons]
    exact ((ihl.append ihr).cons a).trans perm_middle.symm

/-- The addresses of a tree are those of the subtree and of the path to it. -/
theorem perm_labels_fill (ctx : Ctx Nat Nat) (t : Tree Nat Nat) :
    (labels (fill ctx t)).Perm (labels t ++ ctxLabels ctx) := by
  induction ctx generalizing t with
  | nil => simp
  | cons f rest ih =>
    rw [fill_cons, ctxLabels]
    refine (ih _).trans ?_
    refine ((perm_labels_bin ..).append_right _).trans ?_
    rw [← List.append_assoc]
    exact perm_middle.symm.append_right _

/-! ### Representation -/

/-- A node with the pointer `x` on the side `s` and `y` on the other. -/
def cell (s : Side) (p x y : Option Nat) (c : Color) (k : Nat) : RbNode :=
  match s with
  | .left => ⟨p, x, y, c, k⟩
  | .right => ⟨p, y, x, c, k⟩

section Cell

variable (s : Side) (p x y : Option Nat) (c : Color) (k : Nat)

@[simp] theorem cell_parent : (cell s p x y c k).parent = p := by cases s <;> rfl

@[simp] theorem cell_child : (cell s p x y c k).child s = x := by cases s <;> rfl

@[simp] theorem cell_child_opp : (cell s p x y c k).child s.opp = y := by cases s <;> rfl

@[simp] theorem cell_color : (cell s p x y c k).color = c := by cases s <;> rfl

@[simp] theorem cell_key : (cell s p x y c k).key = k := by cases s <;> rfl

@[simp] theorem cell_withChild (q : Option Nat) :
    (cell s p x y c k).withChild s q = cell s p q y c k := by cases s <;> rfl

@[simp] theorem cell_withChild_opp (q : Option Nat) :
    (cell s p x y c k).withChild s.opp q = cell s p x q c k := by cases s <;> rfl

@[simp] theorem cell_withParent (q : Option Nat) :
    (cell s p x y c k).withParent q = cell s q x y c k := by cases s <;> rfl

@[simp] theorem cell_withColor (c' : Color) :
    (cell s p x y c k).withColor c' = cell s p x y c' k := by cases s <;> rfl

end Cell

/-- The nodes of a tree under the parent `p`. -/
def RepT (h : RbHeap) : Option Nat → Tree Nat Nat → Prop
  | _, nil => True
  | p, node a c k l r =>
    h.node a = ⟨p, l.root, r.root, c, k⟩ ∧ RepT h (some a) l ∧ RepT h (some a) r

/-- The nodes of a context whose place holds the pointer `q`. -/
def RepC (h : RbHeap) : Ctx Nat Nat → Option Nat → Prop
  | [], q => h.root = q
  | f :: rest, q =>
    h.node f.addr = cell f.side (parent rest) q f.sib.root f.color f.key ∧
      RepT h (some f.addr) f.sib ∧ RepC h rest (some f.addr)

/-- The heap holds `t` at the place `ctx`. -/
structure Rep (h : RbHeap) (ctx : Ctx Nat Nat) (t : Tree Nat Nat) : Prop where
  tree : RepT h (parent ctx) t
  path : RepC h ctx t.root
  nodup : (labels t ++ ctxLabels ctx).Nodup

variable {c : Color} {ctx rest : Ctx Nat Nat} {f : Frame Nat Nat} {a k : Nat} {p q : Option Nat}
  {h h' : RbHeap} {s : Side} {t x y : Tree Nat Nat}

/-- A represented tree: the record of its root, and its two subtrees. -/
theorem repT_bin :
    RepT h p (bin s a c k x y) ↔
      h.node a = cell s p x.root y.root c k ∧ RepT h (some a) x ∧ RepT h (some a) y := by
  cases s with
  | left => exact Iff.rfl
  | right => exact and_congr_right fun _ => and_comm

/-- The place moves; the heap stays. -/
theorem rep_cons : Rep h (f :: rest) t ↔ Rep h rest (f.fill t) := by
  have hperm : (labels t ++ ctxLabels (f :: rest)).Perm (labels (f.fill t) ++ ctxLabels rest) :=
    (perm_labels_fill (f :: rest) t).symm.trans (perm_labels_fill rest (f.fill t))
  constructor
  · rintro ⟨htree, ⟨hnode, hsib, hrest⟩, hnodup⟩
    refine ⟨repT_bin.mpr ⟨hnode, htree, hsib⟩, ?_, hperm.nodup_iff.mp hnodup⟩
    rw [Frame.fill, root_bin]
    exact hrest
  · rintro ⟨htree, hrest, hnodup⟩
    obtain ⟨hnode, ht, hsib⟩ := repT_bin.mp htree
    rw [Frame.fill, root_bin] at hrest
    exact ⟨ht, ⟨hnode, hsib, hrest⟩, hperm.nodup_iff.mpr hnodup⟩

/-- From the root. -/
theorem rep_fill : Rep h ctx t ↔ Rep h [] (fill ctx t) := by
  induction ctx generalizing t with
  | nil => exact Iff.rfl
  | cons f rest ih => rw [rep_cons, fill_cons, ih]

/-! ### Frames -/

/-- A subtree depends on the records at its own addresses only. -/
theorem RepT.congr (ht : RepT h p t) (heq : ∀ a ∈ labels t, h'.node a = h.node a) :
    RepT h' p t := by
  induction t generalizing p with
  | nil => trivial
  | node a c k l r ihl ihr =>
    obtain ⟨hnode, hl, hr⟩ := ht
    refine ⟨?_, ihl hl fun b hb => heq b ?_, ihr hr fun b hb => heq b ?_⟩
    · rw [heq a (by simp), hnode]
    · simp [hb]
    · simp [hb]

/-- The path above depends on its own records and on the root. -/
theorem RepC.congr (hc : RepC h ctx q) (hroot : h'.root = h.root)
    (heq : ∀ a ∈ ctxLabels ctx, h'.node a = h.node a) : RepC h' ctx q := by
  induction ctx generalizing q with
  | nil => exact hroot.trans hc
  | cons f rest ih =>
    obtain ⟨hnode, hsib, hrest⟩ := hc
    refine ⟨?_, hsib.congr fun b hb => heq b ?_, ih hrest fun b hb => heq b ?_⟩
    · rw [heq f.addr (by simp), hnode]
    · simp [hb]
    · simp [hb]

/-- The tree moves under another parent. -/
theorem RepT.reparent (ht : RepT h p t) (hnodup : (labels t).Nodup)
    (hroot : ∀ a, t.root = some a → h'.node a = (h.node a).withParent q)
    (heq : ∀ a ∈ labels t, t.root ≠ some a → h'.node a = h.node a) : RepT h' q t := by
  cases t with
  | nil => trivial
  | node a c k l r =>
    obtain ⟨hnode, hl, hr⟩ := ht
    have hne : ∀ b, b ∈ labels l ∨ b ∈ labels r → b ≠ a := by
      rintro b hb rfl
      rw [labels, cons_append, nodup_cons, mem_append] at hnodup
      exact hnodup.1 hb
    refine ⟨?_, hl.congr fun b hb => heq b (by simp [hb]) ?_,
      hr.congr fun b hb => heq b (by simp [hb]) ?_⟩
    · rw [hroot a rfl, hnode]
      rfl
    · exact fun h => hne b (.inl hb) (Option.some.inj h).symm
    · exact fun h => hne b (.inr hb) (Option.some.inj h).symm

/-- The place gets another pointer. -/
theorem RepC.replace {q' : Option Nat} (hc : RepC h ctx q) (hnodup : (ctxLabels ctx).Nodup)
    (hroot : h'.root = if ctx = [] then q' else h.root) (hlink : ∀ f rest, ctx = f :: rest →
      h'.node f.addr = (h.node f.addr).withChild f.side q')
    (heq : ∀ a ∈ ctxLabels ctx, parent ctx ≠ some a → h'.node a = h.node a) : RepC h' ctx q' := by
  cases ctx with
  | nil => exact hroot
  | cons f rest =>
    obtain ⟨hnode, hsib, hrest⟩ := hc
    have hne : ∀ b, b ∈ labels f.sib ∨ b ∈ ctxLabels rest → b ≠ f.addr := by
      rintro b hb rfl
      rw [ctxLabels, cons_append, nodup_cons, mem_append] at hnodup
      exact hnodup.1 hb
    refine ⟨?_, hsib.congr fun b hb => heq b (by simp [hb]) ?_,
      hrest.congr hroot fun b hb => heq b (by simp [hb]) ?_⟩
    · rw [hlink f rest rfl, hnode, cell_withChild]
    · exact fun h => hne b (.inl hb) (Option.some.inj h).symm
    · exact fun h => hne b (.inr hb) (Option.some.inj h).symm

/-! ### Writes -/

section Writes

variable (h : RbHeap) (a b : Nat) (s : Side) (p q : Option Nat) (c : Color)

/-- One record is changed. -/
@[simp] theorem modify_node (f : RbNode → RbNode) :
    (h.modify a f).node b = if b = a then f (h.node b) else h.node b := by
  unfold RbHeap.modify
  simp only [Function.update_apply]
  split
  · next heq => rw [heq]
  · rfl

@[simp] theorem setParent_root : (h.setParent a p).root = h.root := rfl

@[simp] theorem setChild_root : (h.setChild s a q).root = h.root := rfl

@[simp] theorem setParentOf_root : (h.setParentOf q p).root = h.root := by
  cases q <;> rfl

@[simp] theorem setParent_node :
    (h.setParent a p).node b = if b = a then (h.node b).withParent p else h.node b :=
  modify_node ..

@[simp] theorem setColor_node :
    (h.setColor a c).node b = if b = a then (h.node b).withColor c else h.node b :=
  modify_node ..

@[simp] theorem setChild_node :
    (h.setChild s a q).node b = if b = a then (h.node b).withChild s q else h.node b :=
  modify_node ..

@[simp] theorem setParentOf_node :
    (h.setParentOf q p).node b = if q = some b then (h.node b).withParent p else h.node b := by
  cases q with
  | none => rfl
  | some a =>
    rw [RbHeap.setParentOf, setParent_node]
    simp only [Option.some.injEq, eq_comm]

/-- The root pointer moves only when the node had no parent. -/
@[simp] theorem replaceChild_root (old new : Option Nat) :
    (h.replaceChild p old new).root = if p = none then new else h.root := by
  cases p with
  | none => rfl
  | some p =>
    simp only [RbHeap.replaceChild]
    split <;> rfl

/-- The parent's pointer to the old child is the one that moves. -/
@[simp] theorem replaceChild_node (old new : Option Nat) :
    (h.replaceChild p old new).node b =
      if p = some b then
        (h.node b).withChild (if (h.node b).left = old then .left else .right) new
      else h.node b := by
  cases p with
  | none => rfl
  | some p =>
    simp only [RbHeap.replaceChild, Option.some.injEq]
    by_cases hb : p = b
    · subst hb
      split <;> simp
    · have hb' : ¬ b = p := fun h => hb h.symm
      split <;> simp [hb']

end Writes

/-- The root of a tree is one of its addresses. -/
theorem root_mem_labels (h : t.root = some a) : a ∈ labels t := by
  cases t with
  | nil => exact absurd h (by simp [root])
  | node b c k l r =>
    obtain rfl : b = a := Option.some.inj h
    simp

/-- The parent is on the path. -/
theorem parent_mem_ctxLabels (h : parent ctx = some a) : a ∈ ctxLabels ctx := by
  cases ctx with
  | nil => exact absurd h (by simp [parent])
  | cons f rest =>
    obtain rfl : f.addr = a := Option.some.inj h
    simp

/-- The test of the source for the side of a child gives the side of the
frame. -/
theorem side_of_left (hc : RepC h (f :: rest) (some a)) (ha : a ∉ labels f.sib) :
    (if (h.node f.addr).left = some a then Side.left else Side.right) = f.side := by
  obtain ⟨hnode, -, -⟩ := hc
  obtain ⟨side, addr, color, key, sib⟩ := f
  cases side with
  | left => rw [hnode]; exact if_pos rfl
  | right =>
    rw [hnode]
    exact if_neg fun h => ha (root_mem_labels h)

/-- `replaceChild` on the link of a place. -/
theorem repC_replaceChild (q : Option Nat) (hc : RepC h ctx (some a))
    (hnodup : (a :: ctxLabels ctx).Nodup) :
    RepC (h.replaceChild (parent ctx) (some a) q) ctx q := by
  rw [nodup_cons] at hnodup
  refine hc.replace hnodup.2 ?_ ?_ ?_
  · rw [replaceChild_root]
    cases ctx <;> simp [parent]
  · rintro f rest rfl
    have ha : a ∉ labels f.sib := fun h => hnodup.1 (by simp [h])
    rw [replaceChild_node, parent, if_pos rfl, side_of_left hc ha]
  · intro b _ hb
    rw [replaceChild_node, if_neg hb]

/-! ### Colors -/

/-- Recoloring the root of the place. -/
theorem rep_setColor (hr : Rep h ctx (bin s a c k x y)) (c' : Color) :
    Rep (h.setColor a c') ctx (bin s a c' k x y) := by
  obtain ⟨htree, hpath, hnodup⟩ := hr
  obtain ⟨hnode, hx, hy⟩ := repT_bin.mp htree
  have hlabels : (labels (bin s a c' k x y) ++ ctxLabels ctx).Nodup := by
    cases s <;> exact hnodup
  have hmem : ∀ b, b ∈ labels x ∨ b ∈ labels y ∨ b ∈ ctxLabels ctx → b ≠ a := by
    rintro b hb rfl
    have h' := ((perm_labels_bin.append_right _).nodup_iff.mp hnodup)
    simp only [cons_append, nodup_cons, mem_append, not_or] at h'
    tauto
  refine ⟨repT_bin.mpr ⟨?_, hx.congr fun b hb => ?_, hy.congr fun b hb => ?_⟩, ?_, hlabels⟩
  · rw [setColor_node, if_pos rfl, hnode, cell_withColor]
  · rw [setColor_node, if_neg (hmem b (.inl hb))]
  · rw [setColor_node, if_neg (hmem b (.inr (.inl hb)))]
  · rw [root_bin] at hpath ⊢
    refine hpath.congr rfl fun b hb => ?_
    rw [setColor_node, if_neg (hmem b (.inr (.inr hb)))]

/-- Painting the root of the place, if it has one. -/
theorem rep_setColorOf (hr : Rep h ctx t) (c : Color) :
    Rep (h.setColorOf t.root c) ctx (t.paint c) := by
  cases t with
  | nil => exact hr
  | node a d k l r => exact rep_setColor (s := .left) hr c

/-- The color test of the source. -/
theorem isRed_root (ht : RepT h p t) : h.isRed t.root = decide (t.color = .red) := by
  cases t with
  | nil => rfl
  | node a c k l r =>
    show decide ((h.node a).color = .red) = _
    rw [ht.1]
    rfl

/-- The node at the root of the place. -/
theorem Rep.node_eq (hr : Rep h ctx (bin s a c k x y)) :
    h.node a = cell s (parent ctx) x.root y.root c k :=
  (repT_bin.mp hr.tree).1

/-- The parent field of a subtree's root names the last node of the path. -/
theorem Rep.parent_eq (hr : Rep h ctx t) (ha : t.root = some a) :
    (h.node a).parent = parent ctx := by
  cases t with
  | nil => cases ha
  | node b c k l r =>
    obtain rfl : b = a := Option.some.inj ha
    rw [hr.tree.1]

/-- The node of the nearest ancestor. -/
theorem Rep.frame_eq (hr : Rep h (f :: rest) t) :
    h.node f.addr = cell f.side (parent rest) t.root f.sib.root f.color f.key := hr.path.1

/-! ### Rotations -/

/-- The heap after a rotation of `x` over its child `y`, whose inner
subtree has the root `b`. -/
def rotated (s : Side) (h : RbHeap) (x y : Nat) (p b : Option Nat) : RbHeap :=
  (((((h.setChild s.opp x b).setParentOf b (some x)).setParent y p).replaceChild p (some x)
    (some y)).setChild s y (some x)).setParent x (some y)

/-- The reads of a rotation. -/
theorem rbRotate_eq {x y : Nat} {a b c : Option Nat} {cx cy : Color} {j : Nat}
    (hx : h.node x = cell s p a (some y) cx k) (hy : h.node y = cell s (some x) b c cy j)
    (hxy : x ≠ y) (hbx : b ≠ some x) : rbRotate s h x = some (rotated s h x y p b) := by
  have hyx : y ≠ x := Ne.symm hxy
  have hchild : (h.node x).child s.opp = some y := by rw [hx, cell_child_opp]
  simp only [rbRotate, hchild, Option.bind_eq_bind, Option.bind_some, Option.pure_def, rotated]
  simp [hyx, hxy, hbx, hx, hy]

/-- A rotation writes `x`, `y`, the inner subtree's root and the
parent. -/
theorem rotated_node_of_ne {x y : Nat} {b : Option Nat} (hx : a ≠ x) (hy : a ≠ y) (hb : b ≠ some a)
    (hp : p ≠ some a) : (rotated s h x y p b).node a = h.node a := by
  simp [rotated, hx, hy, hb, hp]

section

variable (s : Side) (x y : Nat) (c d : Color) (k j : Nat) (A B C : Tree Nat Nat)

/-- The addresses before a rotation. -/
theorem perm_labels_rotate :
    (labels (bin s x c k A (bin s y d j B C))).Perm
      (x :: y :: (labels A ++ labels B ++ labels C)) := by
  refine (perm_labels_bin ..).trans (List.Perm.cons x ?_)
  refine (perm_labels_bin.append_left (labels A)).trans ?_
  rw [List.append_assoc]
  exact perm_middle

/-- The same addresses after it. -/
theorem perm_labels_rotated :
    (labels (bin s y d j (bin s x c k A B) C)).Perm
      (x :: y :: (labels A ++ labels B ++ labels C)) := by
  refine (perm_labels_bin ..).trans ?_
  refine ((perm_labels_bin.append_right (labels C)).cons y).trans ?_
  exact List.Perm.swap x y _

end

/-- A rotation at the place. -/
theorem rep_rotate {x y : Nat} {d : Color} {j : Nat} {A B C : Tree Nat Nat}
    (hr : Rep h ctx (bin s x c k A (bin s y d j B C))) :
    ∃ h', rbRotate s h x = some h' ∧ Rep h' ctx (bin s y d j (bin s x c k A B) C) := by
  obtain ⟨htree, hpath, hnodup⟩ := hr
  obtain ⟨hx, hA, hyt⟩ := repT_bin.mp htree
  obtain ⟨hy, hB, hC⟩ := repT_bin.mp hyt
  rw [root_bin] at hx hpath
  -- no address occurs twice, before and after
  have hnd := ((perm_labels_rotate s x y c d k j A B C).append_right _).nodup_iff.mp hnodup
  have hnodup' : (labels (bin s y d j (bin s x c k A B) C) ++ ctxLabels ctx).Nodup :=
    ((perm_labels_rotated s x y c d k j A B C).append_right _).nodup_iff.mpr hnd
  simp only [cons_append, nodup_cons, nodup_append, mem_cons, mem_append, not_or] at hnd
  obtain ⟨⟨hxy, ⟨⟨hxA, hxB⟩, hxC⟩, hxctx⟩, ⟨⟨⟨hyA, hyB⟩, hyC⟩, hyctx⟩,
    ⟨⟨hAn, hBn, hAB⟩, hCn, hABC⟩, hctxn, hall⟩ := hnd
  have hPx : parent ctx ≠ some x := fun h => hxctx (parent_mem_ctxLabels h)
  have hPy : parent ctx ≠ some y := fun h => hyctx (parent_mem_ctxLabels h)
  have hBx : B.root ≠ some x := fun h => hxB (root_mem_labels h)
  have hBy : B.root ≠ some y := fun h => hyB (root_mem_labels h)
  have hyx : y ≠ x := Ne.symm hxy
  have hP : ∀ a, (a ∈ labels A ∨ a ∈ labels B) ∨ a ∈ labels C → parent ctx ≠ some a :=
    fun a ha h => hall a ha a (parent_mem_ctxLabels h) rfl
  have hBctx : ∀ a ∈ ctxLabels ctx, B.root ≠ some a :=
    fun a ha h => hall a (.inl (.inr (root_mem_labels h))) a ha rfl
  refine ⟨_, rbRotate_eq hx hy hxy hBx,
    repT_bin.mpr ⟨?_, repT_bin.mpr ⟨?_, ?_, ?_⟩, ?_⟩, ?_, hnodup'⟩
  · simp [rotated, hyx, hPy, hBy, hy]
  · simp [rotated, hxy, hPx, hBx, hx]
  · refine hA.congr fun a ha => rotated_node_of_ne ?_ ?_ ?_ (hP a (.inl (.inl ha)))
    · exact fun h => hxA (h ▸ ha)
    · exact fun h => hyA (h ▸ ha)
    · exact fun h => hAB a ha a (root_mem_labels h) rfl
  · -- the inner subtree moves from `y` to `x`
    refine hB.reparent hBn (fun a ha => ?_) (fun a ha hne => rotated_node_of_ne ?_ ?_ hne ?_)
    · have hax : a ≠ x := fun h => hBx (h ▸ ha)
      have hay : a ≠ y := fun h => hBy (h ▸ ha)
      have hpa := hP a (.inl (.inr (root_mem_labels ha)))
      simp [rotated, hax, hay, hpa, ha]
    · exact fun h => hxB (h ▸ ha)
    · exact fun h => hyB (h ▸ ha)
    · exact hP a (.inl (.inr ha))
  · refine hC.congr fun a ha => rotated_node_of_ne ?_ ?_ ?_ (hP a (.inr ha))
    · exact fun h => hxC (h ▸ ha)
    · exact fun h => hyC (h ▸ ha)
    · exact fun h => hABC a (.inr (root_mem_labels h)) a ha rfl
  · refine hpath.replace hctxn ?_ ?_ ?_
    · simp only [rotated, setParent_root, setChild_root, replaceChild_root, setParentOf_root]
      cases ctx <;> simp [parent]
    · rintro f rest rfl
      have hfx : f.addr ≠ x := fun h => hxctx (by simp [h])
      have hfy : f.addr ≠ y := fun h => hyctx (by simp [h])
      have hfB := hBctx f.addr (by simp)
      have hside := side_of_left hpath fun h => hxctx (by simp [h])
      simp [rotated, hfx, hfy, hfB, hside, parent]
    · intro a ha hne
      refine rotated_node_of_ne ?_ ?_ (hBctx a ha) hne
      · exact fun h => hxctx (h ▸ ha)
      · exact fun h => hyctx (h ▸ ha)

/-! ### Nodes in and out -/

/-- A write to an address outside the tree. -/
theorem rep_modify_of_notMem (hr : Rep h ctx t) (ha : a ∉ labels t ++ ctxLabels ctx)
    (f : RbNode → RbNode) : Rep (h.modify a f) ctx t := by
  rw [mem_append, not_or] at ha
  refine ⟨hr.tree.congr fun b hb => ?_, hr.path.congr rfl fun b hb => ?_, hr.nodup⟩
  · have hne : b ≠ a := fun h => ha.1 (h ▸ hb)
    rw [modify_node, if_neg hne]
  · have hne : b ≠ a := fun h => ha.2 (h ▸ hb)
    rw [modify_node, if_neg hne]

/-- A new red node in an empty place. -/
theorem rep_link {h : RbHeap} {f : Frame Nat Nat} {rest : Ctx Nat Nat} (hr : Rep h (f :: rest) nil)
    {a : Nat} (ha : a ∉ ctxLabels (f :: rest)) :
    Rep ((h.modify a fun n =>
        { n with parent := some f.addr, left := none, right := none, color := .red }).setChild
          f.side
          f.addr (some a)) (f :: rest) (node a .red (h.node a).key nil nil) := by
  have hfa : f.addr ≠ a := fun h => ha (by simp [h])
  refine ⟨⟨?_, trivial, trivial⟩, hr.path.replace hr.nodup ?_ ?_ ?_, ?_⟩
  · rw [setChild_node, if_neg (Ne.symm hfa), modify_node, if_pos rfl]
    rfl
  · rfl
  · rintro g rest' heq
    obtain ⟨rfl, rfl⟩ := List.cons.inj heq
    rw [setChild_node, if_pos rfl, modify_node, if_neg hfa]
    rfl
  · intro b hb hne
    have hba : b ≠ a := fun h => ha (h ▸ hb)
    have hbf : b ≠ f.addr := fun h => hne (by rw [h]; rfl)
    rw [setChild_node, if_neg hbf, modify_node, if_neg hba]
  · exact nodup_cons.mpr ⟨ha, hr.nodup⟩

/-- A node with an empty subtree gives its place to the other one. -/
theorem rep_unlink {z : Nat} (hr : Rep h ctx (bin s z c k nil x)) :
    Rep ((h.setParentOf x.root (parent ctx)).replaceChild (parent ctx) (some z) x.root) ctx x := by
  obtain ⟨htree, hpath, hnodup⟩ := hr
  obtain ⟨-, -, hx⟩ := repT_bin.mp htree
  rw [root_bin] at hpath
  have hnd := (perm_labels_bin.append_right _).nodup_iff.mp hnodup
  simp only [labels, cons_append, List.nil_append, nodup_cons, nodup_append,
    mem_append, not_or] at hnd
  obtain ⟨⟨-, hzctx⟩, hxn, hctxn, hdisj⟩ := hnd
  have hxctx : ∀ a ∈ ctxLabels ctx, x.root ≠ some a :=
    fun a ha h => hdisj a (root_mem_labels h) a ha rfl
  have hpx : ∀ a ∈ labels x, parent ctx ≠ some a :=
    fun a ha h => hdisj a ha a (parent_mem_ctxLabels h) rfl
  refine ⟨hx.reparent hxn (fun a ha => ?_) (fun a ha hne => ?_), ?_,
    nodup_append.mpr ⟨hxn, hctxn, hdisj⟩⟩
  · rw [replaceChild_node, if_neg (hpx a (root_mem_labels ha)), setParentOf_node, if_pos ha]
  · rw [replaceChild_node, if_neg (hpx a ha), setParentOf_node, if_neg hne]
  · refine repC_replaceChild x.root (hpath.congr (setParentOf_root ..) fun a ha => ?_)
      (nodup_cons.mpr ⟨hzctx, hctxn⟩)
    rw [setParentOf_node, if_neg (hxctx a ha)]

/-- The heap after the node `y` has taken the position of `z`, which has
the parent `p`, the color `c` and the subtrees at `l` and `r`. -/
def replaced (h : RbHeap) (y z : Nat) (p l r : Option Nat) (c : Color) : RbHeap :=
  (((h.modify y fun n => { n with parent := p, color := c, left := l, right := r }).replaceChild p
    (some z) (some y)).setParentOf l (some y)).setParentOf r (some y)

/-- Another node in the position of `z`. -/
theorem rep_replace {z : Nat} {l r : Tree Nat Nat} (hr : Rep h ctx (node z c k l r)) {y : Nat}
    (hy : y ∉ labels (node z c k l r) ++ ctxLabels ctx) :
    Rep (replaced h y z (parent ctx) l.root r.root c) ctx (node y c (h.node y).key l r) := by
  obtain ⟨⟨-, hl, hrt⟩, hpath, hnodup⟩ := hr
  simp only [labels, cons_append, nodup_cons, nodup_append, mem_append,
    mem_cons, not_or] at hnodup hy
  obtain ⟨⟨-, hzctx⟩, ⟨hln, hrn, hlr⟩, hctxn, hall⟩ := hnodup
  obtain ⟨hyz, ⟨hyl, hyr⟩, hyctx⟩ := hy
  have hlctx : ∀ a ∈ ctxLabels ctx, l.root ≠ some a :=
    fun a ha h => hall a (.inl (root_mem_labels h)) a ha rfl
  have hrctx : ∀ a ∈ ctxLabels ctx, r.root ≠ some a :=
    fun a ha h => hall a (.inr (root_mem_labels h)) a ha rfl
  have hp : ∀ a, a ∈ labels l ∨ a ∈ labels r → parent ctx ≠ some a :=
    fun a ha h => hall a ha a (parent_mem_ctxLabels h) rfl
  have hpy : parent ctx ≠ some y := fun h => hyctx (parent_mem_ctxLabels h)
  have hly : l.root ≠ some y := fun h => hyl (root_mem_labels h)
  have hry : r.root ≠ some y := fun h => hyr (root_mem_labels h)
  unfold replaced
  refine ⟨⟨?_, ?_, ?_⟩, ?_, ?_⟩
  · simp [hly, hry, hpy]
  · refine hl.reparent hln (fun a ha => ?_) (fun a ha hne => ?_)
    · have hay : a ≠ y := fun h => hly (h ▸ ha)
      have hra : r.root ≠ some a := fun h => hlr a (root_mem_labels ha) a (root_mem_labels h) rfl
      simp [ha, hra, hay, hp a (.inl (root_mem_labels ha))]
    · have hay : a ≠ y := fun h => hyl (h ▸ ha)
      have hra : r.root ≠ some a := fun h => hlr a ha a (root_mem_labels h) rfl
      simp [hne, hra, hay, hp a (.inl ha)]
  · refine hrt.reparent hrn (fun a ha => ?_) (fun a ha hne => ?_)
    · have hay : a ≠ y := fun h => hry (h ▸ ha)
      have hla : l.root ≠ some a := fun h => hlr a (root_mem_labels h) a (root_mem_labels ha) rfl
      simp [ha, hla, hay, hp a (.inr (root_mem_labels ha))]
    · have hay : a ≠ y := fun h => hyr (h ▸ ha)
      have hla : l.root ≠ some a := fun h => hlr a (root_mem_labels h) a ha rfl
      simp [hne, hla, hay, hp a (.inr ha)]
  · -- the link, then two writes below the place
    have hpath' : RepC (h.modify y fun n =>
        { n with parent := parent ctx, color := c, left := l.root, right := r.root }) ctx
          (some z) :=
      hpath.congr rfl fun a ha => by
        have hne : a ≠ y := fun h => hyctx (h ▸ ha)
        rw [modify_node, if_neg hne]
    refine (repC_replaceChild (some y) hpath' (nodup_cons.mpr ⟨hzctx, hctxn⟩)).congr
      (by simp) fun a ha => ?_
    rw [setParentOf_node, if_neg (hrctx a ha), setParentOf_node, if_neg (hlctx a ha)]
  · simp only [labels, cons_append, nodup_cons, nodup_append, mem_append,
      not_or]
    exact ⟨⟨⟨hyl, hyr⟩, hyctx⟩, ⟨hln, hrn, hlr⟩, hctxn, hall⟩

end CoreZ.Proofs.Rbtree
