import CoreZ.Proofs.Rbtree.Rep
import Mathlib.Order.Nat

/-!
# `CoreZ.Proofs.Rbtree.Insert`: `rb_insert`

`rep_insertFixup` runs the repair loop on a represented tree: the state
of the loop is a red subtree in a place whose nearest ancestor may be
red as well, and each round is one of the steps of
`CoreZ.Lib.RedBlack`. `rbInsert_spec` adds the search and the link.

* `rbInsertFixup_exit`: the loop ends under a black parent or at the root.
* `fixupBody_recolor`: under a red uncle the round moves up by two levels.
* `fixupBody_outer` / `fixupBody_inner`: under a black uncle one rotation, or
  two, repair the tree.
-/

set_option autoImplicit false

namespace CoreZ.Proofs.Rbtree

open CoreZ.Lib.RedBlack
open CoreZ.Lib.RedBlack.Tree
open CoreZ.Rbtree
open Option (bind_eq_bind bind_some)

/-- A search tree with the red-black invariant and a black root. -/
structure Balanced (t : Tree Nat Nat) : Prop where
  ordered : Ordered t
  valid : ∃ n, t.Valid n
  black : t.color = .black

variable {rest : Ctx Nat Nat} {f : Frame Nat Nat} {a fuel : Nat} {h : RbHeap} {t : Tree Nat Nat}

/-- Looking at the other child of the nearest ancestor. -/
theorem rep_sibling {s : Side} {c : Color} {k : Nat} {w : Tree Nat Nat} :
    Rep h (⟨s, a, c, k, w⟩ :: rest) t ↔ Rep h (⟨s.opp, a, c, k, t⟩ :: rest) w := by
  rw [rep_cons, rep_cons, Frame.fill, Frame.fill, bin_opp]

theorem Rep.root_ne_sib (hr : Rep h (f :: rest) t) (ha : t.root = some a) :
    f.sib.root ≠ some a := by
  intro hmem
  have hnd := hr.nodup
  rw [ctxLabels, List.nodup_append] at hnd
  exact hnd.2.2 a (root_mem_labels ha) a (by simp [root_mem_labels hmem]) rfl

/-- The test of the source for the side of a place. -/
theorem Rep.side_eq_of_ne (hr : Rep h (f :: rest) t) (hne : f.sib.root ≠ t.root) :
    (if (h.node f.addr).left = t.root then Side.left else Side.right) = f.side := by
  rw [hr.frame_eq]
  obtain ⟨side, addr, color, key, sib⟩ := f
  cases side with
  | left => exact if_pos rfl
  | right => exact if_neg hne

theorem Rep.side_eq (hr : Rep h (f :: rest) t) (ha : t.root = some a) :
    (if (h.node f.addr).left = some a then Side.left else Side.right) = f.side := by
  rw [← ha]
  exact hr.side_eq_of_ne (ha ▸ hr.root_ne_sib ha)

/-! ### The end of the loop -/

theorem root_fill_cons (f : Frame Nat Nat) (rest : Ctx Nat Nat) (t : Tree Nat Nat) :
    ∃ r, (fill (f :: rest) t).root = some r := by
  induction rest generalizing f t with
  | nil => exact ⟨f.addr, by rw [fill_cons, fill_nil, Frame.fill, root_bin]⟩
  | cons g rest ih => exact ih g (f.fill t)

variable {ctx : Ctx Nat Nat} {T : Tree Nat Nat} {n : Nat}

/-- `root->root->color = RB_BLACK`. -/
theorem rep_blacken (hr : Rep h ctx t) (ha : t.root = some a) :
    ∃ r, h.root = some r ∧ Rep (h.setColor r .black) [] ((fill ctx t).paint .black) := by
  have hroot : ∃ r, (fill ctx t).root = some r := by
    cases ctx with
    | nil => exact ⟨a, ha⟩
    | cons f rest => exact root_fill_cons f rest t
  obtain ⟨r, hr'⟩ := hroot
  have hrep := rep_fill.mp hr
  have hpaint := rep_setColorOf hrep .black
  rw [hr'] at hpaint
  exact ⟨r, hrep.path.trans hr', hpaint⟩

/-- The loop ends at a node without parent or with a black one. -/
theorem rbInsertFixup_exit (hr : Rep h ctx t) (ha : t.root = some a)
    (hpar : parentColor ctx ≠ some .red) {fuel : Nat} :
    ∃ h', rbInsertFixup (fuel + 1) h a = some h' ∧ Rep h' [] ((fill ctx t).paint .black) := by
  obtain ⟨r, hroot, hrep⟩ := rep_blacken hr ha
  refine ⟨_, ?_, hrep⟩
  rw [rbInsertFixup, hr.parent_eq ha]
  cases ctx with
  | nil =>
    simp only [parent, hroot]
    rfl
  | cons f rest =>
    have hcol : (h.node f.addr).color ≠ .red := by
      rw [hr.frame_eq, cell_color]
      exact fun h => hpar (by rw [parentColor, h])
    simp only [parent, if_neg hcol, hroot]
    rfl

/-! ### One round -/

section Round

variable {h : RbHeap} {pa ga a : Nat} {pk gk k : Nat} {gc : Color} {s : Side}
  {t ps gs x y : Tree Nat Nat} {rest : Ctx Nat Nat}

/-- The uncle, and the test of its color. -/
theorem uncle_eq {f : Frame Nat Nat} {c : Color} (hr : Rep h (f :: ⟨s, ga, gc, gk, gs⟩ :: rest) t)
    (hu : gs.color = c) :
    (h.node ga).child s.opp = gs.root ∧ h.isRed gs.root = decide (c = .red) := by
  have hg := rep_cons.mp hr
  rw [hg.frame_eq, cell_child_opp, isRed_root hg.path.2.1, hu]
  exact ⟨rfl, rfl⟩

/-- Red uncle. -/
theorem fixupBody_recolor {s' : Side}
    (hr : Rep h (⟨s', pa, .red, pk, ps⟩ :: ⟨s, ga, gc, gk, gs⟩ :: rest) t)
    (hu : gs.color = .red) :
    ∃ h', rbInsertFixupBody s h a pa ga = some (h', ga) ∧
      Rep h' rest (bin s ga .red gk (bin s' pa .black pk t ps) (gs.paint .black)) := by
  obtain ⟨huncle, hred : _ = true⟩ := uncle_eq hr hu
  -- parent, uncle and grandparent, in the order of the source
  have h1 := rep_setColor (rep_cons.mp hr) .black
  have h2 := rep_setColorOf (rep_sibling.mp h1) .black
  have h3 := rep_setColor (rep_cons.mp (rep_sibling.mpr h2)) .red
  refine ⟨_, ?_, h3⟩
  simp [rbInsertFixupBody, huncle, hred]

/-- Black uncle, outer side. -/
theorem fixupBody_outer (hr : Rep h (⟨s, pa, .red, pk, ps⟩ :: ⟨s, ga, gc, gk, gs⟩ :: rest) t)
    (ha : t.root = some a) (hu : gs.color = .black) :
    ∃ h', rbInsertFixupBody s h a pa ga = some (h', a) ∧
      Rep h' (⟨s, pa, .black, pk, bin s ga .red gk ps gs⟩ :: rest) t := by
  obtain ⟨huncle, hblack : _ = false⟩ := uncle_eq hr hu
  have hside : some a ≠ (h.node pa).child s.opp := by
    rw [hr.frame_eq, cell_child_opp]
    exact (hr.root_ne_sib ha).symm
  have hparent : (h.node a).parent = some pa := hr.parent_eq ha
  have h1 := rep_setColor (rep_cons.mp hr) .black
  have h2 := rep_setColor (rep_cons.mp h1) .red
  -- the grandparent read from the other side, as its rotation goes there
  rw [← bin_opp, ← bin_opp s pa] at h2
  obtain ⟨h', hrot, h3⟩ := rep_rotate h2
  refine ⟨h', ?_, ?_⟩
  · simp only [rbInsertFixupBody, huncle, hblack, Bool.false_eq_true, if_false, if_neg hside,
      bind_eq_bind, bind_some, hparent, hrot]
    rfl
  · rw [rep_cons, Frame.fill, ← bin_opp, ← bin_opp s ga]
    exact h3

/-- Black uncle, inner side. -/
theorem fixupBody_inner
    (hr : Rep h (⟨s.opp, pa, .red, pk, ps⟩ :: ⟨s, ga, gc, gk, gs⟩ :: rest) (bin s a .red k x y))
    (hu : gs.color = .black) :
    ∃ h', rbInsertFixupBody s h a pa ga = some (h', pa) ∧
      Rep h' (⟨s, a, .black, k, bin s ga .red gk y gs⟩ :: rest) (bin s pa .red pk ps x) := by
  obtain ⟨huncle, hblack : _ = false⟩ := uncle_eq hr hu
  have hside : some a = (h.node pa).child s.opp := by
    rw [hr.frame_eq, cell_child, root_bin]
  -- the first rotation, at the parent
  have h0 := rep_cons.mp hr
  rw [Frame.fill, bin_opp] at h0
  obtain ⟨h₁, hrot₁, h1⟩ := rep_rotate h0
  have hparent : (h₁.node pa).parent = some a := by
    have := (rep_cons (f := ⟨s, a, .red, k, y⟩)).mpr h1
    rw [this.node_eq, cell_parent]
    rfl
  have h2 := rep_setColor h1 .black
  have h3 := rep_setColor (rep_cons.mp h2) .red
  rw [← bin_opp, ← bin_opp s a] at h3
  obtain ⟨h', hrot, h4⟩ := rep_rotate h3
  refine ⟨h', ?_, ?_⟩
  · simp only [rbInsertFixupBody, huncle, hblack, Bool.false_eq_true, if_false, if_pos hside,
      hrot₁, Option.map_some, bind_eq_bind, bind_some, hparent, hrot]
    rfl
  · rw [rep_cons, Frame.fill, ← bin_opp, ← bin_opp s ga]
    exact h4

end Round

/-! ### The loop -/

/-- The tree a finished repair leaves: the same entries, and a valid
tree with a black root. -/
structure Repaired (h' : RbHeap) (t : Tree Nat Nat) (entries : List (Nat × Nat)) : Prop where
  rep : Rep h' [] t
  entries : t.toList = entries
  valid : ∃ n, t.Valid n
  black : t.color = .black

/-- A valid tree painted black is the end of a repair. -/
theorem repaired_paint {h' : RbHeap} (hr : Rep h' [] (T.paint .black)) (hv : T.Valid n) :
    Repaired h' (T.paint .black) T.toList :=
  ⟨hr, toList_paint, exists_valid_paint_black hv, color_paint_black T⟩

/-- Where the loop ends, the repair is finished if the whole tree is valid. -/
theorem rbInsertFixup_done (hr : Rep h ctx t) (ha : t.root = some a)
    (hpar : parentColor ctx ≠ some .red) (hv : (fill ctx t).Valid n) {fuel : Nat} :
    ∃ h' T, rbInsertFixup (fuel + 1) h a = some h' ∧ Repaired h' T (fill ctx t).toList := by
  obtain ⟨h', hrun, hrep⟩ := rbInsertFixup_exit hr ha hpar
  exact ⟨h', _, hrun, repaired_paint hrep hv⟩

/-- The loop ends after one round at a black uncle. -/
theorem rep_insertFixup_black {s s' : Side} {pa pk ga gk : Nat} {gc : Color}
    {ps gs : Tree Nat Nat} {fuel : Nat}
    (hr : Rep h (⟨s', pa, .red, pk, ps⟩ :: ⟨s, ga, gc, gk, gs⟩ :: rest) t) (ha : t.root = some a)
    (hred : t.color = .red)
    (hctx : CtxValid (⟨s', pa, .red, pk, ps⟩ :: ⟨s, ga, gc, gk, gs⟩ :: rest) n) (ht : t.Valid n)
    (hub : gs.color = .black) :
    ∃ h₁ b, rbInsertFixupBody s h a pa ga = some (h₁, b) ∧
      ∃ h' T, rbInsertFixup (fuel + 1) h₁ b = some h' ∧
        Repaired h' T (fill (⟨s', pa, .red, pk, ps⟩ :: ⟨s, ga, gc, gk, gs⟩ :: rest) t).toList := by
  by_cases hss : s' = s
  · -- the outer side: one rotation
    subst hss
    obtain ⟨h₁, hbody, hr₁⟩ := fixupBody_outer hr ha hub
    obtain ⟨hrest, hv⟩ := insert_outer hctx ht hub
    obtain ⟨⟨m, hm⟩, -⟩ := valid_fill hrest hv (fun hc => by simp at hc)
    have hlist : (fill (⟨s', pa, .red, pk, ps⟩ :: ⟨s', ga, gc, gk, gs⟩ :: rest) t).toList
        = (fill rest (bin s' pa .black pk t (bin s' ga .red gk ps gs))).toList := by
      refine toList_fill_congr rest ?_
      rw [Frame.fill, Frame.fill, ← bin_opp, ← bin_opp s', ← bin_opp s' pa, ← bin_opp s' ga]
      exact toList_rotate ..
    rw [hlist]
    exact ⟨h₁, a, hbody, rbInsertFixup_done hr₁ ha (by simp [parentColor]) hm⟩
  · -- the inner side: two rotations
    obtain rfl := Side.eq_opp_of_ne hss
    obtain ⟨b, k, x, y, rfl⟩ := exists_bin_of_red s hred
    rw [root_bin] at ha
    obtain rfl : b = a := Option.some.inj ha
    obtain ⟨h₁, hbody, hr₁⟩ := fixupBody_inner hr hub
    obtain ⟨hrest, hv⟩ := insert_inner hctx ht hub
    obtain ⟨⟨m, hm⟩, -⟩ := valid_fill hrest hv (fun hc => by simp at hc)
    have hlist : (fill (⟨s.opp, pa, .red, pk, ps⟩ :: ⟨s, ga, gc, gk, gs⟩ :: rest)
        (bin s b .red k x y)).toList
        = (fill rest (bin s b .black k (bin s pa .red pk ps x)
            (bin s ga .red gk y gs))).toList := by
      refine toList_fill_congr rest ?_
      rw [Frame.fill, Frame.fill, bin_opp]
      cases s <;> simp [bin, toList]
    rw [hlist]
    exact ⟨h₁, pa, hbody, rbInsertFixup_done hr₁ root_bin (by simp [parentColor]) hm⟩

/-- The repair loop, from a red subtree that fits except for its
color. -/
theorem rep_insertFixup : ∀ (fuel : Nat) (h : RbHeap) (ctx : Ctx Nat Nat) (t : Tree Nat Nat)
    (a n : Nat),
    Rep h ctx t → t.root = some a → t.color = .red → CtxValid ctx n → t.Valid n →
    ctx.length < fuel →
    ∃ h' T, rbInsertFixup fuel h a = some h' ∧ Repaired h' T (fill ctx t).toList := by
  intro fuel
  induction fuel with
  | zero => intro h ctx t a n _ _ _ _ _ hfuel; exact absurd hfuel (Nat.not_lt_zero _)
  | succ fuel ih =>
    intro h ctx t a n hr ha hred hctx ht hfuel
    by_cases hpar : parentColor ctx = some .red
    · -- a red parent is not the root, so there is a grandparent
      obtain ⟨⟨s', pa, pc, pk, ps⟩, rest', rfl⟩ : ∃ f rest, ctx = f :: rest := by
        cases ctx with
        | nil => exact absurd hpar (by simp [parentColor])
        | cons f rest => exact ⟨f, rest, rfl⟩
      obtain rfl : pc = .red := Option.some.inj hpar
      obtain ⟨⟨s, ga, gc, gk, gs⟩, rest, rfl⟩ : ∃ f rest, rest' = f :: rest := by
        obtain ⟨-, -, hg, -⟩ := ctxValid_red.mp hctx
        cases rest' with
        | nil => exact absurd hg (by simp [parentColor])
        | cons f rest => exact ⟨f, rest, rfl⟩
      simp only [List.length_cons] at hfuel
      have hparent : (h.node a).parent = some pa := by
        obtain ⟨b, k, x, y, rfl⟩ := exists_bin_of_red .left hred
        obtain rfl : b = a := Option.some.inj ha
        rw [hr.node_eq, cell_parent]
        rfl
      have hpnode := hr.frame_eq
      have hside := (rep_cons.mp hr).side_eq root_bin
      have hround : ∀ h' b, rbInsertFixupBody s h a pa ga = some (h', b) →
          rbInsertFixup (fuel + 1) h a = rbInsertFixup fuel h' b := by
        intro h' b hbody
        simp [rbInsertFixup, hparent, hpnode, cell_color, cell_parent, parent, hside, hbody]
      by_cases hu : gs.color = .red
      · -- a red uncle: recolour, and go on at the grandparent
        obtain ⟨h', hbody, hr'⟩ := fixupBody_recolor hr hu
        obtain ⟨hrest, hv⟩ := insert_recolor hctx ht hu
        obtain ⟨h'', T, hrun, hrep⟩ := ih h' rest _ ga (n + 1) hr' root_bin color_bin
          hrest hv (by omega)
        refine ⟨h'', T, (hround h' ga hbody).trans hrun, ?_⟩
        have hlist : (fill rest (bin s ga .red gk (bin s' pa .black pk t ps)
            (gs.paint .black))).toList
              = (fill (⟨s', pa, .red, pk, ps⟩ :: ⟨s, ga, gc, gk, gs⟩ :: rest) t).toList :=
          toList_fill_congr rest (toList_bin (toList_bin rfl rfl) (toList_paint ..))
        rw [hlist] at hrep
        exact hrep
      · -- a black uncle: one or two rotations, and the loop ends
        obtain ⟨fuel, rfl⟩ : ∃ f, fuel = f + 1 := ⟨fuel - 1, by omega⟩
        obtain ⟨h₁, b, hbody, h', T, hrun, hdone⟩ :=
          rep_insertFixup_black hr ha hred hctx ht (Color.eq_black hu)
        exact ⟨h', T, (hround h₁ b hbody).trans hrun, hdone⟩
    · -- a black parent, or none: the loop does nothing
      cases ctx with
      | nil => exact rbInsertFixup_done hr ha hpar ht
      | cons f rest =>
        have hblack : parentColor (f :: rest) = some .black := by
          have hc : f.color = .black := Color.eq_black fun h => hpar (by rw [parentColor, h])
          rw [parentColor, hc]
        obtain ⟨⟨m, hm⟩, -⟩ := valid_fill hctx ht fun _ => hblack
        exact rbInsertFixup_done hr ha hpar hm

/-! ### Search and link -/

/-- The end of a walk, as the loop of `rb_insert` reports it. -/
def searchEnd : Ctx Nat Nat × Tree Nat Nat → Nat ⊕ Option Nat
  | (ctx, nil) => .inr (parent ctx)
  | (_, node b _ _ _ _) => .inl b

/-- The search loop is the walk of the library. -/
theorem rbInsertSearch_eq (ctx : Ctx Nat Nat) (ht : RepT h (parent ctx) t) (key : Nat)
    (hfuel : t.toList.length < fuel) :
    rbInsertSearch fuel h key (parent ctx) t.root = some (searchEnd (search key ctx t)) := by
  induction t generalizing ctx fuel with
  | nil =>
    obtain ⟨fuel, rfl⟩ : ∃ f, fuel = f + 1 := ⟨fuel - 1, by omega⟩
    rfl
  | node a c k l r ihl ihr =>
    obtain ⟨fuel, rfl⟩ : ∃ f, fuel = f + 1 := ⟨fuel - 1, by omega⟩
    obtain ⟨hnode, hl, hr⟩ := ht
    rw [toList, List.length_append, List.length_cons] at hfuel
    simp only [root, rbInsertSearch, hnode, search, gt_iff_lt]
    split
    · exact ihl (⟨.left, a, c, k, r⟩ :: ctx) hl (by omega)
    split
    · exact ihr (⟨.right, a, c, k, l⟩ :: ctx) hr (by omega)
    · rfl

/-- `rb_insert` into the empty tree. -/
theorem rbInsert_empty (hr : Rep h [] nil) {a fuel : Nat} :
    ∃ h', rbInsert fuel h a = some (h', none) ∧
      Rep h' [] (node a .black (h.node a).key nil nil) := by
  have hroot : h.root = none := hr.path
  refine ⟨_, by rw [rbInsert, hroot], ⟨⟨?_, trivial, trivial⟩, ?_, List.nodup_singleton a⟩⟩
  · rw [modify_node, if_pos rfl]
    rfl
  · rfl

/-- `rb_insert` after a search that ends in an empty place. -/
theorem rbInsert_link {key : Nat} (hr : Rep h (f :: rest) nil) (hkey : (h.node a).key = key)
    (ha : a ∉ ctxLabels (f :: rest))
    (hsearch : rbInsertSearch fuel h key none h.root = some (.inr (some f.addr)))
    (hside : (if key < f.key then Side.left else Side.right) = f.side)
    (hctx : CtxValid (f :: rest) n) (hnil : (nil : Tree Nat Nat).Valid n)
    (hfuel : (f :: rest).length < fuel) :
    ∃ h' T', rbInsert fuel h a = some (h', none) ∧
      Repaired h' T' (fill (f :: rest) (node a .red key nil nil)).toList := by
  subst hkey
  obtain rfl : n = 0 := hnil
  obtain ⟨h', T', hrun, hrep⟩ := rep_insertFixup fuel _ _ _ a 0 (rep_link hr ha) rfl rfl hctx
    ⟨⟨rfl, rfl⟩, rfl, rfl⟩ hfuel
  refine ⟨h', T', ?_, hrep⟩
  have hfa : f.addr ≠ a := fun h => ha (by simp [ctxLabels, h])
  have hfkey : (h.node f.addr).key = f.key := by rw [hr.frame_eq, cell_key]
  obtain ⟨r, hroot⟩ : ∃ r, h.root = some r := by
    obtain ⟨r, hr'⟩ := root_fill_cons f rest nil
    exact ⟨r, (rep_fill.mp hr).path.trans hr'⟩
  rw [hroot] at hsearch
  simp only [rbInsert, hroot, hsearch, bind_eq_bind, bind_some, modify_node, if_true,
    if_neg hfa, hfkey, hside, hrun]
  rfl

/-- `rb_insert` into a represented tree: a node with the key is returned
and nothing changes, or the new node becomes an entry. -/
theorem rbInsert_spec (hr : Rep h [] T) (hT : Balanced T) (ha : a ∉ labels T)
    (hfuel : T.toList.length < fuel) :
    (∃ b, (b, (h.node a).key) ∈ T.toList ∧ rbInsert fuel h a = some (h, some b)) ∨
      ((∀ b, (b, (h.node a).key) ∉ T.toList) ∧
        ∃ h' T', rbInsert fuel h a = some (h', none) ∧ Rep h' [] T' ∧ Balanced T' ∧
          T'.toList.Perm ((a, (h.node a).key) :: T.toList)) := by
  generalize hkey : (h.node a).key = key
  obtain ⟨ctx, t, hend, rfl, ht, hb, hafter⟩ := search_root hT.ordered key
  have hsearch := rbInsertSearch_eq [] hr.tree key hfuel
  rw [hend, show (fill ctx t).root = h.root from hr.path.symm] at hsearch
  rcases ht with rfl | ⟨b, c, x, y, rfl⟩
  · -- the search ends at a leaf: the key is new
    refine Or.inr ⟨fun b hmem => ?_, ?_⟩
    · rw [toList_fill, toList, List.append_nil, List.mem_append] at hmem
      rcases hmem with hmem | hmem
      · exact lt_irrefl _ (hb _ hmem)
      · exact lt_irrefl _ (hafter _ hmem)
    · have hord := ordered_fill_node hT.ordered hb hafter a
      have hperm : ∀ c, (fill ctx (node a c key nil nil)).toList.Perm
          ((a, key) :: (fill ctx (nil : Tree Nat Nat)).toList) := by
        intro c
        rw [toList_fill, toList_fill, List.append_assoc, List.append_assoc]
        exact List.perm_middle
      cases ctx with
      | nil =>
        obtain ⟨h', hrun, hrep⟩ := rbInsert_empty hr
        rw [hkey] at hrep
        exact ⟨h', _, hrun, hrep, ⟨hord .black, ⟨1, rfl, rfl⟩, rfl⟩, hperm .black⟩
      | cons f rest =>
        have hctxl : a ∉ ctxLabels (f :: rest) := fun hmem =>
          ha ((perm_labels_fill (f :: rest) nil).mem_iff.mpr hmem)
        obtain ⟨m, hv⟩ := hT.valid
        obtain ⟨n, hctx, hnil, -⟩ := ctxValid_of_valid_fill hv hT.black
        have hlen := length_le_toList_fill (f :: rest) (nil : Tree Nat Nat)
        obtain ⟨h', T', hrun, hrep⟩ := rbInsert_link (rep_fill.mpr hr) hkey hctxl hsearch
          (side_of_bounds hb hafter) hctx hnil (by omega)
        refine ⟨h', T', hrun, hrep.rep, ⟨?_, hrep.valid, hrep.black⟩, ?_⟩
        · rw [Ordered, hrep.entries]
          exact hord .red
        · rw [hrep.entries]
          exact hperm .red
  · -- the key is there: its node is returned and nothing changes
    refine Or.inl ⟨b, by rw [toList_fill]; simp [toList], ?_⟩
    obtain ⟨r, hroot⟩ : ∃ r, h.root = some r := by
      cases ctx with
      | nil => exact ⟨b, hr.path⟩
      | cons f rest =>
        obtain ⟨r, hr'⟩ := root_fill_cons f rest (node b c key x y)
        exact ⟨r, hr.path.trans hr'⟩
    rw [hroot] at hsearch
    simp only [parent] at hsearch
    simp only [rbInsert, hroot, hkey, hsearch, searchEnd, bind_eq_bind, bind_some]
    rfl

end CoreZ.Proofs.Rbtree
