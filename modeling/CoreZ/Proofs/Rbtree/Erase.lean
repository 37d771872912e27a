import CoreZ.Proofs.Rbtree.Insert

/-!
# `CoreZ.Proofs.Rbtree.Erase`: `rb_erase`

The repair loop of a deletion keeps a subtree that is one black node
short of its place (`Short`); `rep_eraseFixup` runs it, with one lemma
for each branch of its body. `rbErase_spec` puts the two ways of taking
a node out of the tree in front of it:

* `unlinked_one`: a node with at most one child, which takes its place.
* `unlinked_two`: a node with two children, whose successor is moved to its
  place (`rep_unlinkSuccessor`, `rep_takePosition`).
-/

set_option autoImplicit false

namespace CoreZ.Proofs.Rbtree

open CoreZ.Lib.RedBlack
open CoreZ.Lib.RedBlack.Tree
open CoreZ.Rbtree
open Option (bind_eq_bind bind_some)

/-! ### One round -/

variable {c : Color} {ctx rest : Ctx Nat Nat} {a fuel k n z : Nat} {h : RbHeap} {s : Side}
  {l r t w x : Tree Nat Nat}

section Round

variable {h : RbHeap} {s : Side} {pa wa va : Nat} {pk wk vk : Nat} {pc : Color}
  {t x y z : Tree Nat Nat} {rest : Ctx Nat Nat}

/-- The color tests on the children of a node. -/
theorem isRed_children (hr : Rep h ctx (bin s wa c wk x y)) :
    h.isRed ((h.node wa).child s) = decide (x.color = .red) ∧
      h.isRed ((h.node wa).child s.opp) = decide (y.color = .red) := by
  obtain ⟨hnode, hx, hy⟩ := repT_bin.mp hr.tree
  rw [hnode, cell_child, cell_child_opp, isRed_root hx, isRed_root hy]
  exact ⟨rfl, rfl⟩

/-- The test for two black children does not depend on the side. -/
theorem black_children_iff (hr : Rep h ctx (bin s wa c wk x y)) :
    (h.isRed (h.node wa).left = false ∧ h.isRed (h.node wa).right = false) ↔
      x.color = .black ∧ y.color = .black := by
  have hblack : ∀ d : Color, decide (d = .red) = false ↔ d = .black := by
    intro d
    cases d <;> decide
  obtain ⟨hx, hy⟩ := isRed_children hr
  cases s with
  | left =>
    change h.isRed (h.node wa).left = _ at hx
    change h.isRed (h.node wa).right = _ at hy
    rw [hx, hy, hblack, hblack]
  | right =>
    change h.isRed (h.node wa).right = _ at hx
    change h.isRed (h.node wa).left = _ at hy
    rw [hx, hy, hblack, hblack, and_comm]

/-- Red sibling. -/
theorem eraseSibling_red (hr : Rep h (⟨s, pa, pc, pk, bin s wa .red wk x y⟩ :: rest) t) :
    ∃ h', rbEraseFixupSibling s h pa = some (h', x.root) ∧
      Rep h' (⟨s, pa, .red, pk, x⟩ :: ⟨s, wa, .black, wk, y⟩ :: rest) t := by
  have hw := rep_sibling.mp hr
  have hchild : (h.node pa).child s.opp = some wa := by rw [hr.frame_eq, cell_child_opp, root_bin]
  have hcol : (h.node wa).color = .red := by rw [hw.node_eq, cell_color]
  have h1 := rep_setColor hw .black
  have h2 := rep_setColor (rep_cons.mp (rep_sibling.mpr h1)) .red
  obtain ⟨h', hrot, h3⟩ := rep_rotate h2
  have h4 : Rep h' (⟨s, pa, .red, pk, x⟩ :: ⟨s, wa, .black, wk, y⟩ :: rest) t :=
    rep_cons.mpr (rep_cons.mpr h3)
  refine ⟨h', ?_, h4⟩
  have hx : (h'.node pa).child s.opp = x.root := by rw [h4.frame_eq, cell_child_opp]
  simp only [rbEraseFixupSibling, hchild, hcol, if_true, hrot, bind_eq_bind, bind_some, hx]
  rfl

/-- Black sibling. -/
theorem eraseSibling_black (hr : Rep h (⟨s, pa, pc, pk, w⟩ :: rest) t) (hw : w.color = .black) :
    rbEraseFixupSibling s h pa = some (h, w.root) := by
  have hchild : (h.node pa).child s.opp = w.root := by rw [hr.frame_eq, cell_child_opp]
  rw [rbEraseFixupSibling, hchild]
  cases w with
  | nil => rfl
  | node a c k l r =>
    obtain rfl : c = .black := hw
    have hcol : (h.node a).color = .black := by rw [hr.path.2.1.1]
    simp [root, hcol]

section

variable (hr : Rep h (⟨s, pa, pc, pk, bin s wa .black wk x y⟩ :: rest) t)

include hr

/-- Black sibling with black children. -/
theorem eraseBlack_recolor (hx : x.color = .black) (hy : y.color = .black) :
    ∃ h', rbEraseFixupBlack s h pa (some wa) = some (h', some pa, some (parent rest)) ∧
      Rep h' rest (bin s pa pc pk t (bin s wa .red wk x y)) := by
  have hw := rep_sibling.mp hr
  have h1 := rep_sibling.mpr (rep_setColor hw .red)
  refine ⟨_, ?_, rep_cons.mp h1⟩
  have hparent : ((h.setColor wa .red).node pa).parent = parent rest := by
    rw [h1.frame_eq, cell_parent]
  simp only [rbEraseFixupBlack, if_pos ((black_children_iff hw).mpr ⟨hx, hy⟩), hparent]

/-- The last writes of the body and the rotation after them. -/
theorem eraseBlack_finish :
    ∃ h', rbRotate s
        (let h := h.setColor wa (h.node pa).color
         let h := h.setColor pa .black
         h.setColorOf ((h.node wa).child s.opp) .black) pa = some h' ∧
      Rep h' rest (bin s wa pc wk (bin s pa .black pk t x) (y.paint .black)) := by
  have hcol : (h.node pa).color = pc := by rw [hr.frame_eq, cell_color]
  have h1 := rep_sibling.mpr (rep_setColor (rep_sibling.mp hr) pc)
  have h2 := rep_setColor (rep_cons.mp h1) .black
  -- down to the outer child of the sibling and up again
  have h2w : Rep ((h.setColor wa pc).setColor pa .black) (⟨s.opp, pa, .black, pk, t⟩ :: rest)
      (bin s wa pc wk x y) := rep_sibling.mp (rep_cons.mpr h2)
  have hout : (((h.setColor wa pc).setColor pa .black).node wa).child s.opp = y.root := by
    rw [h2w.node_eq, cell_child_opp]
  have h2y : Rep ((h.setColor wa pc).setColor pa .black)
      (⟨s.opp, wa, pc, wk, x⟩ :: ⟨s.opp, pa, .black, pk, t⟩ :: rest) y := by
    rw [rep_cons, Frame.fill, bin_opp]
    exact h2w
  have h3 := rep_setColorOf h2y .black
  rw [rep_cons, Frame.fill, bin_opp, rep_cons, Frame.fill, bin_opp] at h3
  obtain ⟨h', hrot, h4⟩ := rep_rotate h3
  refine ⟨h', ?_, h4⟩
  simp only [hcol, hout]
  exact hrot

/-- Black sibling with a red child on the outer side. -/
theorem eraseBlack_outer (hy : y.color = .red) :
    ∃ h', rbEraseFixupBlack s h pa (some wa) = some (h', h'.root, none) ∧
      Rep h' rest (bin s wa pc wk (bin s pa .black pk t x) (y.paint .black)) := by
  have hw := rep_sibling.mp hr
  have hnot : ¬ (h.isRed (h.node wa).left = false ∧ h.isRed (h.node wa).right = false) := by
    rw [black_children_iff hw, hy]
    simp
  have hout : ¬ h.isRed ((h.node wa).child s.opp) = false := by
    rw [(isRed_children hw).2, hy]
    simp
  obtain ⟨h', hrot, hrep⟩ := eraseBlack_finish hr
  refine ⟨h', ?_, hrep⟩
  simp only [rbEraseFixupBlack, if_neg hnot, if_neg hout, bind_eq_bind, bind_some]
  rw [hrot]
  rfl

end

theorem setColorOf_some (a : Nat) (c : Color) : h.setColorOf (some a) c = h.setColor a c := rfl

/-- Black sibling with a red child on the inner side only. -/
theorem eraseBlack_inner
    (hr : Rep h (⟨s, pa, pc, pk, bin s wa .black wk (bin s va .red vk x y) z⟩ :: rest) t)
    (hz : z.color = .black) :
    ∃ h', rbEraseFixupBlack s h pa (some wa) = some (h', h'.root, none) ∧
      Rep h' rest (bin s va pc vk (bin s pa .black pk t x) (bin s wa .black wk y z)) := by
  have hw := rep_sibling.mp hr
  have hnot : ¬ (h.isRed (h.node wa).left = false ∧ h.isRed (h.node wa).right = false) := by
    rw [black_children_iff hw, color_bin]
    simp
  have hout : h.isRed ((h.node wa).child s.opp) = false := by
    rw [(isRed_children hw).2, hz]
    rfl
  have hin : (h.node wa).child s = some va := by rw [hw.node_eq, cell_child, root_bin]
  -- the inner child turns black, the sibling red, and they rotate
  have hv : Rep h (⟨s, wa, .black, wk, z⟩ :: ⟨s.opp, pa, pc, pk, t⟩ :: rest)
      (bin s va .red vk x y) := rep_cons.mpr hw
  have h1 := rep_setColor (rep_cons.mp (rep_setColor hv .black)) .red
  rw [← bin_opp, ← bin_opp s va] at h1
  obtain ⟨h₁, hrot₁, h2⟩ := rep_rotate h1
  rw [bin_opp, bin_opp] at h2
  have h3 : Rep h₁ (⟨s, pa, pc, pk, bin s va .black vk x (bin s wa .red wk y z)⟩ :: rest) t :=
    rep_sibling.mpr h2
  have hsib : (h₁.node pa).child s.opp = some va := by
    rw [h3.frame_eq, cell_child_opp, root_bin]
  obtain ⟨h', hrot, hrep⟩ := eraseBlack_finish h3
  refine ⟨h', ?_, ?_⟩
  · simp only [rbEraseFixupBlack, if_neg hnot, if_pos hout, bind_eq_bind, bind_some,
      hin, setColorOf_some, hrot₁, hsib]
    rw [hrot]
    rfl
  · rw [paint_bin] at hrep
    exact hrep

end Round

/-! ### The loop -/

/-- The body with a black sibling: the parent is short now, or the
repair is done. -/
theorem eraseBlack_spec {h : RbHeap} {s : Side} {pa pk n : Nat} {pc : Color} {t w : Tree Nat Nat}
    {rest : Ctx Nat Nat} (hr : Rep h (⟨s, pa, pc, pk, w⟩ :: rest) t)
    (hctx : CtxValid (⟨s, pa, pc, pk, w⟩ :: rest) (n + 1)) (ht : t.Valid n)
    (hw : w.color = .black) :
    (∃ h' t' m, rbEraseFixupBlack s h pa w.root = some (h', t'.root, some (parent rest)) ∧
      Rep h' rest t' ∧ t'.toList = (bin s pa pc pk t w).toList ∧ CtxValid rest (m + 1) ∧
      Short t' m ∧ t'.color = pc) ∨
    (∃ h' t' m, rbEraseFixupBlack s h pa w.root = some (h', h'.root, none) ∧
      Rep h' rest t' ∧ t'.toList = (bin s pa pc pk t w).toList ∧ CtxValid rest m ∧ t'.Valid m ∧
      (t'.color = .red → parentColor rest = some .black)) := by
  have hv : w.Valid (n + 1) := hctx.1
  obtain ⟨wa, c, wk, x, y, rfl⟩ := exists_bin_of_valid_succ s hv
  obtain rfl : c = .black := by rw [color_bin] at hw; exact hw
  rw [root_bin]
  by_cases hy : y.color = .red
  · -- a red outer nephew: one rotation, and the loop ends
    obtain ⟨h', hrun, hrep⟩ := eraseBlack_outer hr hy
    obtain ⟨m, hrest, hm, hpar⟩ := erase_outer hctx ht hy
    refine .inr ⟨h', _, m, hrun, hrep, ?_, hrest, hm, ?_⟩
    · rw [← toList_rotate s pa wa pc pc .black .black pk wk t x (y.paint .black)]
      exact toList_bin rfl (toList_bin rfl (toList_paint ..))
    · rw [color_bin]
      exact hpar
  · have hyb := Color.eq_black hy
    by_cases hx : x.color = .red
    · -- a red inner nephew: a rotation makes it the case before
      obtain ⟨va, vk, x₁, x₂, rfl⟩ := exists_bin_of_red s hx
      obtain ⟨h', hrun, hrep⟩ := eraseBlack_inner hr hyb
      have hctx' := hctx.withSib (erase_inner hv hyb) color_bin
      obtain ⟨m, hrest, hm, hpar⟩ := erase_outer hctx' ht color_bin
      rw [paint_bin] at hm
      refine .inr ⟨h', _, m, hrun, hrep, ?_, hrest, hm, ?_⟩
      · cases s <;> simp [bin, toList]
      · rw [color_bin]
        exact hpar
    · -- both nephews black: recolour, and the shortage moves up
      have hxb := Color.eq_black hx
      obtain ⟨h', hrun, hrep⟩ := eraseBlack_recolor hr hxb hyb
      obtain ⟨m, hrest, hshort⟩ := erase_recolor hctx ht hxb hyb
      refine .inl ⟨h', _, m, ?_, hrep, ?_, hrest, hshort, color_bin⟩
      · rw [root_bin]
        exact hrun
      · exact toList_bin rfl (toList_bin rfl rfl)

/-- The loop ends at a red node, which turns black. -/
theorem rbEraseFixup_red (hr : Rep h ctx t) (hred : t.color = .red) (hctx : CtxValid ctx (n + 1))
    (ht : Short t n) {fuel : Nat} {p : Option Nat} :
    ∃ h' T, rbEraseFixup (fuel + 1) h t.root p = some h' ∧ Repaired h' T (fill ctx t).toList := by
  have hpaint := rep_setColorOf hr .black
  have htest : h.isRed t.root = true := by rw [isRed_root hr.tree, hred]; rfl
  have hblack := color_paint_black t
  obtain ⟨hv, hcol⟩ := valid_fill hctx (ht.2 hred) fun h => by rw [hblack] at h; cases h
  refine ⟨_, fill ctx (t.paint .black), ?_, rep_fill.mp hpaint, ?_, hv, hcol⟩
  · simp [rbEraseFixup, htest]
  · exact toList_fill_congr ctx (toList_paint ..)

/-- The loop ends at the root. -/
theorem rbEraseFixup_root (hr : Rep h [] t) (hblack : t.color = .black) (ht : Short t n)
    (fuel : Nat) :
    ∃ h' T, rbEraseFixup (fuel + 1) h t.root none = some h' ∧ Repaired h' T t.toList := by
  have htest : h.isRed t.root = false := by rw [isRed_root hr.tree, hblack]; rfl
  refine ⟨_, _, ?_, repaired_paint (rep_setColorOf hr .black) (ht.1 hblack)⟩
  simp [rbEraseFixup, htest]

/-- The loop goes on, or ends with the `break`, after a round whose
sibling is black at last. -/
theorem rbEraseFixup_round {h₁ : RbHeap} {f : Frame Nat Nat} {rest₁ : Ctx Nat Nat} {pc : Color}
    (fuel : Nat) (hr : Rep h (f :: rest) t) (hblack : t.color = .black) (hne : f.sib.root ≠ t.root)
    (hsib : rbEraseFixupSibling f.side h f.addr = some (h₁, w.root))
    (hr₁ : Rep h₁ (⟨f.side, f.addr, pc, f.key, w⟩ :: rest₁) t)
    (hctx : CtxValid (⟨f.side, f.addr, pc, f.key, w⟩ :: rest₁) (n + 1)) (ht : t.Valid n)
    (hw : w.color = .black) :
    (∃ h' t' m, rbEraseFixup (fuel + 1) h t.root (some f.addr)
          = rbEraseFixup fuel h' t'.root (parent rest₁) ∧
      Rep h' rest₁ t' ∧ t'.toList = (bin f.side f.addr pc f.key t w).toList ∧
      CtxValid rest₁ (m + 1) ∧ Short t' m ∧ t'.color = pc) ∨
    (∃ h' T, rbEraseFixup (fuel + 1) h t.root (some f.addr) = some h' ∧
      Repaired h' T (fill rest₁ (bin f.side f.addr pc f.key t w)).toList) := by
  have htest : h.isRed t.root = false := by rw [isRed_root hr.tree, hblack]; rfl
  have hside := hr.side_eq_of_ne hne
  rcases eraseBlack_spec hr₁ hctx ht hw with
    ⟨h', t', m, hrun, hrep, hlist, hrest⟩ | ⟨h', t', m, hrun, hrep, hlist, hrest, hv, hpar⟩
  · refine .inl ⟨h', t', m, ?_, hrep, hlist, hrest⟩
    simp [rbEraseFixup, htest, hside, rbEraseFixupBody, hsib, hrun]
  · obtain ⟨⟨k, hk⟩, -⟩ := valid_fill hrest hv hpar
    have hdone := repaired_paint (rep_setColorOf (rep_fill.mp hrep) .black) hk
    rw [toList_fill_congr rest₁ hlist] at hdone
    refine .inr ⟨_, _, ?_, hdone⟩
    rw [show (fill rest₁ t').root = h'.root from (rep_fill.mp hrep).path.symm]
    simp only [rbEraseFixup, htest, Bool.false_eq_true, if_false, hside, rbEraseFixupBody,
      hsib, hrun,
      bind_eq_bind, bind_some]
    rfl

/-- The repair loop, from a subtree that is one black node short. -/
theorem rep_eraseFixup : ∀ (fuel : Nat) (h : RbHeap) (ctx : Ctx Nat Nat) (t : Tree Nat Nat)
    (n : Nat), Rep h ctx t → CtxValid ctx (n + 1) → Short t n → ctx.length < fuel →
    ∃ h' T, rbEraseFixup fuel h t.root (parent ctx) = some h' ∧
      Repaired h' T (fill ctx t).toList := by
  intro fuel
  induction fuel with
  | zero => intro h ctx t n _ _ _ hfuel; exact absurd hfuel (Nat.not_lt_zero _)
  | succ fuel ih =>
    intro h ctx t n hr hctx ht hfuel
    by_cases hred : t.color = .red
    · exact rbEraseFixup_red hr hred hctx ht
    have hblack := Color.eq_black hred
    cases ctx with
    | nil => exact rbEraseFixup_root hr hblack ht fuel
    | cons f rest =>
      obtain ⟨s, pa, pc, pk, w⟩ := f
      simp only [List.length_cons] at hfuel
      have hwv : w.Valid (n + 1) := hctx.1
      obtain ⟨wa, wc, wk, x, y, rfl⟩ := exists_bin_of_valid_succ s hwv
      have hne : (bin s wa wc wk x y).root ≠ t.root := by
        cases hroot : t.root with
        | none => rw [root_bin]; simp
        | some a => exact hr.root_ne_sib hroot
      have htv := ht.1 hblack
      by_cases hwc : wc = .red
      · -- the parent turns red, so the next round is the last one
        subst hwc
        obtain ⟨h₁, hsib, hr₁⟩ := eraseSibling_red hr
        obtain ⟨hctx₁, hx⟩ := erase_redSibling hctx
        have hlist : (fill (⟨s, wa, .black, wk, y⟩ :: rest) (bin s pa .red pk t x)).toList
            = (fill (⟨s, pa, pc, pk, bin s wa .red wk x y⟩ :: rest) t).toList :=
          toList_fill_congr rest (toList_rotate s pa wa pc .black .red .red pk wk t x y).symm
        rw [← hlist]
        rcases rbEraseFixup_round fuel hr hblack hne hsib hr₁ hctx₁ htv hx with
          ⟨h', t', m, hrun, hrep, hl, hrest, hshort, hcol⟩ | hdone
        · obtain ⟨fuel, rfl⟩ : ∃ f, fuel = f + 1 := ⟨fuel - 1, by omega⟩
          obtain ⟨h'', T, hrun', hfin⟩ := rbEraseFixup_red hrep hcol hrest hshort
          rw [toList_fill_congr _ hl] at hfin
          exact ⟨h'', T, hrun.trans hrun', hfin⟩
        · exact hdone
      · obtain rfl := Color.eq_black hwc
        have hw : (bin s wa .black wk x y).color = .black := color_bin
        rcases rbEraseFixup_round fuel hr hblack hne (eraseSibling_black hr hw) hr hctx htv hw
          with
          ⟨h', t', m, hrun, hrep, hl, hrest, hshort, -⟩ | hdone
        · obtain ⟨h'', T, hrun', hfin⟩ := ih h' rest t' m hrep hrest hshort (by omega)
          rw [toList_fill_congr rest hl] at hfin
          exact ⟨h'', T, hrun.trans hrun', hfin⟩
        · exact hdone

/-! ### Taking a node out -/

theorem rep_append {path : Ctx Nat Nat} : Rep h (path ++ ctx) t ↔ Rep h ctx (fill path t) := by
  rw [rep_fill, fill_append, ← rep_fill]

/-- At most one child. -/
theorem rbEraseOne_eq (hr : Rep h ctx (bin s z c k nil x)) :
    ∃ h', rbEraseOne h z x.root = (h', c, x.root, parent ctx) ∧ Rep h' ctx x := by
  refine ⟨_, ?_, rep_unlink hr⟩
  rw [rbEraseOne, hr.node_eq, cell_parent, cell_color]

/-- The walk to the leftmost node. -/
theorem rbSuccessor_spec {p : Option Nat} (ht : RepT h p t) (ha : t.root = some a)
    (hfuel : t.toList.length ≤ fuel) :
    ∃ path y c k r, t = fill path (node y c k nil r) ∧ (∀ f ∈ path, f.side = .left) ∧
      rbSuccessor fuel h a = some y := by
  induction t generalizing p a fuel with
  | nil => exact absurd ha (by simp [root])
  | node b c k l r ihl _ =>
    obtain rfl : b = a := Option.some.inj ha
    obtain ⟨hnode, hl, -⟩ := ht
    rw [toList, List.length_append, List.length_cons] at hfuel
    obtain ⟨fuel, rfl⟩ : ∃ f, fuel = f + 1 := ⟨fuel - 1, by omega⟩
    cases hroot : l.root with
    | none =>
      obtain rfl := eq_nil_of_root hroot
      exact ⟨[], b, c, k, r, rfl, fun f hf => absurd hf List.not_mem_nil, by
        simp only [rbSuccessor, hnode, hroot]⟩
    | some b' =>
      have hlen : l.toList.length ≤ fuel := by omega
      obtain ⟨path, y, c', k', r', hfill, hside, hrun⟩ := ihl hl hroot hlen
      refine ⟨path ++ [⟨.left, b, c, k, r⟩], y, c', k', r', ?_, fun f hf => ?_, ?_⟩
      · rw [fill_append, ← hfill]
        rfl
      · rcases List.mem_append.mp hf with hf | hf
        · exact hside f hf
        · rw [List.mem_singleton.mp hf]
      · simp only [rbSuccessor, hnode, hroot]
        exact hrun

theorem setParentOf_fields (h : RbHeap) (q p : Option Nat) (b : Nat) :
    ((h.setParentOf q p).node b).left = (h.node b).left ∧
      ((h.setParentOf q p).node b).key = (h.node b).key := by
  rw [setParentOf_node]
  split <;> exact ⟨rfl, rfl⟩

theorem setChild_key (h : RbHeap) (s : Side) (a : Nat) (q : Option Nat) (b : Nat) :
    ((h.setChild s a q).node b).key = (h.node b).key := by
  rw [setChild_node]
  split
  · cases s <;> rfl
  · rfl

/-- The unlinking writes of the successor `y`, with the side its parent
has it on. -/
theorem rep_unlinkSuccessor {f : Frame Nat Nat} {y : Nat}
    (hr : Rep h (f :: rest) (node y c k nil r)) :
    Rep ((h.setParentOf r.root (some f.addr)).setChild f.side f.addr r.root) (f :: rest) r := by
  have hunlink := rep_unlink (s := .left) hr
  have hside := hr.side_eq (a := y) rfl
  rw [← (setParentOf_fields h r.root (some f.addr) f.addr).1] at hside
  have heq : (h.setParentOf r.root (some f.addr)).replaceChild (some f.addr) (some y) r.root
      = (h.setParentOf r.root (some f.addr)).setChild f.side f.addr r.root := by
    rw [← hside, RbHeap.replaceChild]
    split <;> rfl
  rw [← heq]
  exact hunlink

/-- The writes that put `y` in the position of `z`. -/
theorem rep_takePosition {y : Nat} {ky : Nat} (hr : Rep h ctx (node z c k l r))
    (hy : y ∉ labels (node z c k l r) ++ ctxLabels ctx) (hkey : (h.node y).key = ky) :
    Rep
      (let h := h.modify y fun n =>
        { n with
          parent := (h.node z).parent, color := (h.node z).color,
          left := (h.node z).left, right := (h.node z).right }
       let h := h.replaceChild (h.node z).parent (some z) (some y)
       let h := h.setParentOf (h.node y).left (some y)
       let h := h.setParentOf (h.node y).right (some y)
       h.modify z fun n => { n with parent := none, left := none, right := none })
      ctx (node y c ky l r) := by
  have hz : h.node z = ⟨parent ctx, l.root, r.root, c, k⟩ := hr.tree.1
  have hnew := rep_replace hr hy
  rw [hkey] at hnew
  simp only [labels, List.cons_append, List.mem_cons, List.mem_append, not_or] at hy
  obtain ⟨hyz, ⟨hyl, hyr⟩, hyctx⟩ := hy
  have hpy : parent ctx ≠ some y := fun h => hyctx (parent_mem_ctxLabels h)
  have hly : l.root ≠ some y := fun h => hyl (root_mem_labels h)
  have hznew : z ∉ labels (node y c ky l r) ++ ctxLabels ctx := by
    have hnd := hr.nodup
    simp only [labels, List.cons_append, List.nodup_cons] at hnd
    simp only [labels, List.cons_append, List.mem_cons, not_or]
    exact ⟨Ne.symm hyz, hnd.1⟩
  have hfinal := rep_modify_of_notMem hnew hznew fun n =>
    { n with parent := none, left := none, right := none }
  simp only [hz, modify_node, if_neg (Ne.symm hyz), replaceChild_node, if_neg hpy, if_true,
    setParentOf_node, if_neg hly]
  exact hfinal

/-- Two children: the successor takes the position of the node. -/
theorem rbEraseTwo_spec (hr : Rep h ctx (node z c k l r)) {b : Nat} (hb : r.root = some b)
    (hfuel : r.toList.length ≤ fuel) :
    ∃ path y cy ky ry h', r = fill path (node y cy ky nil ry) ∧ (∀ f ∈ path, f.side = .left) ∧
      rbEraseTwo fuel h z = some (h', cy, ry.root, parent (path ++ ⟨.right, y, c, ky, l⟩ :: ctx)) ∧
      Rep h' (path ++ ⟨.right, y, c, ky, l⟩ :: ctx) ry := by
  obtain ⟨path, y, cy, ky, ry, rfl, hside, hsucc⟩ := rbSuccessor_spec hr.tree.2.2 hb hfuel
  have hr0 : Rep h (path ++ ⟨.right, z, c, k, l⟩ :: ctx) (node y cy ky nil ry) :=
    rep_append.mpr (rep_cons.mpr hr)
  -- the nearest ancestor of the successor, and the side it is on
  obtain ⟨f, rest, hctx0, hfs⟩ : ∃ f rest, path ++ ⟨.right, z, c, k, l⟩ :: ctx = f :: rest ∧
      (if f.addr = z then Side.right else Side.left) = f.side ∧
        parent (path ++ ⟨.right, y, c, ky, l⟩ :: ctx)
          = if f.addr = z then some y else some f.addr := by
    cases path with
    | nil => exact ⟨_, _, rfl, if_pos rfl, (if_pos rfl).symm⟩
    | cons f path =>
      have hne : f.addr ≠ z := by
        intro h
        have hnd := (List.nodup_append.mp hr0.nodup).2.1
        simp [ctxLabels, ctxLabels_append, h] at hnd
      exact ⟨f, _, rfl, by rw [if_neg hne, hside f List.mem_cons_self], (if_neg hne).symm⟩
  rw [hctx0] at hr0
  have hynode : h.node y = ⟨some f.addr, none, ry.root, cy, ky⟩ := hr0.tree.1
  have hr1 := rep_unlinkSuccessor hr0
  have hy : y ∉ labels (node z c k l (fill path ry)) ++ ctxLabels ctx := by
    have hperm : (labels ry ++ ctxLabels (f :: rest)).Perm
        (labels (node z c k l (fill path ry)) ++ ctxLabels ctx) := by
      refine (perm_labels_fill (f :: rest) ry).symm.trans ?_
      rw [← hctx0, fill_append]
      exact perm_labels_fill ctx (node z c k l (fill path ry))
    have hnd := hr0.nodup
    simp only [labels, List.nil_append, List.cons_append, List.nodup_cons] at hnd
    exact fun hmem => hnd.1 (hperm.mem_iff.mpr hmem)
  rw [← hctx0] at hr1
  have hr1' := rep_cons.mp (rep_append.mp hr1)
  have hkey : (((h.setParentOf ry.root (some f.addr)).setChild f.side f.addr ry.root).node y).key
      = ky := by
    rw [setChild_key, (setParentOf_fields ..).2, hynode]
  have hr2 := rep_takePosition hr1' hy hkey
  refine ⟨path, y, cy, ky, ry, _, rfl, hside, ?_, rep_append.mpr (rep_cons.mpr hr2)⟩
  have hright : (h.node z).right = some b := by rw [hr.tree.1]; exact hb
  simp only [rbEraseTwo, hright, bind_eq_bind, bind_some, hsucc, hynode, hfs.1, hfs.2]
  rfl

/-- The state at the label `fixup`: the removed node of the color `col`
has left the tree, and the child `x` in the place `ctx` may lack a black
node. -/
structure Unlinked (h : RbHeap) (col : Color) (ctx : Ctx Nat Nat) (x : Tree Nat Nat)
    (entries : List (Nat × Nat)) : Prop where
  rep : Rep h ctx x
  entries : (fill ctx x).toList = entries
  black : col = .black → ∃ m, CtxValid ctx (m + 1) ∧ Short x m
  red : col = .red → ∃ m, CtxValid ctx m ∧ x.Valid m ∧ x.color = .black

/-- A node with one empty subtree leaves. -/
theorem unlinked_one (hr : Rep h ctx (bin s a c k nil x))
    (hT : Balanced (fill ctx (bin s a c k nil x))) :
    ∃ h', rbEraseOne h a x.root = (h', c, x.root, parent ctx) ∧
      Unlinked h' c ctx x (before ctx ++ (x.toList ++ after ctx)) := by
  obtain ⟨h', hun, hrep⟩ := rbEraseOne_eq hr
  obtain ⟨n, hv⟩ := hT.valid
  obtain ⟨m, hctx, hbin, -⟩ := ctxValid_of_valid_fill hv hT.black
  obtain ⟨hb, hred⟩ := erase_start hctx hbin
  refine ⟨h', hun, hrep, ?_, hb, fun hc => ⟨m, hred hc⟩⟩
  rw [toList_fill, List.append_assoc]

section

variable (hr : Rep h ctx (node a c k l r)) (hT : Balanced (fill ctx (node a c k l r)))

include hr hT

/-- A node with two subtrees leaves. -/
theorem unlinked_two {b : Nat} (hb : r.root = some b)
    (hfuel : (fill ctx (node a c k l r)).toList.length < fuel) :
    ∃ h' col ctx' x, rbEraseTwo fuel h a = some (h', col, x.root, parent ctx') ∧
      ctx'.length < fuel ∧
      Unlinked h' col ctx' x (before ctx ++ l.toList ++ (r.toList ++ after ctx)) := by
  have hlen := length_le_toList_fill ctx (node a c k l r)
  rw [toList, List.length_append, List.length_cons] at hlen
  have hrlen : r.toList.length ≤ fuel := by omega
  obtain ⟨path, y, cy, ky, ry, h', rfl, hside, hrun, hrep⟩ := rbEraseTwo_spec hr hb hrlen
  have hplen := length_le_toList_fill path (node y cy ky nil ry)
  obtain ⟨n, hv⟩ := hT.valid
  -- the place of the successor is valid, whatever node sits above it
  have hfill : fill ctx (node a c k l (fill path (node y cy ky nil ry)))
      = fill (path ++ ⟨.right, a, c, k, l⟩ :: ctx) (bin .left y cy ky nil ry) := by
    rw [fill_append]
    rfl
  obtain ⟨m, hctx, hbin, -⟩ := ctxValid_of_valid_fill (hfill ▸ hv) (hfill ▸ hT.black)
  obtain ⟨hblack, hred⟩ := erase_start (hctx.relabel y ky) hbin
  refine ⟨h', cy, _, ry, hrun, ?_, hrep, ?_, hblack, fun hc => ⟨m, hred hc⟩⟩
  · rw [List.length_append, List.length_cons]
    omega
  · rw [fill_append, fill_cons, toList_fill, toList_fill, before_eq_nil hside]
    simp [Frame.fill, bin, toList, toList_fill, before_eq_nil hside]

/-- `rb_erase` up to the label `fixup`. -/
theorem rbEraseUnlink_spec (hfuel : (fill ctx (node a c k l r)).toList.length < fuel) :
    ∃ h' col ctx' x, rbEraseUnlink fuel h a = some (h', col, x.root, parent ctx') ∧
      ctx'.length < fuel ∧
      Unlinked h' col ctx' x (before ctx ++ l.toList ++ (r.toList ++ after ctx)) := by
  have hnode : h.node a = ⟨parent ctx, l.root, r.root, c, k⟩ := hr.tree.1
  have hlen := length_le_toList_fill ctx (node a c k l r)
  cases hl : l.root with
  | none =>
    obtain rfl := eq_nil_of_root hl
    obtain ⟨h', hun, hdone⟩ := unlinked_one (s := .left) hr hT
    refine ⟨h', c, ctx, r, ?_, by omega, ?_⟩
    · simp only [rbEraseUnlink, hnode, hl, hun]
    · simpa [toList] using hdone
  | some b =>
    cases hrr : r.root with
    | none =>
      obtain rfl := eq_nil_of_root hrr
      obtain ⟨h', hun, hdone⟩ := unlinked_one (s := .right) hr hT
      refine ⟨h', c, ctx, l, ?_, by omega, ?_⟩
      · simp only [rbEraseUnlink, hnode, hl, hrr]
        rw [← hl, hun]
      · simpa [toList] using hdone
    | some b' =>
      obtain ⟨h', col, ctx', x, hun, hdone⟩ := unlinked_two hr hT hrr hfuel
      refine ⟨h', col, ctx', x, ?_, hdone⟩
      simp only [rbEraseUnlink, hnode, hl, hrr, hun]

end

/-- The tail of `rb_erase`. -/
theorem Unlinked.repaired {col : Color} {entries : List (Nat × Nat)}
    (hu : Unlinked h col ctx x entries) (hfuel : ctx.length < fuel) :
    ∃ h' T, (if col = .black then rbEraseFixup fuel h x.root (parent ctx) else some h) = some h' ∧
      Repaired h' T entries := by
  rw [← hu.entries]
  cases col with
  | black =>
    obtain ⟨m, hctx, hshort⟩ := hu.black rfl
    exact rep_eraseFixup fuel h ctx x m hu.rep hctx hshort hfuel
  | red =>
    obtain ⟨m, hctx, hx, hc⟩ := hu.red rfl
    obtain ⟨hv, hcol⟩ := valid_fill hctx hx fun h => by rw [hc] at h; cases h
    exact ⟨h, fill ctx x, rfl, rep_fill.mp hu.rep, rfl, hv, hcol⟩

/-- `rb_erase` of a node of a represented tree: its entry, and nothing
else, leaves the tree. -/
theorem rbErase_spec {T : Tree Nat Nat} (hr : Rep h [] T) (hT : Balanced T) (ha : (a, k) ∈ T.toList)
    (hfuel : T.toList.length < fuel) :
    ∃ h' T', rbErase fuel h a = some h' ∧ Rep h' [] T' ∧ Balanced T' ∧
      T.toList.Perm ((a, k) :: T'.toList) := by
  obtain ⟨ctx, c, l, r, rfl⟩ := exists_fill_of_mem ha
  obtain ⟨h₁, col, ctx', x, hunlink, hlen, hu⟩ := rbEraseUnlink_spec (rep_fill.mpr hr) hT hfuel
  obtain ⟨h₂, T', hfix, hrep⟩ := hu.repaired hlen
  have hlist : (fill ctx (node a c k l r)).toList
      = before ctx ++ l.toList ++ (a, k) :: (r.toList ++ after ctx) := by
    rw [toList_fill]
    simp [toList]
  have hperm : (fill ctx (node a c k l r)).toList.Perm ((a, k) :: T'.toList) := by
    rw [hlist, hrep.entries]
    exact List.perm_middle
  have hnotMem : a ∉ labels T' := by
    have hnd := (perm_labels_fill ctx (node a c k l r)).nodup_iff.mpr (rep_fill.mpr hr).nodup
    have hnd' := ((perm_labels_toList.trans (hperm.map Prod.fst)).nodup_iff).mp hnd
    rw [perm_labels_toList.mem_iff]
    exact (List.nodup_cons.mp hnd').1
  -- the node is out of the tree, so clearing its links changes nothing there
  have hfinal := rep_modify_of_notMem hrep.rep (a := a) (by simpa [ctxLabels] using hnotMem)
    fun n => { n with parent := none, left := none, right := none }
  refine ⟨_, T', ?_, hfinal, ⟨?_, hrep.valid, hrep.black⟩, hperm⟩
  · cases col with
    | black =>
      rw [if_pos rfl] at hfix
      simp only [rbErase, hunlink, bind_eq_bind, bind_some, if_true, hfix]
      rfl
    | red =>
      obtain rfl := Option.some.inj hfix
      simp only [rbErase, hunlink, bind_eq_bind, bind_some]
      rfl
  · have hord := hT.ordered
    rw [Ordered, hlist] at hord
    rw [Ordered, hrep.entries]
    exact hord.sublist (List.Sublist.append_left (List.sublist_cons_self _ _) _)

end CoreZ.Proofs.Rbtree
