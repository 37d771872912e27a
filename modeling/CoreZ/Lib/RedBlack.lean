import Mathlib.Order.Lattice
import Mathlib.Data.List.Nodup

/-!
# `CoreZ.Lib.RedBlack`: red-black trees and their contexts

Binary trees whose nodes carry a label, a color and a key, with the
black-height invariant `Valid`. A place inside a tree is a `Ctx`: the
list of the ancestors of the place, the nearest first, each with the
side the path takes and the subtree on the other side. `fill` puts a
tree into the place.

Algorithms on such trees come in mirrored pairs, so a node is also
written with a side: `bin s a c k x y` has the subtree `x` on the side
`s` and `y` on the opposite one. Every lemma below is stated for both
sides at once.

`CtxValid ctx n` says that a subtree of black height `n` fits into the
place. The two repair algorithms keep a weaker state and end with this
one: `insert_*` are the steps that move a red node up, `erase_*` the
steps for a subtree that is one black node short (`Short`).

The in-order list `toList` is what all rotations keep.
-/

set_option autoImplicit false

namespace CoreZ.Lib.RedBlack

inductive Side where
  | left
  | right
  deriving DecidableEq, Repr

def Side.opp : Side → Side
  | .left => .right
  | .right => .left

variable {n : Nat} {s : Side}

/-- There are two sides. -/
theorem Side.eq_opp_of_ne {t : Side} (h : s ≠ t) : s = t.opp := by
  cases s <;> cases t <;> first | rfl | exact absurd rfl h

inductive Color where
  | red
  | black
  deriving DecidableEq, Repr

variable {c : Color}

/-- There are two colours. -/
theorem Color.eq_black (h : c ≠ .red) : c = .black := by
  cases c with
  | red => exact absurd rfl h
  | black => rfl

variable {ι κ : Type*}

inductive Tree (ι κ : Type*) where
  | nil
  | node (a : ι) (c : Color) (k : κ) (l r : Tree ι κ)

variable {a : ι} {k : κ} {t x y : Tree ι κ}

namespace Tree

/-- A node with the subtree `x` on the side `s` and `y` on the other. -/
def bin : Side → ι → Color → κ → Tree ι κ → Tree ι κ → Tree ι κ
  | .left, a, c, k, x, y => node a c k x y
  | .right, a, c, k, x, y => node a c k y x

/-- A node seen from the other side. -/
theorem bin_opp (s : Side) (a : ι) (c : Color) (k : κ) (x y : Tree ι κ) :
    bin s.opp a c k x y = bin s a c k y x := by cases s <;> rfl

/-- Every node can be read from either side. -/
theorem exists_bin {s : Side} {a : ι} {c : Color} {k : κ} {l r : Tree ι κ} :
    ∃ x y, node a c k l r = bin s a c k x y := by
  cases s with
  | left => exact ⟨l, r, rfl⟩
  | right => exact ⟨r, l, rfl⟩

/-- The label of the root. -/
def root : Tree ι κ → Option ι
  | nil => none
  | node a _ _ _ _ => some a

/-- A tree without a root is empty. -/
theorem eq_nil_of_root {t : Tree ι κ} (h : t.root = none) : t = nil := by
  cases t with
  | nil => rfl
  | node => cases h

/-- The color of the root; an empty tree is black. -/
def color : Tree ι κ → Color
  | nil => .black
  | node _ c _ _ _ => c

/-- The tree with its root recolored. -/
def paint (c : Color) : Tree ι κ → Tree ι κ
  | nil => nil
  | node a _ k l r => node a c k l r

/-- Labels and keys in order. -/
def toList : Tree ι κ → List (ι × κ)
  | nil => []
  | node a _ k l r => l.toList ++ (a, k) :: r.toList

/-- No red node has a red child, and every path has `n` black nodes. -/
def Valid : Tree ι κ → Nat → Prop
  | nil, n => n = 0
  | node _ .red _ l r, n => (l.color = .black ∧ r.color = .black) ∧ l.Valid n ∧ r.Valid n
  | node _ .black _ _ _, 0 => False
  | node _ .black _ l r, n + 1 => l.Valid n ∧ r.Valid n

@[simp] theorem root_bin : (bin s a c k x y).root = some a := by cases s <;> rfl

@[simp] theorem color_bin : (bin s a c k x y).color = c := by cases s <;> rfl

@[simp] theorem paint_bin (s : Side) (a : ι) (c c' : Color) (k : κ) (x y : Tree ι κ) :
    (bin s a c k x y).paint c' = bin s a c' k x y := by cases s <;> rfl

/-- Colours do not change the keys. -/
@[simp] theorem toList_paint {c : Color} {t : Tree ι κ} : (t.paint c).toList = t.toList := by
  cases t <;> rfl

/-- A root painted in its own colour. -/
theorem paint_color (t : Tree ι κ) : t.paint t.color = t := by
  cases t <;> rfl

theorem color_paint_black (t : Tree ι κ) : (t.paint .black).color = .black := by
  cases t <;> rfl

/-- A red node has black children, and its subtrees keep the black height. -/
@[simp] theorem valid_bin_red :
    (bin s a .red k x y).Valid n ↔
      (x.color = .black ∧ y.color = .black) ∧ x.Valid n ∧ y.Valid n := by
  cases s with
  | left => exact Iff.rfl
  | right =>
    show (_ ∧ _) ∧ _ ∧ _ ↔ _
    tauto

/-- A black node is one more on every path. -/
@[simp] theorem valid_bin_black :
    (bin s a .black k x y).Valid (n + 1) ↔ x.Valid n ∧ y.Valid n := by
  cases s with
  | left => exact Iff.rfl
  | right => exact and_comm

/-- No black node has black height 0. -/
@[simp] theorem valid_bin_black_zero : (bin s a .black k x y).Valid 0 ↔ False := by
  cases s <;> exact Iff.rfl

/-- A tree of black height `n` has at least `2 ^ n - 1` nodes. -/
theorem Valid.le_log2 (ht : t.Valid n) : n ≤ (t.toList.length + 1).log2 := by
  rw [Nat.le_log2 (Nat.succ_ne_zero _)]
  induction t generalizing n with
  | nil => simp [show n = 0 from ht]
  | node a c k l r ihl ihr =>
    rw [toList, List.length_append, List.length_cons]
    cases c with
    | red => have := ihl ht.2.1; omega
    | black =>
      cases n with
      | zero => exact ht.elim
      | succ n => have := ihl ht.1; have := ihr ht.2; omega

/-- A tree of positive black height has a root. -/
theorem exists_bin_of_valid_succ (s : Side) (h : t.Valid (n + 1)) :
    ∃ a c k x y, t = bin s a c k x y := by
  cases t with
  | nil => exact absurd h (Nat.succ_ne_zero n)
  | node a c k l r =>
    obtain ⟨x, y, hxy⟩ := exists_bin
    exact ⟨a, c, k, x, y, hxy⟩

/-- A red tree has a root, seen from the side one wants. -/
theorem exists_bin_of_red (s : Side) (h : t.color = .red) : ∃ a k x y, t = bin s a .red k x y := by
  cases t with
  | nil => exact absurd h (by simp [color])
  | node a c k l r =>
    obtain rfl : c = .red := h
    obtain ⟨x, y, hxy⟩ := exists_bin
    exact ⟨a, k, x, y, hxy⟩

/-- A red root painted black adds one to the black height. -/
theorem valid_paint_black (h : t.Valid n) (hred : t.color = .red) :
    (t.paint .black).Valid (n + 1) := by
  obtain ⟨a, k, x, y, rfl⟩ := exists_bin_of_red .left hred
  exact h.2

/-- The root painted black keeps the tree valid for some height. -/
theorem exists_valid_paint_black (h : t.Valid n) : ∃ m, (t.paint .black).Valid m := by
  by_cases hred : t.color = .red
  · exact ⟨n + 1, valid_paint_black h hred⟩
  · rw [← Color.eq_black hred, paint_color]
    exact ⟨n, h⟩

end Tree

open CoreZ.Lib.RedBlack.Tree

/-! ### Contexts -/

/-- One ancestor: the path goes to its child on `side`, and `sib` is the
subtree on the other side. -/
structure Frame (ι κ : Type*) where
  side : Side
  addr : ι
  color : Color
  key : κ
  sib : Tree ι κ

/-- A place in a tree, from the nearest ancestor up to the root. -/
abbrev Ctx (ι κ : Type*) := List (Frame ι κ)

def Frame.fill (f : Frame ι κ) (t : Tree ι κ) : Tree ι κ := bin f.side f.addr f.color f.key t f.sib

def fill : Ctx ι κ → Tree ι κ → Tree ι κ
  | [], t => t
  | f :: rest, t => fill rest (f.fill t)

@[simp] theorem fill_nil (t : Tree ι κ) : fill [] t = t := rfl

@[simp] theorem fill_cons (f : Frame ι κ) (rest : Ctx ι κ) (t : Tree ι κ) :
    fill (f :: rest) t = fill rest (f.fill t) := rfl

/-- Two paths, one above the other. -/
theorem fill_append (c₁ c₂ : Ctx ι κ) (t : Tree ι κ) : fill (c₁ ++ c₂) t = fill c₂ (fill c₁ t) := by
  induction c₁ generalizing t with
  | nil => rfl
  | cons f rest ih => exact ih (f.fill t)

/-- The label of the nearest ancestor. -/
def parent : Ctx ι κ → Option ι
  | [] => none
  | f :: _ => some f.addr

/-- The color of the nearest ancestor. -/
def parentColor : Ctx ι κ → Option Color
  | [] => none
  | f :: _ => some f.color

/-- What stands before the place, in order. -/
def before : Ctx ι κ → List (ι × κ)
  | [] => []
  | f :: rest =>
    match f.side with
    | .left => before rest
    | .right => before rest ++ f.sib.toList ++ [(f.addr, f.key)]

/-- What stands behind the place, in order. -/
def after : Ctx ι κ → List (ι × κ)
  | [] => []
  | f :: rest =>
    match f.side with
    | .left => (f.addr, f.key) :: f.sib.toList ++ after rest
    | .right => after rest

/-- The keys of the whole tree: before, in and after the subtree. -/
theorem toList_fill (ctx : Ctx ι κ) (t : Tree ι κ) :
    (fill ctx t).toList = before ctx ++ t.toList ++ after ctx := by
  induction ctx generalizing t with
  | nil => simp [before, after]
  | cons f rest ih =>
    obtain ⟨side, addr, color, key, sib⟩ := f
    rw [fill_cons, ih]
    cases side with
    | left => simp [Frame.fill, bin, toList, before, after]
    | right => simp [Frame.fill, bin, toList, before, after]

/-- A tree that keeps the in-order list keeps it inside any context. -/
theorem toList_fill_congr (ctx : Ctx ι κ) {t' : Tree ι κ} (h : t.toList = t'.toList) :
    (fill ctx t).toList = (fill ctx t').toList := by
  rw [toList_fill, toList_fill, h]

/-- A place is at most as deep as the tree has entries. -/
theorem length_le_toList_fill (ctx : Ctx ι κ) (t : Tree ι κ) :
    ctx.length + t.toList.length ≤ (fill ctx t).toList.length := by
  induction ctx generalizing t with
  | nil => simp
  | cons f rest ih =>
    have hfill : t.toList.length + 1 ≤ (f.fill t).toList.length := by
      obtain ⟨side, addr, color, key, sib⟩ := f
      cases side <;> simp only [Frame.fill, bin, toList, List.length_append, List.length_cons] <;>
        omega
    have := ih (f.fill t)
    rw [fill_cons, List.length_cons]
    omega

/-- A rotation keeps the in-order list. -/
theorem toList_rotate (s : Side) (a b : ι) (c c' d d' : Color) (k j : κ) (x y z : Tree ι κ) :
    (bin s a c k x (bin s b d j y z)).toList = (bin s b c' j (bin s a d' k x y) z).toList := by
  cases s with
  | left => simp [bin, toList]
  | right => simp [bin, toList]

/-- Colors do not matter to the in-order list. -/
theorem toList_bin {c' : Color} {x' y' : Tree ι κ} (hx : x.toList = x'.toList)
    (hy : y.toList = y'.toList) :
    (bin s a c k x y).toList = (bin s a c' k x' y').toList := by
  cases s with
  | left => simp [bin, toList, hx, hy]
  | right => simp [bin, toList, hx, hy]

/-- Every entry of a tree sits at some place. -/
theorem exists_fill_of_mem (h : (a, k) ∈ t.toList) :
    ∃ ctx c l r, t = fill ctx (node a c k l r) := by
  -- the place inside a larger context, for the induction
  have key : ∀ (t : Tree ι κ) (ctx : Ctx ι κ), (a, k) ∈ t.toList →
      ∃ ctx' c l r, fill ctx t = fill ctx' (node a c k l r) := by
    intro t
    induction t with
    | nil => intro ctx h; exact absurd h List.not_mem_nil
    | node b c j l r ihl ihr =>
      intro ctx h
      rw [toList, List.mem_append, List.mem_cons] at h
      rcases h with h | h | h
      · exact ihl (⟨.left, b, c, j, r⟩ :: ctx) h
      · obtain ⟨rfl, rfl⟩ := Prod.mk.inj h
        exact ⟨ctx, c, l, r, rfl⟩
      · exact ihr (⟨.right, b, c, j, l⟩ :: ctx) h
  exact key t [] h

/-! ### Valid contexts -/

/-- A subtree of black height `n` fits into the place; where the nearest
ancestor is red the subtree must be black, which is said separately. -/
def CtxValid : Ctx ι κ → Nat → Prop
  | [], _ => True
  | f :: rest, n =>
    f.sib.Valid n ∧
    match f.color with
    | .red => f.sib.color = .black ∧ parentColor rest = some .black ∧ CtxValid rest n
    | .black => CtxValid rest (n + 1)

variable {ctx path rest : Ctx ι κ} {sib : Tree ι κ}

/-- A red node on the path: its sibling and its parent are black. -/
theorem ctxValid_red :
    CtxValid (⟨s, a, .red, k, sib⟩ :: rest) n ↔
      sib.Valid n ∧ sib.color = .black ∧ parentColor rest = some .black ∧ CtxValid rest n :=
  Iff.rfl

/-- A black node on the path adds one to the black height above. -/
theorem ctxValid_black :
    CtxValid (⟨s, a, .black, k, sib⟩ :: rest) n ↔ sib.Valid n ∧ CtxValid rest (n + 1) := Iff.rfl

/-- A fitting subtree makes the whole tree valid, with a black root. -/
theorem valid_fill (hctx : CtxValid ctx n) (ht : t.Valid n)
    (hred : t.color = .red → parentColor ctx = some .black) :
    (∃ m, (fill ctx t).Valid m) ∧ (fill ctx t).color = .black := by
  induction ctx generalizing t n with
  | nil =>
    refine ⟨⟨n, ht⟩, Color.eq_black fun h => ?_⟩
    exact absurd (hred h) (by simp [parentColor])
  | cons f rest ih =>
    obtain ⟨s, a, c, k, sib⟩ := f
    cases c with
    | red =>
      obtain ⟨hsib, hcol, hpar, hrest⟩ := ctxValid_red.mp hctx
      have hblack : t.color = .black := Color.eq_black fun h => by
        have := hred h
        simp [parentColor] at this
      exact ih hrest (valid_bin_red.mpr ⟨⟨hblack, hcol⟩, ht, hsib⟩) fun _ => hpar
    | black =>
      obtain ⟨hsib, hrest⟩ := ctxValid_black.mp hctx
      refine ih hrest (valid_bin_black.mpr ⟨ht, hsib⟩) fun h => ?_
      rw [Frame.fill, color_bin] at h
      exact absurd h (by simp)

/-- A valid tree with a black root makes every place of it fitting. -/
theorem ctxValid_of_valid_fill {m : Nat} (h : (fill ctx t).Valid m)
    (hblack : (fill ctx t).color = .black) :
    ∃ n, CtxValid ctx n ∧ t.Valid n ∧ (t.color = .red → parentColor ctx = some .black) := by
  induction ctx generalizing t with
  | nil =>
    refine ⟨m, trivial, h, fun hred => ?_⟩
    rw [fill_nil] at hblack
    rw [hblack] at hred
    exact absurd hred (by decide)
  | cons f rest ih =>
    obtain ⟨s, a, c, k, sib⟩ := f
    obtain ⟨n, hrest, hmk, hpar⟩ := ih h hblack
    rw [Frame.fill] at hmk hpar
    cases c with
    | red =>
      obtain ⟨⟨hct, hcs⟩, ht, hs⟩ := valid_bin_red.mp hmk
      refine ⟨n, ctxValid_red.mpr ⟨hs, hcs, hpar color_bin, hrest⟩, ht, fun hred => ?_⟩
      rw [hct] at hred
      exact absurd hred (by decide)
    | black =>
      cases n with
      | zero => exact absurd hmk (by simp)
      | succ n =>
        obtain ⟨ht, hs⟩ := valid_bin_black.mp hmk
        exact ⟨n, ctxValid_black.mpr ⟨hs, hrest⟩, ht, fun _ => rfl⟩

/-- Labels and keys do not matter to the validity of a place. -/
theorem CtxValid.relabel {w : Tree ι κ} (h : CtxValid (path ++ ⟨s, a, c, k, w⟩ :: rest) n) (a' : ι)
    (k' : κ) : CtxValid (path ++ ⟨s, a', c, k', w⟩ :: rest) n := by
  induction path generalizing n with
  | nil => exact h
  | cons f path ih =>
    obtain ⟨s₁, a₁, c₁, k₁, w₁⟩ := f
    cases c₁ with
    | red =>
      obtain ⟨hw, hcol, hpar, hrest⟩ := ctxValid_red.mp h
      refine ctxValid_red.mpr ⟨hw, hcol, ?_, ih hrest⟩
      rw [← hpar]
      cases path <;> rfl
    | black =>
      obtain ⟨hw, hrest⟩ := ctxValid_black.mp h
      exact ctxValid_black.mpr ⟨hw, ih hrest⟩

/-- The subtree on the other side may be replaced by a black one of the
same height. -/
theorem CtxValid.withSib {w w' : Tree ι κ} (h : CtxValid (⟨s, a, c, k, w⟩ :: rest) n)
    (hv : w'.Valid n) (hblack : w'.color = .black) : CtxValid (⟨s, a, c, k, w'⟩ :: rest) n := by
  cases c with
  | red =>
    obtain ⟨-, -, hpar, hrest⟩ := ctxValid_red.mp h
    exact ctxValid_red.mpr ⟨hv, hblack, hpar, hrest⟩
  | black => exact ctxValid_black.mpr ⟨hv, (ctxValid_black.mp h).2⟩

/-! ### Repair after an insertion

The state is a red subtree `t` of black height `n` in a place for that
height whose nearest ancestor may be red as well. -/

section Insert

variable {s' : Side} {pa ga xa : ι} {pk gk xk : κ} {gc : Color} {ps gs : Tree ι κ}

section

variable (h : CtxValid (⟨s', pa, .red, pk, ps⟩ :: ⟨s, ga, gc, gk, gs⟩ :: rest) n)

include h

/-- A red parent has a black grandparent, and both siblings fit. -/
theorem insert_parts :
    gc = .black ∧ (ps.Valid n ∧ ps.color = .black) ∧ gs.Valid n ∧ CtxValid rest (n + 1) := by
  obtain ⟨hps, hpsc, hgc, hg⟩ := ctxValid_red.mp h
  obtain rfl : gc = .black := Option.some.inj hgc
  obtain ⟨hgs, hrest⟩ := ctxValid_black.mp hg
  exact ⟨rfl, ⟨hps, hpsc⟩, hgs, hrest⟩

/-- Red uncle: recolor, and the grandparent is the new red subtree. -/
theorem insert_recolor (ht : t.Valid n) (hu : gs.color = .red) :
    CtxValid rest (n + 1) ∧
      (bin s ga .red gk (bin s' pa .black pk t ps) (gs.paint .black)).Valid (n + 1) := by
  obtain ⟨rfl, ⟨hps, -⟩, hgs, hrest⟩ := insert_parts h
  refine ⟨hrest, valid_bin_red.mpr ⟨⟨color_bin, color_paint_black gs⟩, ?_, ?_⟩⟩
  · exact valid_bin_black.mpr ⟨ht, hps⟩
  · exact valid_paint_black hgs hu

end

/-- Black uncle, the red node on the outer side: one rotation. -/
theorem insert_outer (h : CtxValid (⟨s, pa, .red, pk, ps⟩ :: ⟨s, ga, gc, gk, gs⟩ :: rest) n)
    (ht : t.Valid n) (hu : gs.color = .black) :
    CtxValid rest (n + 1) ∧ (bin s pa .black pk t (bin s ga .red gk ps gs)).Valid (n + 1) := by
  obtain ⟨rfl, ⟨hps, hpsc⟩, hgs, hrest⟩ := insert_parts h
  exact ⟨hrest, valid_bin_black.mpr ⟨ht, valid_bin_red.mpr ⟨⟨hpsc, hu⟩, hps, hgs⟩⟩⟩

/-- Black uncle, the red node on the inner side: two rotations. -/
theorem insert_inner (h : CtxValid (⟨s.opp, pa, .red, pk, ps⟩ :: ⟨s, ga, gc, gk, gs⟩ :: rest) n)
    (ht : (bin s xa .red xk x y).Valid n) (hu : gs.color = .black) :
    CtxValid rest (n + 1) ∧
      (bin s xa .black xk (bin s pa .red pk ps x) (bin s ga .red gk y gs)).Valid (n + 1) := by
  obtain ⟨rfl, ⟨hps, hpsc⟩, hgs, hrest⟩ := insert_parts h
  obtain ⟨⟨hxc, hyc⟩, hx, hy⟩ := valid_bin_red.mp ht
  refine ⟨hrest, valid_bin_black.mpr ⟨?_, ?_⟩⟩
  · exact valid_bin_red.mpr ⟨⟨hpsc, hxc⟩, hps, hx⟩
  · exact valid_bin_red.mpr ⟨⟨hyc, hu⟩, hy, hgs⟩

end Insert

/-! ### Repair after a deletion

The subtree `t` is one black node short of the height `n + 1` that its
place asks for. -/

/-- A subtree that painting black, or adding one black node above, would
bring to the height `n + 1`. -/
def Short (t : Tree ι κ) (n : Nat) : Prop :=
  (t.color = .black → t.Valid n) ∧ (t.color = .red → (t.paint .black).Valid (n + 1))

/-- A valid subtree of height `n` is one short of `n + 1`. -/
theorem short_of_valid (h : t.Valid n) : Short t n := ⟨fun _ => h, valid_paint_black h⟩

/-- What the child of a removed node of the color `c` lacks in its new
place. -/
theorem erase_start {x : Tree ι κ} (hctx : CtxValid ctx n) (hv : (bin s a c k nil x).Valid n) :
    (c = .black → ∃ m, CtxValid ctx (m + 1) ∧ Short x m) ∧
      (c = .red → CtxValid ctx n ∧ x.Valid n ∧ x.color = .black) := by
  constructor
  · rintro rfl
    cases n with
    | zero => exact absurd hv (by simp)
    | succ m => exact ⟨m, hctx, short_of_valid (valid_bin_black.mp hv).2⟩
  · rintro rfl
    obtain ⟨⟨-, hc⟩, -, hx⟩ := valid_bin_red.mp hv
    exact ⟨hctx, hx, hc⟩

section Erase

variable {pa wa va : ι} {pk wk vk : κ} {pc : Color}

/-- Red sibling: one rotation makes the sibling black. -/
theorem erase_redSibling
    (h : CtxValid (⟨s, pa, pc, pk, bin s wa .red wk x y⟩ :: rest) (n + 1)) :
    CtxValid (⟨s, pa, .red, pk, x⟩ :: ⟨s, wa, .black, wk, y⟩ :: rest) (n + 1) ∧
      x.color = .black := by
  cases pc with
  | red =>
    obtain ⟨-, hcol, -⟩ := ctxValid_red.mp h
    rw [color_bin] at hcol
    exact absurd hcol (by decide)
  | black =>
    obtain ⟨hw, hrest⟩ := ctxValid_black.mp h
    obtain ⟨⟨hxc, -⟩, hx, hy⟩ := valid_bin_red.mp hw
    exact ⟨ctxValid_red.mpr ⟨hx, hxc, rfl, ctxValid_black.mpr ⟨hy, hrest⟩⟩, hxc⟩

/-- Black sibling with black children: recolor it, and the parent is the
short subtree. -/
theorem erase_recolor (h : CtxValid (⟨s, pa, pc, pk, bin s wa .black wk x y⟩ :: rest) (n + 1))
    (ht : t.Valid n) (hx : x.color = .black) (hy : y.color = .black) :
    ∃ m, CtxValid rest (m + 1) ∧ Short (bin s pa pc pk t (bin s wa .red wk x y)) m := by
  cases pc with
  | red =>
    obtain ⟨hw, -, -, hrest⟩ := ctxValid_red.mp h
    have hw' : (bin s wa .red wk x y).Valid n := valid_bin_red.mpr ⟨⟨hx, hy⟩, valid_bin_black.mp hw⟩
    refine ⟨n, hrest, fun hc => ?_, fun _ => ?_⟩
    · rw [color_bin] at hc
      exact absurd hc (by decide)
    · rw [paint_bin, valid_bin_black]
      exact ⟨ht, hw'⟩
  | black =>
    obtain ⟨hw, hrest⟩ := ctxValid_black.mp h
    have hw' : (bin s wa .red wk x y).Valid n := valid_bin_red.mpr ⟨⟨hx, hy⟩, valid_bin_black.mp hw⟩
    exact ⟨n + 1, hrest, short_of_valid (valid_bin_black.mpr ⟨ht, hw'⟩)⟩

/-- Black sibling with a red child on the inner side only: one rotation
moves the red child to the outer side. -/
theorem erase_inner (h : (bin s wa .black wk (bin s va .red vk x y) t).Valid (n + 1))
    (ht : t.color = .black) : (bin s va .black vk x (bin s wa .red wk y t)).Valid (n + 1) := by
  obtain ⟨hv, htv⟩ := valid_bin_black.mp h
  obtain ⟨⟨-, hyc⟩, hx, hy⟩ := valid_bin_red.mp hv
  exact valid_bin_black.mpr ⟨hx, valid_bin_red.mpr ⟨⟨hyc, ht⟩, hy, htv⟩⟩

/-- Black sibling with a red child on the outer side: one rotation ends
the repair. -/
theorem erase_outer (h : CtxValid (⟨s, pa, pc, pk, bin s wa .black wk x y⟩ :: rest) (n + 1))
    (ht : t.Valid n) (hy : y.color = .red) :
    ∃ m, CtxValid rest m ∧
      (bin s wa pc wk (bin s pa .black pk t x) (y.paint .black)).Valid m ∧
      (pc = .red → parentColor rest = some .black) := by
  cases pc with
  | red =>
    obtain ⟨hw, -, hpar, hrest⟩ := ctxValid_red.mp h
    obtain ⟨hx, hyv⟩ := valid_bin_black.mp hw
    refine ⟨n + 1, hrest, valid_bin_red.mpr ⟨⟨color_bin, color_paint_black y⟩, ?_, ?_⟩,
      fun _ => hpar⟩
    · exact valid_bin_black.mpr ⟨ht, hx⟩
    · exact valid_paint_black hyv hy
  | black =>
    obtain ⟨hw, hrest⟩ := ctxValid_black.mp h
    obtain ⟨hx, hyv⟩ := valid_bin_black.mp hw
    refine ⟨n + 2, hrest, valid_bin_black.mpr ⟨?_, valid_paint_black hyv hy⟩, fun hc => ?_⟩
    · exact valid_bin_black.mpr ⟨ht, hx⟩
    · exact absurd hc (by decide)

end Erase

/-! ### Search -/

section Search

variable [LinearOrder κ]

/-- Keys increase strictly in order. -/
def Ordered (t : Tree ι κ) : Prop := t.toList.Pairwise fun x y => x.2 < y.2

/-- Walk down to the key `k`: the place reached, and the subtree there,
which is empty or has `k` at its root. -/
def search (k : κ) : Ctx ι κ → Tree ι κ → Ctx ι κ × Tree ι κ
  | ctx, nil => (ctx, nil)
  | ctx, node a c j l r =>
    if k < j then search k (⟨.left, a, c, j, r⟩ :: ctx) l
    else if j < k then search k (⟨.right, a, c, j, l⟩ :: ctx) r
    else (ctx, node a c j l r)

section

variable (k : κ) (ctx : Ctx ι κ) (t : Tree ι κ)

/-- The search takes the tree apart, and loses nothing of it. -/
theorem fill_search : fill (search k ctx t).1 (search k ctx t).2 = fill ctx t := by
  induction t generalizing ctx with
  | nil => rfl
  | node a c j l r ihl ihr =>
    rw [search]
    split
    · exact ihl _
    split
    · exact ihr _
    · rfl

/-- The search ends at an empty place, or at a node with the key. -/
theorem search_tree :
    (search k ctx t).2 = nil ∨ ∃ a c l r, (search k ctx t).2 = node a c k l r := by
  induction t generalizing ctx with
  | nil => exact Or.inl rfl
  | node a c j l r ihl ihr =>
    rw [search]
    split
    · exact ihl _
    next hlt =>
      split
      · exact ihr _
      next hgt =>
        obtain rfl : j = k := le_antisymm (not_lt.mp hlt) (not_lt.mp hgt)
        exact Or.inr ⟨a, c, l, r, rfl⟩

/-- The walk keeps to the right of smaller keys and to the left of
larger ones. -/
theorem search_bounds (hord : Ordered (fill ctx t)) (hb : ∀ x ∈ before ctx, x.2 < k)
    (ha : ∀ x ∈ after ctx, k < x.2) :
    (∀ x ∈ before (search k ctx t).1, x.2 < k) ∧ (∀ x ∈ after (search k ctx t).1, k < x.2) := by
  induction t generalizing ctx with
  | nil => exact ⟨hb, ha⟩
  | node a c j l r ihl ihr =>
    have hmid : (node a c j l r).toList.Pairwise fun x y => x.2 < y.2 := by
      rw [Ordered, toList_fill, List.append_assoc] at hord
      exact (List.pairwise_append.mp (List.pairwise_append.mp hord).2.1).1
    rw [toList, List.pairwise_append, List.pairwise_cons] at hmid
    obtain ⟨-, ⟨hr, -⟩, hl⟩ := hmid
    rw [search]
    split
    · next hlt =>
        refine ihl _ hord hb fun x hx => ?_
        rcases List.mem_append.mp hx with hx | hx
        · rcases List.mem_cons.mp hx with rfl | hx
          · exact hlt
          · exact lt_trans hlt (hr x hx)
        · exact ha x hx
    · split
      · next hgt =>
          refine ihr _ hord (fun x hx => ?_) ha
          rcases List.mem_append.mp hx with hx | hx
          · rcases List.mem_append.mp hx with hx | hx
            · exact hb x hx
            · exact lt_trans (hl x hx _ List.mem_cons_self) hgt
          · rw [List.mem_singleton.mp hx]
            exact hgt
      · exact ⟨hb, ha⟩

end

/-- A search from the root of an ordered tree. -/
theorem search_root (hord : Ordered t) (k : κ) :
    ∃ ctx t', search k [] t = (ctx, t') ∧ fill ctx t' = t ∧
      (t' = nil ∨ ∃ a c l r, t' = node a c k l r) ∧
      (∀ x ∈ before ctx, x.2 < k) ∧ (∀ x ∈ after ctx, k < x.2) := by
  obtain ⟨hb, ha⟩ := search_bounds k [] t hord (fun x hx => absurd hx List.not_mem_nil)
    (fun x hx => absurd hx List.not_mem_nil)
  exact ⟨_, _, rfl, fill_search k [] t, search_tree k [] t, hb, ha⟩

/-- A key goes to the side its place is on. -/
theorem side_of_bounds {f : Frame ι κ} (hb : ∀ x ∈ before (f :: rest), x.2 < k)
    (ha : ∀ x ∈ after (f :: rest), k < x.2) :
    (if k < f.key then Side.left else Side.right) = f.side := by
  obtain ⟨side, addr, color, key, sib⟩ := f
  cases side with
  | left => exact if_pos (ha (addr, key) (by simp [after]))
  | right => exact if_neg (not_lt.mpr (le_of_lt (hb (addr, key) (by simp [before]))))

/-- A new key in an empty place between smaller and larger keys. -/
theorem ordered_fill_node (hord : Ordered (fill ctx (nil : Tree ι κ)))
    (hb : ∀ x ∈ before ctx, x.2 < k) (ha : ∀ x ∈ after ctx, k < x.2) (a : ι) (c : Color) :
    Ordered (fill ctx (node a c k nil nil)) := by
  rw [Ordered, toList_fill, List.append_assoc] at hord ⊢
  obtain ⟨h1, h2, h3⟩ := List.pairwise_append.mp hord
  refine List.pairwise_append.mpr ⟨h1, List.pairwise_cons.mpr ⟨ha, h2⟩, fun x hx y hy => ?_⟩
  rcases List.mem_cons.mp hy with rfl | hy
  · exact hb x hx
  · exact h3 x hx y hy

end Search

/-- A path that goes left only has nothing before it. -/
theorem before_eq_nil (h : ∀ f ∈ path, f.side = .left) : before path = [] := by
  induction path with
  | nil => rfl
  | cons f rest ih =>
    rw [before, h f List.mem_cons_self]
    exact ih fun g hg => h g (List.mem_cons_of_mem _ hg)

end CoreZ.Lib.RedBlack
