import Mathlib.Data.List.Chain

/-!
# `CoreZ.Lib.Tiling`: areas cut into tiles

An area is a base address and a list of tiles, each of which starts
where the one before it ends; an end mark of `hdr` bytes follows the
last tile. A layout is a list of areas. `placed` gives every tile its
address, and `blocks` is the list of all tiles of a layout with their
addresses.

A `Place` is a gap in a layout: `pl.fill ts` is the layout with the
tiles `ts` in the gap, and `pl.outer n` are the blocks around a gap of
`n` bytes. The tiles in a gap may be cut and joined freely: as long as
their total size stays, nothing around them moves.

`outer_apart` is the separation that every argument about memory rests
on: the blocks around a gap do not reach into it.
-/

set_option autoImplicit false

namespace CoreZ.Lib.Tiling

open List

structure Tile where
  total : Nat
  free : Bool
  deriving DecidableEq

/-- The size of a list of tiles. -/
def span : List Tile → Nat
  | [] => 0
  | t :: ts => t.total + span ts

@[simp] theorem span_nil : span [] = 0 := rfl

@[simp] theorem span_cons (t : Tile) (ts : List Tile) : span (t :: ts) = t.total + span ts := rfl

@[simp] theorem span_append (xs ys : List Tile) : span (xs ++ ys) = span xs + span ys := by
  induction xs with
  | nil => simp
  | cons t ts ih => rw [cons_append, span_cons, span_cons, ih, Nat.add_assoc]

@[simp] theorem span_reverse (xs : List Tile) : span xs.reverse = span xs := by
  induction xs with
  | nil => rfl
  | cons t ts ih => rw [reverse_cons, span_append, ih, span_cons, span_cons, span_nil]; omega

/-- The tiles from the address `a` on, with their addresses. -/
def placed : Nat → List Tile → List (Nat × Tile)
  | _, [] => []
  | a, t :: ts => (a, t) :: placed (a + t.total) ts

/-- The tiles of two runs, one behind the other. -/
theorem placed_append (a : Nat) (xs ys : List Tile) :
    placed a (xs ++ ys) = placed a xs ++ placed (a + span xs) ys := by
  induction xs generalizing a with
  | nil => simp [placed]
  | cons t ts ih => simp [placed, ih, Nat.add_assoc]

variable {ts : List Tile} {a hdr : Nat} {x : Nat × Tile} {t : Tile}

section

variable {x : Nat} (h : (x, t) ∈ placed a ts)

include h

/-- A tile lies in the run. -/
theorem placed_bounds : a ≤ x ∧ x + t.total ≤ a + span ts := by
  induction ts generalizing a with
  | nil => exact absurd h not_mem_nil
  | cons u us ih =>
    rw [placed, mem_cons] at h
    rw [span_cons]
    rcases h with heq | h
    · obtain ⟨rfl, rfl⟩ := Prod.mk.inj heq
      omega
    · have := ih h
      omega

/-- A block that is placed is one of the tiles. -/
theorem mem_of_mem_placed : t ∈ ts := by
  induction ts generalizing a with
  | nil => exact absurd h not_mem_nil
  | cons u us ih =>
    rcases mem_cons.mp h with heq | h
    · rw [(Prod.mk.inj heq).2]
      exact mem_cons_self
    · exact mem_cons_of_mem _ (ih h)

/-- A placed tile cuts the list. -/
theorem exists_of_mem_placed : ∃ xs ys, ts = xs ++ t :: ys ∧ x = a + span xs := by
  induction ts generalizing a with
  | nil => exact absurd h not_mem_nil
  | cons u us ih =>
    rcases mem_cons.mp h with heq | h
    · obtain ⟨rfl, rfl⟩ := Prod.mk.inj heq
      exact ⟨[], us, rfl, rfl⟩
    · obtain ⟨xs, ys, rfl, rfl⟩ := ih h
      exact ⟨u :: xs, ys, rfl, by rw [span_cons, Nat.add_assoc]⟩

end

structure Area where
  base : Nat
  tiles : List Tile

abbrev Layout := List Area

/-- All tiles of a layout with their addresses. -/
def blocks (L : Layout) : List (Nat × Tile) := L.flatMap fun A => placed A.base A.tiles

variable {L : Layout}

/-- A block is a tile of some area. -/
theorem mem_blocks : x ∈ blocks L ↔ ∃ A ∈ L, x ∈ placed A.base A.tiles := mem_flatMap

theorem blocks_append (L L' : Layout) : blocks (L ++ L') = blocks L ++ blocks L' := flatMap_append

/-- Two areas with their end marks do not overlap. -/
def Apart (hdr : Nat) (A B : Area) : Prop :=
  A.base + span A.tiles + hdr ≤ B.base ∨ B.base + span B.tiles + hdr ≤ A.base

/-- Tiles are larger than an end mark, and areas do not overlap. -/
structure WellFormed (hdr : Nat) (L : Layout) : Prop where
  pos : 0 < hdr
  tile : ∀ A ∈ L, ∀ t ∈ A.tiles, hdr ≤ t.total
  apart : L.Pairwise (Apart hdr)

/-- A header fits into every block. -/
theorem WellFormed.le_total (h : WellFormed hdr L) (ht : (a, t) ∈ blocks L) : hdr ≤ t.total := by
  obtain ⟨A, hA, hmem⟩ := mem_blocks.mp ht
  exact h.tile A hA t (mem_of_mem_placed hmem)

/-! ### Places -/

/-- A gap in a layout; `pre` are the tiles before it in its area, the
nearest first. -/
structure Place where
  left : Layout
  base : Nat
  pre : List Tile
  post : List Tile
  right : Layout

variable {pl : Place}

namespace Place

/-- The address of the gap. -/
def addr (pl : Place) : Nat := pl.base + span pl.pre

def fill (pl : Place) (ts : List Tile) : Layout :=
  pl.left ++ ⟨pl.base, pl.pre.reverse ++ (ts ++ pl.post)⟩ :: pl.right

/-- The blocks around a gap of `n` bytes. -/
def outer (pl : Place) (n : Nat) : List (Nat × Tile) :=
  blocks pl.left ++ placed pl.base pl.pre.reverse ++ placed (pl.addr + n) pl.post
    ++ blocks pl.right

/-- One tile of the gap goes to its right edge. -/
def withPost (pl : Place) (t : Tile) : Place := { pl with post := t :: pl.post }

/-- One tile of the gap goes to its left edge. -/
def withPre (pl : Place) (t : Tile) : Place := { pl with pre := t :: pl.pre }

section

variable (pl : Place) (t : Tile)

/-- The tile behind the place can be counted to what fills it. -/
theorem fill_withPost (ts : List Tile) : (pl.withPost t).fill ts = pl.fill (ts ++ [t]) := by
  simp [fill, withPost]

/-- So can the tile before it, and then the place begins there. -/
theorem fill_withPre (ts : List Tile) : (pl.withPre t).fill ts = pl.fill (t :: ts) := by
  simp [fill, withPre]

@[simp] theorem addr_withPost : (pl.withPost t).addr = pl.addr := rfl

theorem addr_withPre : (pl.withPre t).addr = pl.addr + t.total := by
  simp only [addr, withPre, span_cons]
  omega

end

/-- A block is around the place, or one of the tiles that fill it. -/
theorem mem_blocks_fill :
    x ∈ blocks (pl.fill ts) ↔ x ∈ pl.outer (span ts) ∨ x ∈ placed pl.addr ts := by
  have harea : placed pl.base (pl.pre.reverse ++ (ts ++ pl.post))
      = placed pl.base pl.pre.reverse ++ (placed pl.addr ts ++ placed (pl.addr + span ts)
        pl.post) := by
    rw [placed_append, placed_append, span_reverse]
    rfl
  rw [fill, blocks_append, show ∀ A (R : Layout), blocks (A :: R) =
    placed A.base A.tiles ++ blocks R
    from fun _ _ => rfl, harea, outer]
  simp only [mem_append]
  tauto

/-- The blocks around, when one more tile behind is among them. -/
theorem mem_outer_withPost {n : Nat} :
    x ∈ (pl.withPost t).outer n ↔ x ∈ pl.outer (n + t.total) ∨ x = (pl.addr + n, t) := by
  simp only [outer, withPost, addr, placed, mem_append, mem_cons, Nat.add_assoc]
  tauto

/-- The blocks around, when one more tile before is among them. -/
theorem mem_outer_withPre {n : Nat} :
    x ∈ (pl.withPre t).outer n ↔ x ∈ pl.outer (t.total + n) ∨ x = (pl.addr, t) := by
  have hpost : pl.base + (t.total + span pl.pre) + n =
    pl.base + span pl.pre + (t.total + n) := by omega
  simp only [outer, withPre, addr, span_cons, hpost, reverse_cons, placed_append, span_reverse,
    placed, mem_append, mem_singleton]
  tauto

/-- The blocks around a gap do not reach into it. -/
theorem outer_apart (h : WellFormed hdr (pl.fill ts)) (ha : (a, t) ∈ pl.outer (span ts)) :
    a + t.total ≤ pl.addr ∨ pl.addr + span ts ≤ a := by
  have hap := h.apart
  rw [fill, pairwise_append, pairwise_cons] at hap
  obtain ⟨-, ⟨hright, -⟩, hleft⟩ := hap
  -- an area on either side keeps away from the whole area of the gap
  have hother : ∀ A : Area, Apart hdr A ⟨pl.base, pl.pre.reverse ++ (ts ++ pl.post)⟩ →
      (a, t) ∈ placed A.base A.tiles → a + t.total ≤ pl.addr ∨ pl.addr + span ts ≤ a := by
    intro A hA hmem
    have hb := placed_bounds hmem
    simp only [Apart, span_append, span_reverse] at hA
    rw [addr]
    omega
  simp only [outer, mem_append] at ha
  rcases ha with ((ha | ha) | ha) | ha
  · obtain ⟨A, hA, hmem⟩ := mem_blocks.mp ha
    exact hother A (hleft A hA _ mem_cons_self) hmem
  · have := placed_bounds ha
    rw [span_reverse] at this
    exact .inl this.2
  · exact .inr (placed_bounds ha).1
  · obtain ⟨A, hA, hmem⟩ := mem_blocks.mp ha
    exact hother A (hright A hA).symm hmem

/-- The areas of a filled gap: the others, and the area of the gap. -/
theorem forall_fill {P : Area → Prop} : (∀ A ∈ pl.fill ts, P A) ↔
    (∀ A ∈ pl.left, P A) ∧ P ⟨pl.base, pl.pre.reverse ++ (ts ++ pl.post)⟩ ∧
      ∀ A ∈ pl.right, P A := by
  simp [fill, or_imp, forall_and]

/-- Other tiles in the gap, of the same property. -/
theorem forall_tiles {P : Tile → Prop} {ts' : List Tile}
    (h : ∀ A ∈ pl.fill ts, ∀ t ∈ A.tiles, P t) (hts : ∀ t ∈ ts', P t) :
    ∀ A ∈ pl.fill ts', ∀ t ∈ A.tiles, P t := by
  obtain ⟨hleft, hmid, hright⟩ := forall_fill.mp h
  refine forall_fill.mpr ⟨hleft, ?_, hright⟩
  simp only [forall_mem_append] at hmid ⊢
  exact ⟨hmid.1, hts, hmid.2.2⟩

/-- Cutting and joining inside a gap keeps a layout well formed. -/
theorem wellFormed_fill {ts' : List Tile} (h : WellFormed hdr (pl.fill ts))
    (hspan : span ts' = span ts) (hts : ∀ t ∈ ts', hdr ≤ t.total) :
    WellFormed hdr (pl.fill ts') := by
  refine ⟨h.pos, forall_tiles h.tile hts, ?_⟩
  have hap := h.apart
  simp only [fill, pairwise_append, pairwise_cons, Apart, span_append, span_reverse,
    mem_cons, forall_eq_or_imp, hspan] at hap ⊢
  exact hap

end Place

/-- Every block sits in a gap of its size. -/
theorem exists_place (h : (a, t) ∈ blocks L) : ∃ pl : Place, L = pl.fill [t] ∧ pl.addr = a := by
  obtain ⟨A, hA, hmem⟩ := mem_blocks.mp h
  obtain ⟨left, right, rfl⟩ := append_of_mem hA
  obtain ⟨base, tiles⟩ := A
  obtain ⟨xs, ys, rfl, rfl⟩ := exists_of_mem_placed hmem
  exact ⟨⟨left, base, xs.reverse, ys, right⟩, by simp [Place.fill], by simp [Place.addr]⟩

/-- Two blocks are one or do not overlap. -/
theorem blocks_apart (h : WellFormed hdr L) {b : Nat} {u : Tile} (ht : (a, t) ∈ blocks L)
    (hu : (b, u) ∈ blocks L) : (a = b ∧ t = u) ∨ a + t.total ≤ b ∨ b + u.total ≤ a := by
  obtain ⟨pl, rfl, rfl⟩ := exists_place hu
  rcases Place.mem_blocks_fill.mp ht with hout | hin
  · right
    have := Place.outer_apart h hout
    exact this
  · rw [placed, placed, mem_singleton] at hin
    exact .inl (Prod.mk.inj hin)

/-- No two blocks have one address. -/
theorem blocks_unique (h : WellFormed hdr L) {u : Tile} (ht : (a, t) ∈ blocks L)
    (hu : (a, u) ∈ blocks L) : t = u := by
  have hpos := h.pos
  have h1 := h.le_total ht
  have h2 := h.le_total hu
  rcases blocks_apart h ht hu with ⟨-, heq⟩ | hlt | hlt
  · exact heq
  · omega
  · omega

/-- The address of a block or of an end mark. -/
def IsHead (L : Layout) (x : Nat) : Prop :=
  (∃ t, (x, t) ∈ blocks L) ∨ ∃ A ∈ L, x = A.base + span A.tiles

/-- No block has a head inside. -/
theorem isHead_apart (h : WellFormed hdr L) {x : Nat} (hx : IsHead L x) (ht : (a, t) ∈ blocks L) :
    x ≤ a ∨ a + t.total ≤ x := by
  rcases hx with ⟨u, hu⟩ | ⟨A, hA, rfl⟩
  · rcases blocks_apart h hu ht with ⟨rfl, -⟩ | hlt | hlt
    · exact .inl le_rfl
    · exact .inl (by omega)
    · exact .inr hlt
  obtain ⟨B, hB, hmem⟩ := mem_blocks.mp ht
  have hb := placed_bounds hmem
  by_cases heq : A = B
  · subst heq
    exact .inr hb.2
  have hAB : Apart hdr A B := by
    have : Std.Symm (Apart hdr) := ⟨fun A B hAB => hAB.symm⟩
    exact h.apart.forall hA hB heq
  rcases hAB with hAB | hAB
  · exact .inl (by omega)
  · exact .inr (by omega)

/-! ### Coalesced layouts -/

/-- Neighbours that are not both free. -/
def NotBothFree (s t : Tile) : Prop := ¬ (s.free = true ∧ t.free = true)

/-- No two neighbours are both free. -/
def Coalesced (L : Layout) : Prop := ∀ A ∈ L, A.tiles.IsChain NotBothFree

/-- What a coalesced layout says around a gap with one tile. -/
structure Place.Separated (pl : Place) (f : Bool) : Prop where
  other : ∀ A ∈ pl.left ++ pl.right, A.tiles.IsChain NotBothFree
  pre : pl.pre.reverse.IsChain NotBothFree
  post : pl.post.IsChain NotBothFree
  before : ∀ p ∈ pl.pre.head?, ¬ (p.free = true ∧ f = true)
  behind : ∀ n ∈ pl.post.head?, ¬ (f = true ∧ n.free = true)

/-- No two free neighbours: a condition on the neighbours of the place. -/
theorem coalesced_fill : Coalesced (pl.fill [t]) ↔ pl.Separated t.free := by
  have hchain : (pl.pre.reverse ++ ([t] ++ pl.post)).IsChain NotBothFree ↔
      pl.pre.reverse.IsChain NotBothFree ∧ pl.post.IsChain NotBothFree ∧
        (∀ p ∈ pl.pre.head?, NotBothFree p t) ∧ ∀ n ∈ pl.post.head?, NotBothFree t n := by
    rw [isChain_append, singleton_append, isChain_cons, getLast?_reverse]
    simp only [head?_cons, Option.mem_def, Option.some.injEq, forall_eq']
    tauto
  constructor
  · intro h
    obtain ⟨h1, h2, h3, h4⟩ := hchain.mp (h _ (mem_append_right _ mem_cons_self))
    refine ⟨fun A hA => h A ?_, h1, h2, h3, h4⟩
    rcases mem_append.mp hA with hA | hA
    · exact mem_append_left _ hA
    · exact mem_append_right _ (mem_cons_of_mem _ hA)
  · intro h A hA
    rcases mem_append.mp hA with hA | hA
    · exact h.other A (mem_append_left _ hA)
    rcases mem_cons.mp hA with rfl | hA
    · exact hchain.mpr ⟨h.pre, h.post, h.before, h.behind⟩
    · exact h.other A (mem_append_right _ hA)

end CoreZ.Lib.Tiling
