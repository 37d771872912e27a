import CoreZ.Lib.Tiling
import CoreZ.Proofs.Mm.Kheap.FreeList

/-!
# `CoreZ.Proofs.Mm.Kheap.Tiles`: the boundary tags in memory

`Seg m a p f ts` says that the memory `m` holds the headers of the tiles
`ts` from the address `a` on and the sentinel behind them, where `p` and
`f` are the previous link and the previous-free flag of the first
header. `Good h L S` puts the parts together: the areas of the heap `h`
are the layout `L`, its memory holds the headers, and the free lists
hold the blocks of `S`, which are free blocks of `L`.

The writes of the source to headers are local edits of the tiles in one
gap of the layout: `Good.setFree`, `Good.join` and `Good.split`. They
are cases of `Good.update`, which needs the new headers in the gap and
nothing else: what stands outside a gap is left alone by writes inside
it. `Good.push` and `Good.remove` change `S` and leave the layout.
-/

set_option autoImplicit false

namespace CoreZ.Proofs.Mm.Kheap

open CoreZ.Lib.Tiling
open CoreZ.Mm.Kheap

/-! ### Headers -/

/-- The headers of the tiles from `a` on, and the sentinel. -/
def Seg (m : Mem) : Nat → Nat → Bool → List Tile → Prop
  | a, p, f, [] => m a = p ∧ m (a + 8) = enc 0 false f
  | a, p, f, t :: ts => m a = p ∧ m (a + 8) = enc t.total t.free f ∧ Seg m (a + t.total) a t.free ts

/-- The address of the nearest tile of `pre`, or `NULL`. -/
def prevAddr (base : Nat) : List Tile → Nat
  | [] => 0
  | _ :: ts => base + span ts

def prevFree : List Tile → Bool
  | [] => false
  | t :: _ => t.free

/-- The headers of the tiles `pre` from `base` on, the nearest first. -/
def Rev (m : Mem) (base : Nat) : List Tile → Prop
  | [] => True
  | t :: ts =>
    m (base + span ts) = prevAddr base ts ∧
      m (base + span ts + 8) = enc t.total t.free (prevFree ts) ∧ Rev m base ts

variable {f fr pf : Bool} {h h' : Heap} {L : Layout} {ts : List Tile} {m m' : Mem} {a b p t : Nat}
  {P S : Nat → Nat → Prop} {pl : Place}

/-- An area seen from a gap. -/
theorem seg_reverse {base : Nat} (pre ts : List Tile) :
    Seg m base 0 false (pre.reverse ++ ts) ↔
      Rev m base pre ∧ Seg m (base + span pre) (prevAddr base pre) (prevFree pre) ts := by
  induction pre generalizing ts with
  | nil => simp [Rev, prevAddr, prevFree]
  | cons t pre ih =>
    rw [List.reverse_cons, List.append_assoc, List.singleton_append, ih]
    simp only [Seg, Rev, prevAddr, prevFree, span_cons,
      show base + (t.total + span pre) = base + span pre + t.total by omega]
    tauto

/-- A run of tiles depends on the headers of its blocks and of the one behind it. -/
theorem Seg.congr (hs : Seg m a p f ts)
    (hhead : ∀ x t, (x, t) ∈ placed a ts → m' x = m x ∧ m' (x + 8) = m (x + 8))
    (hend : m' (a + span ts) = m (a + span ts) ∧ m' (a + span ts + 8) = m (a + span ts + 8)) :
    Seg m' a p f ts := by
  induction ts generalizing a p f with
  | nil => exact ⟨hend.1.trans hs.1, hend.2.trans hs.2⟩
  | cons t ts ih =>
    obtain ⟨h1, h2, hrest⟩ := hs
    obtain ⟨e1, e2⟩ := hhead a t List.mem_cons_self
    refine ⟨e1.trans h1, e2.trans h2, ih hrest (fun x u hx => hhead x u ?_) ?_⟩
    · exact List.mem_cons_of_mem _ hx
    · rw [span_cons, ← add_assoc] at hend
      exact hend

/-- Headers depend on the words of their area only. -/
theorem Seg.congr_range (hs : Seg m a p f ts)
    (heq : ∀ y, a ≤ y → y < a + span ts + 16 → m' y = m y) : Seg m' a p f ts := by
  refine hs.congr (fun x t hx => ?_) ⟨heq _ (by omega) (by omega), heq _ (by omega) (by omega)⟩
  have hb := placed_bounds hx
  exact ⟨heq x (by omega) (by omega), heq (x + 8) (by omega) (by omega)⟩

/-- The tiles before a place depend on the memory before it. -/
theorem Rev.congr {base : Nat} {pre : List Tile} (hs : Rev m base pre)
    (hts : ∀ t ∈ pre, 16 ≤ t.total) (heq : ∀ y, y < base + span pre → m' y = m y) :
    Rev m' base pre := by
  induction pre with
  | nil => trivial
  | cons t ts ih =>
    obtain ⟨h1, h2, hrest⟩ := hs
    have := hts t List.mem_cons_self
    rw [span_cons] at heq
    refine ⟨(heq _ (by omega)).trans h1, (heq _ (by omega)).trans h2, ih hrest ?_ fun y hy => ?_⟩
    · exact fun u hu => hts u (List.mem_cons_of_mem _ hu)
    · exact heq y (by omega)

/-- The total of the first tile; the sentinel has 0. -/
def headTotal : List Tile → Nat
  | [] => 0
  | t :: _ => t.total

def headFree : List Tile → Bool
  | [] => false
  | t :: _ => t.free

/-- The header of the first block names the block before it. -/
theorem Seg.head_prev (hs : Seg m a p f ts) : m a = p := by
  cases ts with
  | nil => exact hs.1
  | cons t ts => exact hs.1

/-- The header of the first block has its size and its two flags. -/
theorem Seg.head_size (hs : Seg m a p f ts) : m (a + 8) = enc (headTotal ts) (headFree ts) f := by
  cases ts with
  | nil => exact hs.2
  | cons t ts => exact hs.2.1

/-- Another previous link and flag in the first header. -/
theorem Seg.relink {p' : Nat} {f' : Bool} (hs : Seg m a p f ts) (hts : ∀ t ∈ ts, 16 ≤ t.total)
    (hp : m' a = p') (hsize : m' (a + 8) = enc (headTotal ts) (headFree ts) f')
    (hrest : ∀ y, a + 16 ≤ y → m' y = m y) : Seg m' a p' f' ts := by
  cases ts with
  | nil => exact ⟨hp, hsize⟩
  | cons t ts =>
    refine ⟨hp, hsize, hs.2.2.congr_range ?_⟩
    have := hts t List.mem_cons_self
    exact fun y hy _ => hrest y (by omega)

/-- The headers of every area. -/
def TileRep (m : Mem) (L : Layout) : Prop := ∀ A ∈ L, Seg m A.base 0 false A.tiles

/-- The representation depends on the headers only. -/
theorem TileRep.congr (hr : TileRep m L)
    (heq : ∀ x, IsHead L x → m' x = m x ∧ m' (x + 8) = m (x + 8)) : TileRep m' L := by
  intro A hA
  refine (hr A hA).congr (fun x t hx => heq x (.inl ⟨t, mem_blocks.mpr ⟨A, hA, hx⟩⟩)) ?_
  exact heq _ (.inr ⟨A, hA, rfl⟩)

/-! ### Good states -/

/-- The sizes of tiles and areas. -/
structure Shape (L : Layout) : Prop where
  wf : WellFormed 16 L
  tile : ∀ A ∈ L, ∀ t ∈ A.tiles, t.total % 16 = 0 ∧ 32 ≤ t.total
  area : ∀ A ∈ L, A.base % 16 = 0 ∧ 0 < A.base ∧ span A.tiles + 16 ≤ 1048576 ∧
    A.base + span A.tiles + 16 ≤ 18446744073709551616
  count : L.length ≤ 64

/-- The heap has the layout `L`, and its free lists hold the blocks of
`S`. -/
structure Good (h : Heap) (L : Layout) (S : Nat → Nat → Prop) : Prop where
  shape : Shape L
  areas : h.areas = L.map fun A => (A.base, span A.tiles + 16)
  tiles : TileRep h.mem L
  free : ∃ ls, Lists h S ls
  sub : ∀ a t, S a t → (a, ⟨t, true⟩) ∈ blocks L

/-- Sizes and addresses of the blocks of an area. -/
theorem Shape.block (hs : Shape L) {t : Tile} (ht : (a, t) ∈ blocks L) :
    a % 16 = 0 ∧ a ≠ 0 ∧ t.total % 16 = 0 ∧ 32 ≤ t.total ∧ t.total < 1048576 ∧
      a + t.total < 2 ^ 64 := by
  obtain ⟨A, hA, hmem⟩ := mem_blocks.mp ht
  have hb := placed_bounds hmem
  have htile := hs.tile A hA t (mem_of_mem_placed hmem)
  have harea := hs.area A hA
  -- the address is the base and a sum of totals
  obtain ⟨xs, ys, htiles, rfl⟩ := exists_of_mem_placed hmem
  have hspan : ∀ zs : List Tile, (∀ z ∈ zs, z.total % 16 = 0) → span zs % 16 = 0 := by
    intro zs
    induction zs with
    | nil => intro _; rfl
    | cons z zs ih =>
      intro hz
      have h1 := hz z List.mem_cons_self
      have h2 := ih fun y hy => hz y (List.mem_cons_of_mem _ hy)
      rw [span_cons]
      omega
  have hxs := hspan xs fun z hz => (hs.tile A hA z (by rw [htiles]; simp [hz])).1
  omega

/-- A free block can stand in a list. -/
theorem Good.listable (hG : Good h L S) (ht : (a, ⟨t, true⟩) ∈ blocks L) : Listable a t := by
  have := hG.shape.block ht
  exact ⟨this.1, this.2.1, this.2.2.2.1, by have := this.2.2.2.2.1; simp only at this; omega⟩

/-- The headers from a gap on. -/
theorem Good.seg (hG : Good h (pl.fill ts) S) :
    Rev h.mem pl.base pl.pre ∧
      Seg h.mem pl.addr (prevAddr pl.base pl.pre) (prevFree pl.pre) (ts ++ pl.post) :=
  (seg_reverse ..).mp (hG.tiles _ (List.mem_append_right _ List.mem_cons_self))

/-- Sizes of the tiles around a place. -/
theorem Shape.post (hs : Shape (pl.fill ts)) :
    (∀ t ∈ pl.pre, 16 ≤ t.total) ∧ (∀ t ∈ ts, t.total % 16 = 0 ∧ 32 ≤ t.total) ∧
      (∀ t ∈ pl.post, t.total % 16 = 0 ∧ 32 ≤ t.total) := by
  have htile := hs.tile _ (List.mem_append_right _ List.mem_cons_self)
  simp only [List.mem_append, List.mem_reverse] at htile
  refine ⟨fun t ht => ?_, fun t ht => htile t (.inr (.inl ht)),
    fun t ht => htile t (.inr (.inr ht))⟩
  have := htile t (.inl ht)
  omega

/-- An edit in a gap keeps the shape. -/
theorem Shape.fill {ts' : List Tile} (hs : Shape (pl.fill ts)) (hspan : span ts' = span ts)
    (hval : ∀ t ∈ ts', t.total % 16 = 0 ∧ 32 ≤ t.total) : Shape (pl.fill ts') := by
  obtain ⟨hleft, hmid, hright⟩ := Place.forall_fill.mp hs.area
  refine ⟨Place.wellFormed_fill hs.wf hspan fun t ht => by have := hval t ht; omega,
    Place.forall_tiles hs.tile hval, Place.forall_fill.mpr ⟨hleft, ?_, hright⟩, ?_⟩
  · simp only [span_append, hspan] at hmid ⊢
    exact hmid
  · have := hs.count
    simp only [Place.fill, List.length_append, List.length_cons] at this ⊢
    exact this

/-! ### Payloads -/

/-- The payloads of the blocks `P` are the same. -/
def Kept (P : Nat → Nat → Prop) (h h' : Heap) : Prop :=
  ∀ a u, P a u → ∀ y, a + 16 ≤ y → y < a + u → h'.mem y = h.mem y

/-- The used blocks of a layout. -/
def usedOf (L : Layout) : Nat → Nat → Prop := fun a t => (a, ⟨t, false⟩) ∈ blocks L

/-- The used blocks around a gap. -/
def outerUsed (pl : Place) (n : Nat) : Nat → Nat → Prop := fun a t => (a, ⟨t, false⟩) ∈ pl.outer n

theorem Kept.refl (P : Nat → Nat → Prop) (h : Heap) : Kept P h h := fun _ _ _ _ _ _ => rfl

/-- Kept twice. -/
theorem Kept.trans {h₁ h₂ h₃ : Heap} (h12 : Kept P h₁ h₂) (h23 : Kept P h₂ h₃) : Kept P h₁ h₃ := by
  intro a u ha y h1 h2
  rw [h23 a u ha y h1 h2, h12 a u ha y h1 h2]

/-- Fewer blocks have to be kept. -/
theorem Kept.mono {Q : Nat → Nat → Prop} (hk : Kept P h h') (hsub : ∀ a u, Q a u → P a u) :
    Kept Q h h' := fun a u ha => hk a u (hsub a u ha)

/-- Memory outside the blocks does not matter. -/
theorem Kept.of_mem_eq {h₁ h₂ : Heap} (hk : Kept P h h₁) (hmem : h₂.mem = h₁.mem) :
    Kept P h h₂ := by
  intro a u ha y h1 h2
  rw [hmem]
  exact hk a u ha y h1 h2

/-- An edit of the tiles in a gap, none of which is listed. -/
theorem Good.update {ts' : List Tile} (hG : Good h (pl.fill ts) S) (hspan : span ts' = span ts)
    (hval : ∀ t ∈ ts', t.total % 16 = 0 ∧ 32 ≤ t.total)
    (hS : ∀ a t, S a t → (a, ⟨t, true⟩) ∈ pl.outer (span ts))
    (hseg : Seg h'.mem pl.addr (prevAddr pl.base pl.pre) (prevFree pl.pre) (ts' ++ pl.post))
    (hmem : ∀ y, y < pl.addr ∨ pl.addr + span ts + 16 ≤ y → h'.mem y = h.mem y)
    (hctl : SameCtl h h') : Good h' (pl.fill ts') S ∧ Kept (outerUsed pl (span ts)) h h' := by
  have hpost := hG.shape.post
  have htiles := Place.forall_fill.mp hG.tiles
  have hap := hG.shape.wf.apart
  rw [Place.fill, List.pairwise_append, List.pairwise_cons] at hap
  obtain ⟨-, ⟨hright, -⟩, hleft⟩ := hap
  -- another area keeps away from the whole area of the gap
  have hother : ∀ A : Area, Seg h.mem A.base 0 false A.tiles →
      Apart 16 A ⟨pl.base, pl.pre.reverse ++ (ts ++ pl.post)⟩ →
      Seg h'.mem A.base 0 false A.tiles := by
    intro A hA hAp
    refine hA.congr_range fun y h1 h2 => hmem y ?_
    simp only [Apart, span_append, span_reverse] at hAp
    rw [Place.addr]
    omega
  refine ⟨⟨hG.shape.fill hspan hval, ?_, Place.forall_fill.mpr ⟨fun A hA => ?_,
    (seg_reverse ..).mpr ⟨hG.seg.1.congr hpost.1 fun y hy => hmem y (.inl hy), hseg⟩,
    fun A hA => ?_⟩, ?_, fun a t ha => ?_⟩, fun a u ha y h1 h2 => hmem y ?_⟩
  · rw [hctl.areas, hG.areas]
    simp [Place.fill, hspan]
  · exact hother A (htiles.1 A hA) (hleft A hA _ List.mem_cons_self)
  · exact hother A (htiles.2.2 A hA) (hright A hA).symm
  · obtain ⟨ls, hL⟩ := hG.free
    refine ⟨ls, hL.congr hctl.blocks hctl.slBitmap hctl.flBitmap fun a t ha => ?_⟩
    have h32 := (hL.listable a t ha).ge
    have hap := Place.outer_apart hG.shape.wf (hS a t ha)
    simp only at hap
    exact ⟨hmem _ (by omega), hmem _ (by omega)⟩
  · rw [Place.mem_blocks_fill, hspan]
    exact .inl (hS a t ha)
  · have hap := Place.outer_apart hG.shape.wf ha
    simp only at hap
    omega

/-- A new area outside the others, none of its blocks listed. -/
theorem Good.append {k : Heap} {A : Area} (hG : Good h L S)
    (htile : ∀ t ∈ A.tiles, t.total % 16 = 0 ∧ 32 ≤ t.total)
    (harea : A.base % 16 = 0 ∧ 0 < A.base ∧ span A.tiles + 16 ≤ 1048576 ∧
      A.base + span A.tiles + 16 ≤ 18446744073709551616) (hapart : ∀ B ∈ L, Apart 16 B A)
    (hcount : L.length < 64) (hareas : k.areas = h.areas ++ [(A.base, span A.tiles + 16)])
    (hctl : k.blocks = h.blocks ∧ k.slBitmap = h.slBitmap ∧ k.flBitmap = h.flBitmap)
    (hseg : Seg k.mem A.base 0 false A.tiles)
    (hmem : ∀ y, y < A.base ∨ A.base + span A.tiles + 16 ≤ y → k.mem y = h.mem y) :
    Good k (L ++ [A]) S ∧ Kept (usedOf L) h k := by
  -- the old areas and the new one
  have hall : ∀ {Q : Area → Prop}, (∀ B ∈ L, Q B) → Q A → ∀ B ∈ L ++ [A], Q B := fun h1 h2 =>
    List.forall_mem_append.mpr ⟨h1, List.forall_mem_singleton.mpr h2⟩
  -- a block of the old areas lies outside the new one
  have hold : ∀ a t, (a, t) ∈ blocks L → ∀ y, a ≤ y → y < a + t.total → k.mem y = h.mem y := by
    intro a t ha y h1 h2
    obtain ⟨B, hB, hplaced⟩ := mem_blocks.mp ha
    have hb := placed_bounds hplaced
    have hAp := hapart B hB
    rw [Apart] at hAp
    exact hmem y (by omega)
  refine ⟨⟨⟨⟨by decide, hall hG.shape.wf.tile fun t ht => ?_, ?_⟩, hall hG.shape.tile htile,
    hall hG.shape.area harea, ?_⟩, ?_, hall (fun B hB => ?_) hseg, ?_, fun a t ha => ?_⟩,
    fun a u ha y h1 h2 => hold a _ ha y (by omega) h2⟩
  · have := htile t ht
    omega
  · rw [List.pairwise_append]
    refine ⟨hG.shape.wf.apart, List.pairwise_singleton _ _, fun B hB C hC => ?_⟩
    rw [List.mem_singleton.mp hC]
    exact hapart B hB
  · rw [List.length_append, List.length_singleton]
    omega
  · rw [hareas, hG.areas, List.map_append]
    rfl
  · refine (hG.tiles B hB).congr_range fun y h1 h2 => hmem y ?_
    have := hapart B hB
    rw [Apart] at this
    omega
  · obtain ⟨ls, hL⟩ := hG.free
    refine ⟨ls, hL.congr hctl.1 hctl.2.1 hctl.2.2 fun a t ha => ?_⟩
    have h32 := (hL.listable a t ha).ge
    have hlink := hold a _ (hG.sub a t ha)
    simp only at hlink
    exact ⟨hlink _ (by omega) (by omega), hlink _ (by omega) (by omega)⟩
  · rw [blocks_append]
    exact List.mem_append_left _ (hG.sub a t ha)

/-! ### Reading headers -/

section

variable (hs : h.size a = enc t fr pf) (ht : t % 16 = 0)

include hs ht

/-- The size in a header, without its flags. -/
theorem blockTotal_of_size (hlt : t < 2 ^ 64) : blockTotal h a = t := by
  rw [blockTotal, hs, enc_and_mask ht fr pf hlt]

/-- The flag of the block. -/
theorem isFree_of_size : isFree h a = fr := by
  rw [isFree, hs, enc_and_free ht fr pf]
  cases fr <;> rfl

/-- The flag of the block before. -/
theorem isPrevFree_of_size : isPrevFree h a = pf := by
  rw [isPrevFree, hs, enc_and_prevFree ht fr pf]
  cases pf <;> rfl

end

/-- An area is smaller than a megabyte. -/
theorem Shape.total_lt (hs : Shape (pl.fill ts)) :
    span pl.pre + (span ts + span pl.post) < 1048576 := by
  have := (hs.area _ (List.mem_append_right _ List.mem_cons_self)).2.2.1
  simp only [span_append, span_reverse] at this
  omega

/-- The size of the one tile in a gap. -/
theorem Good.tile (hG : Good h (pl.fill [⟨t, f⟩]) S) :
    (t % 16 = 0 ∧ 32 ≤ t) ∧ span pl.pre + (t + span pl.post) < 1048576 := by
  have hlt := hG.shape.total_lt
  simp only [span_cons, span_nil] at hlt
  exact ⟨hG.shape.post.2.1 _ List.mem_cons_self, hlt⟩

/-- The sizes of two tiles in a gap. -/
theorem Good.tiles_two {s : Nat} {g : Bool} (hG : Good h (pl.fill [⟨s, f⟩, ⟨t, g⟩]) S) :
    (s % 16 = 0 ∧ 32 ≤ s) ∧ (t % 16 = 0 ∧ 32 ≤ t) ∧
      span pl.pre + (s + t + span pl.post) < 1048576 := by
  have hlt := hG.shape.total_lt
  simp only [span_cons, span_nil] at hlt
  exact ⟨hG.shape.post.2.1 ⟨s, f⟩ (by simp), hG.shape.post.2.1 ⟨t, g⟩ (by simp), hlt⟩

/-- The first tile is not larger than all of them. -/
theorem headTotal_le (ts : List Tile) : headTotal ts ≤ span ts := by
  cases ts with
  | nil => exact le_rfl
  | cons t ts => rw [headTotal, span_cons]; omega

/-- Sizes are multiples of 16. -/
theorem headTotal_mod (h : ∀ t ∈ ts, t.total % 16 = 0 ∧ 32 ≤ t.total) : headTotal ts % 16 = 0 := by
  cases ts with
  | nil => rfl
  | cons t ts => exact (h t List.mem_cons_self).1

/-- The header of the tile in a gap. -/
theorem Good.head {t : Tile} (hG : Good h (pl.fill (t :: ts)) S) :
    h.prev pl.addr = prevAddr pl.base pl.pre ∧
      h.size pl.addr = enc t.total t.free (prevFree pl.pre) ∧
      blockTotal h pl.addr = t.total ∧ isFree h pl.addr = t.free ∧
      isPrevFree h pl.addr = prevFree pl.pre := by
  obtain ⟨-, h1, h2, -⟩ := hG.seg
  have hmod := (hG.shape.post.2.1 t List.mem_cons_self).1
  have hlt := hG.shape.total_lt
  rw [span_cons] at hlt
  exact ⟨h1, h2, blockTotal_of_size h2 hmod (by omega), isFree_of_size h2 hmod,
    isPrevFree_of_size h2 hmod⟩

/-- The flag that a new size keeps. -/
theorem Good.size_or {s : Nat} {t : Tile} (hG : Good h (pl.fill (t :: ts)) S) (hs : s % 16 = 0) :
    s ||| (h.size pl.addr &&& heapPrevFree) = enc s false (prevFree pl.pre) := by
  rw [hG.head.2.1, enc_and_prevFree (hG.shape.post.2.1 t List.mem_cons_self).1]
  exact or_prevFree hs _

/-- The header behind the one tile in a gap. -/
theorem Good.behind {t : Tile} (hG : Good h (pl.fill [t]) S) :
    Seg h.mem (pl.addr + t.total) pl.addr t.free pl.post ∧
      h.size (pl.addr + t.total) = enc (headTotal pl.post) (headFree pl.post) t.free ∧
      blockTotal h (pl.addr + t.total) = headTotal pl.post ∧
      isFree h (pl.addr + t.total) = headFree pl.post ∧ headTotal pl.post % 16 = 0 ∧
      headTotal pl.post < 1048576 := by
  have hs : Seg h.mem (pl.addr + t.total) pl.addr t.free pl.post := hG.seg.2.2.2
  have hmod := headTotal_mod hG.shape.post.2.2
  have hlt := hG.shape.total_lt
  have hle := headTotal_le pl.post
  have hsize := hs.head_size
  exact ⟨hs, hsize, blockTotal_of_size hsize hmod (by omega), isFree_of_size hsize hmod, hmod,
    by omega⟩

/-! ### Edits in a gap -/

section Edits

variable {h h' : Heap} {pl : Place} {S : Nat → Nat → Prop}

/-- A header fits into every tile behind the place. -/
theorem Shape.sixteen_le_post (hs : Shape (pl.fill ts)) :
    ∀ t ∈ pl.post, 16 ≤ t.total := fun t ht => by
  have := hs.post.2.2 t ht
  omega

/-- The flag of a tile and its copy in the next header. -/
theorem Good.setFree {fr' : Bool} (hG : Good h (pl.fill [⟨t, fr⟩]) S)
    (hS : ∀ a u, S a u → (a, ⟨u, true⟩) ∈ pl.outer t)
    (hmem : ∀ y, h'.mem y = if y = pl.addr + 8 then enc t fr' (prevFree pl.pre)
      else if y = pl.addr + t + 8 then enc (headTotal pl.post) (headFree pl.post) fr' else h.mem y)
    (hctl : SameCtl h h') : Good h' (pl.fill [⟨t, fr'⟩]) S ∧ Kept (outerUsed pl t) h h' := by
  have hval := hG.tile.1
  have h1 := hG.seg.2.1
  have h3 : Seg h.mem (pl.addr + t) pl.addr fr pl.post := hG.seg.2.2.2
  refine hG.update rfl ?_ (by simpa using hS) ⟨?_, ?_, ?_⟩ (fun y hy => ?_) hctl
  · simpa using hval
  · rw [hmem, if_neg (by omega), if_neg (by omega)]
    exact h1
  · rw [hmem, if_pos rfl]
  · refine h3.relink hG.shape.sixteen_le_post ?_ ?_ fun y hy => ?_
    · rw [hmem, if_neg (by omega), if_neg (by omega)]
      exact h3.head_prev
    · rw [hmem, if_neg (by omega), if_pos rfl]
    · rw [hmem, if_neg (by omega), if_neg (by omega)]
  · simp only [span_cons, span_nil] at hy
    rw [hmem, if_neg (by omega), if_neg (by omega)]

/-- Two tiles become one. -/
theorem Good.join {k : Heap} {s : Nat} {g e : Bool} (hG : Good h (pl.fill [⟨s, f⟩, ⟨t, g⟩]) S)
    (hS : ∀ a u, S a u → (a, ⟨u, true⟩) ∈ pl.outer (s + t))
    (hmem : ∀ y, k.mem y = if y = pl.addr + 8 then enc (s + t) e (prevFree pl.pre)
      else if y = pl.addr + (s + t) then pl.addr
      else if y = pl.addr + (s + t) + 8 then enc (headTotal pl.post) (headFree pl.post) e
      else h.mem y) (hctl : SameCtl h k) :
    Good k (pl.fill [⟨s + t, e⟩]) S ∧ Kept (outerUsed pl (s + t)) h k := by
  obtain ⟨hs, ht, -⟩ := hG.tiles_two
  have h1 := hG.seg.2.1
  have h3 : Seg h.mem (pl.addr + (s + t)) (pl.addr + s) g pl.post := by
    rw [← add_assoc]
    exact hG.seg.2.2.2.2.2
  refine hG.update (by simp) ?_ (by simpa using hS) ⟨?_, ?_, ?_⟩ (fun y hy => ?_) hctl
  · simp only [List.mem_singleton, forall_eq]
    omega
  · simp (disch := omega) only [hmem, if_neg]
    exact h1
  · rw [hmem, if_pos rfl]
  · refine h3.relink hG.shape.sixteen_le_post ?_ ?_ fun y hy => ?_
    · rw [hmem, if_neg (by omega), if_pos rfl]
    · simp (disch := omega) only [hmem, if_neg, if_true]
    · simp (disch := omega) only [hmem, if_neg]
  · simp only [span_cons, span_nil] at hy
    simp (disch := omega) only [hmem, if_neg]

/-- One tile becomes two. -/
theorem Good.split {s : Nat} {g : Bool} (hG : Good h (pl.fill [⟨s + t, fr⟩]) S)
    (hs : s % 16 = 0 ∧ 32 ≤ s) (ht : t % 16 = 0 ∧ 32 ≤ t)
    (hS : ∀ a u, S a u → (a, ⟨u, true⟩) ∈ pl.outer (s + t))
    (hmem : ∀ y, h'.mem y = if y = pl.addr + 8 then enc s f (prevFree pl.pre)
      else if y = pl.addr + s then pl.addr
      else if y = pl.addr + s + 8 then enc t g f
      else if y = pl.addr + (s + t) then pl.addr + s
      else if y = pl.addr + (s + t) + 8 then enc (headTotal pl.post) (headFree pl.post) g
      else h.mem y) (hctl : SameCtl h h') :
    Good h' (pl.fill [⟨s, f⟩, ⟨t, g⟩]) S ∧ Kept (outerUsed pl (s + t)) h h' := by
  have h1 := hG.seg.2.1
  have h3 : Seg h.mem (pl.addr + (s + t)) pl.addr fr pl.post := hG.seg.2.2.2
  refine hG.update (by simp) ?_ (by simpa using hS) ⟨?_, ?_, ?_, ?_, ?_⟩ (fun y hy => ?_) hctl
  · simp only [List.mem_cons, List.not_mem_nil, or_false, forall_eq_or_imp, forall_eq]
    exact ⟨hs, ht⟩
  · simp (disch := omega) only [hmem, if_neg]
    exact h1
  · rw [hmem, if_pos rfl]
  · show h'.mem (pl.addr + s) = pl.addr
    rw [hmem, if_neg (by omega), if_pos rfl]
  · simp (disch := omega) only [hmem, if_neg, if_true]
  · rw [add_assoc]
    refine h3.relink hG.shape.sixteen_le_post ?_ ?_ fun y hy => ?_
    · simp (disch := omega) only [hmem, if_neg, if_true]
    · simp (disch := omega) only [hmem, if_neg, if_true]
    · simp (disch := omega) only [hmem, if_neg]
  · simp only [span_cons, span_nil] at hy
    simp (disch := omega) only [hmem, if_neg]

end Edits

/-! ### Listing and unlisting -/

section Listing

variable {h : Heap} {L : Layout} {S : Nat → Nat → Prop} (hG : Good h L S)

include hG

/-- What the code reads of a block is its tile. -/
theorem Good.block {t : Tile} (ht : (a, t) ∈ blocks L) :
    blockTotal h a = t.total ∧ isFree h a = t.free := by
  obtain ⟨pl, rfl, rfl⟩ := exists_place ht
  exact ⟨hG.head.2.2.1, hG.head.2.2.2.1⟩

/-- No header is a link word of a block. -/
theorem Good.head_ne {x : Nat} {t : Tile} (ht : (a, t) ∈ blocks L) (hx : IsHead L x) :
    (x ≠ a + 16 ∧ x ≠ a + 24) ∧ x + 8 ≠ a + 16 ∧ x + 8 ≠ a + 24 := by
  have h32 := (hG.shape.block ht).2.2.2.1
  have := isHead_apart hG.shape.wf hx ht
  omega

/-- `freelist_remove` takes a block out of the lists, and changes no tile. -/
theorem Good.remove (hb : S b t) : Good (freelistRemove h b) L (fun a u => S a u ∧ a ≠ b) := by
  obtain ⟨ls, hL⟩ := hG.free
  refine ⟨hG.shape, ?_, hG.tiles.congr fun x hx => ?_,
    ⟨_, hL.remove hb (hG.block (hG.sub b t hb)).1⟩, fun a u hS => hG.sub a u hS.1⟩
  · rw [freelistRemove_areas]
    exact hG.areas
  · exact ⟨hL.remove_mem hb fun a u hS => (hG.head_ne (hG.sub a u hS) hx).1,
      hL.remove_mem hb fun a u hS => (hG.head_ne (hG.sub a u hS) hx).2⟩

/-- `freelist_push` puts a free block into its list. -/
theorem Good.push (hb : (b, ⟨t, true⟩) ∈ blocks L) (hnew : ∀ u, ¬ S b u) :
    Good (freelistPush h b) L (fun a u => S a u ∨ a = b ∧ u = t) := by
  obtain ⟨ls, hL⟩ := hG.free
  refine ⟨hG.shape, ?_, hG.tiles.congr fun x hx => ?_,
    ⟨_, hL.push (hG.listable hb) hnew (hG.block hb).1⟩, ?_⟩
  · rw [(freelistPush_ctl h b rfl).2.2.2]
    exact hG.areas
  · have hbx := hG.head_ne hb hx
    exact ⟨hL.push_mem hbx.1 fun a u hS => (hG.head_ne (hG.sub a u hS) hx).1,
      hL.push_mem hbx.2 fun a u hS => (hG.head_ne (hG.sub a u hS) hx).2⟩
  · rintro a u (hS | ⟨rfl, rfl⟩)
    · exact hG.sub a u hS
    · exact hb

/-- No payload of a used block has a link word of a free one. -/
theorem Good.link_ne {u : Nat} (ha : usedOf L a u) (hb : (b, ⟨t, true⟩) ∈ blocks L) {y : Nat}
    (h1 : a + 16 ≤ y) (h2 : y < a + u) : y ≠ b + 16 ∧ y ≠ b + 24 := by
  have h32 := (hG.shape.block hb).2.2.2.1
  rcases blocks_apart hG.shape.wf ha hb with ⟨-, heq⟩ | hlt | hlt
  · cases heq
  · simp only at hlt h32
    omega
  · omega

/-- The links that it stores are inside of free blocks. -/
theorem Good.remove_kept (hb : S b t) : Kept (usedOf L) h (freelistRemove h b) := by
  obtain ⟨ls, hL⟩ := hG.free
  intro a u ha y h1 h2
  exact hL.remove_mem hb fun c v hS => hG.link_ne ha (hG.sub c v hS) h1 h2

/-- So are those of a push. -/
theorem Good.push_kept (hb : (b, ⟨t, true⟩) ∈ blocks L) : Kept (usedOf L) h (freelistPush h b) := by
  obtain ⟨ls, hL⟩ := hG.free
  intro a u ha y h1 h2
  exact hL.push_mem (hG.link_ne ha hb h1 h2) fun c v hS => hG.link_ne ha (hG.sub c v hS) h1 h2

omit hG in
/-- The listed blocks, described in another way. -/
theorem Good.of_iff {S' : Nat → Nat → Prop} (hG : Good h L S) (heq : ∀ a t, S a t ↔ S' a t) :
    Good h L S' := by
  have : S = S' := funext fun a => funext fun t => propext (heq a t)
  rw [← this]
  exact hG

end Listing

end CoreZ.Proofs.Mm.Kheap
