import CoreZ.Proofs.Mm.Kheap.Tiles
import Mathlib.Data.List.Perm.Subperm

/-!
# `CoreZ.Proofs.Mm.Kheap.Blocks`: releasing, trimming and acquiring

`HeapInv h L` is the invariant of the heap between two calls: the free
lists hold all free blocks of the layout, and no two neighbours are
free. `block_release`, `block_trim_used`, `block_acquire` and
`kheap_area_add` keep it, for a layout that each of them changes at one
place; what they do to the used blocks is part of their statements, and
so is that they keep the payloads of the others (`Kept`).
-/

set_option autoImplicit false

namespace CoreZ.Proofs.Mm.Kheap

open CoreZ.Lib.Tiling
open CoreZ.Mm.Kheap
open Function
open List

/-- The free blocks of a layout. -/
def freeOf (L : Layout) : Nat → Nat → Prop := fun a t => (a, ⟨t, true⟩) ∈ blocks L

/-- The free blocks around a gap of `n` bytes. -/
def outerFree (pl : Place) (n : Nat) : Nat → Nat → Prop := fun a t => (a, ⟨t, true⟩) ∈ pl.outer n

/-- The invariant of the heap. -/
structure HeapInv (h : Heap) (L : Layout) : Prop where
  good : Good h L (freeOf L)
  coalesced : Coalesced L

variable {h k : Heap} {L : Layout} {a t u : Nat} {S P Q : Nat → Nat → Prop} {pl : Place}

/-- `h` has become `k`, where the blocks of `P` are used and have the same payloads. -/
def Leaves (P : Nat → Nat → Prop) (h k : Heap) : Prop :=
  ∃ L, HeapInv k L ∧ (∀ a v, usedOf L a v ↔ P a v) ∧ Kept P h k

theorem Leaves.refl (hI : HeapInv h L) : Leaves (usedOf L) h h :=
  ⟨L, hI, fun _ _ => Iff.rfl, Kept.refl _ _⟩

/-- A change before, which keeps the blocks. -/
theorem Leaves.after {m : Heap} (hl : Leaves P k m) (hk : Kept P h k) : Leaves P h m := by
  obtain ⟨L, hI, hused, hm⟩ := hl
  exact ⟨L, hI, hused, hk.trans hm⟩

/-- The blocks may be described in another way. -/
theorem Leaves.congr (hl : Leaves P h k) (hiff : ∀ a v, P a v ↔ Q a v) : Leaves Q h k := by
  obtain ⟨L, hI, hused, hk⟩ := hl
  exact ⟨L, hI, fun a v => (hused a v).trans (hiff a v), hk.mono fun a v => (hiff a v).mpr⟩

/-! ### A gap with one tile -/

/-- The blocks of a layout with one tile at the place. -/
theorem mem_fill_singleton {t : Tile} {x : Nat × Tile} :
    x ∈ blocks (pl.fill [t]) ↔ x ∈ pl.outer t.total ∨ x = (pl.addr, t) := by
  rw [Place.mem_blocks_fill, span_cons, span_nil, add_zero, placed, placed, mem_singleton]

/-- A used tile at the place adds no free block. -/
theorem freeOf_fill_used : freeOf (pl.fill [⟨t, false⟩]) a u ↔ outerFree pl t a u := by
  rw [freeOf, mem_fill_singleton, outerFree]
  simp

/-- A free tile at the place is a free block. -/
theorem freeOf_fill_free :
    freeOf (pl.fill [⟨t, true⟩]) a u ↔ outerFree pl t a u ∨ a = pl.addr ∧ u = t := by
  rw [freeOf, mem_fill_singleton, outerFree]
  simp

/-- A free tile at the place adds no used block. -/
theorem usedOf_fill_free : usedOf (pl.fill [⟨t, true⟩]) a u ↔ outerUsed pl t a u := by
  rw [usedOf, mem_fill_singleton, outerUsed]
  simp

/-- A used tile at the place is a used block. -/
theorem usedOf_fill_used :
    usedOf (pl.fill [⟨t, false⟩]) a u ↔ outerUsed pl t a u ∨ a = pl.addr ∧ u = t := by
  rw [usedOf, mem_fill_singleton, outerUsed]
  simp

/-- The used blocks around do not change when a free neighbour is joined. -/
theorem outerUsed_withPost {n : Nat} :
    outerUsed (pl.withPost ⟨n, true⟩) t a u ↔ outerUsed pl (t + n) a u := by
  rw [outerUsed, outerUsed, Place.mem_outer_withPost]
  simp

/-- The blocks around a gap do not start at it. -/
theorem Good.outer_ne {t : Tile} (hG : Good h (pl.fill [t]) S) {u : Tile}
    (ha : (a, u) ∈ pl.outer t.total) : a ≠ pl.addr := by
  have hmem : (a, u) ∈ blocks (pl.fill [t]) := mem_fill_singleton.mpr (.inl ha)
  have h1 := (hG.shape.block hmem).2.2.2.1
  have h2 := (hG.shape.post.2.1 t mem_cons_self).2
  have hap := Place.outer_apart hG.shape.wf (show (a, u) ∈ pl.outer (span [t]) by simpa using ha)
  simp only [span_cons, span_nil] at hap
  omega

/-- A gap before a free tile. -/
theorem exists_withPost (h : headFree pl.post = true) :
    ∃ (q : Place) (n : Nat), pl = q.withPost ⟨n, true⟩ := by
  obtain ⟨left, base, pre, post, right⟩ := pl
  cases post with
  | nil => cases h
  | cons t post =>
    obtain ⟨n, f⟩ := t
    obtain rfl : f = true := h
    exact ⟨⟨left, base, pre, post, right⟩, n, rfl⟩

/-- A gap behind a free tile. -/
theorem exists_withPre (h : prevFree pl.pre = true) :
    ∃ (q : Place) (n : Nat), pl = q.withPre ⟨n, true⟩ := by
  obtain ⟨left, base, pre, post, right⟩ := pl
  cases pre with
  | nil => cases h
  | cons t pre =>
    obtain ⟨n, f⟩ := t
    obtain rfl : f = true := h
    exact ⟨⟨left, base, pre, post, right⟩, n, rfl⟩

/-! ### Coalescing -/

/-- A free tile behind the place has no free tile behind it. -/
theorem separated_withPost {n : Tile} (h : (pl.withPost n).Separated false) :
    pl.Separated false ∧ (n.free = true → headFree pl.post = false) := by
  have hpost : (n :: pl.post).IsChain NotBothFree := h.post
  refine ⟨⟨h.other, h.pre, ?_, fun _ _ hf => by simp at hf, fun _ _ hf => by simp at hf⟩,
    fun hn => ?_⟩
  · exact (isChain_cons.mp hpost).2
  · cases hp : pl.post with
    | nil => rfl
    | cons t ts =>
      rw [hp, isChain_cons_cons] at hpost
      have := hpost.1
      rw [NotBothFree, hn] at this
      simpa [headFree] using this

/-- A free tile before the place has no free tile before it. -/
theorem separated_withPre {p : Tile} (h : (pl.withPre p).Separated false) :
    pl.Separated false ∧ (p.free = true → prevFree pl.pre = false) := by
  have hpre : (pl.pre.reverse ++ [p]).IsChain NotBothFree := by
    have := h.pre
    simpa [Place.withPre] using this
  rw [isChain_append, getLast?_reverse] at hpre
  refine ⟨⟨h.other, hpre.1, h.post, fun _ _ hf => by simp at hf, fun _ _ hf => by simp at hf⟩,
    fun hp => ?_⟩
  cases hq : pl.pre with
  | nil => rfl
  | cons t ts =>
    have := hpre.2.2 t (by rw [hq]; rfl) p rfl
    rw [NotBothFree, hp] at this
    simpa [prevFree] using this

/-- Between used neighbours the place may be free. -/
theorem separated_true (h : pl.Separated false) (hpost : headFree pl.post = false)
    (hpre : prevFree pl.pre = false) : pl.Separated true := by
  refine ⟨h.other, h.pre, h.post, fun p hp hf => ?_, fun n hn hf => ?_⟩
  · cases hq : pl.pre with
    | nil => rw [hq] at hp; cases hp
    | cons t ts =>
      rw [hq] at hp hpre
      obtain rfl : t = p := Option.some.inj hp
      rw [prevFree] at hpre
      rw [hpre] at hf
      exact absurd hf.1 (by simp)
  · cases hq : pl.post with
    | nil => rw [hq] at hn; cases hn
    | cons t ts =>
      rw [hq] at hn hpost
      obtain rfl : t = n := Option.some.inj hn
      rw [headFree] at hpost
      rw [hpost] at hf
      exact absurd hf.2 (by simp)

/-- Neighbours that suit any tile suit a used one. -/
theorem separated_weaken {f : Bool} (h : pl.Separated f) : pl.Separated false :=
  ⟨h.other, h.pre, h.post, fun _ _ hf => by simp at hf, fun _ _ hf => by simp at hf⟩

variable {s : Nat} {ts : List Tile}

/-- A used tile separates. -/
theorem separated_withPre_used (h : pl.Separated false) :
    (pl.withPre ⟨s, false⟩).Separated false := by
  refine ⟨h.other, ?_, h.post, fun _ _ hf => by simp at hf, fun _ _ hf => by simp at hf⟩
  rw [Place.withPre, reverse_cons, isChain_append]
  refine ⟨h.pre, isChain_singleton _, fun x _ y hy => ?_⟩
  obtain rfl : (⟨s, false⟩ : Tile) = y := Option.some.inj hy
  simp [NotBothFree]

/-- The used blocks around a gap are blocks of the layout. -/
theorem usedOf_of_outer (h : outerUsed pl (span ts) a u) :
    usedOf (pl.fill ts) a u := Place.mem_blocks_fill.mpr (.inl h)

/-! ### Release -/

/-- The two flags at the start of `block_release`. -/
def markFree (h : Heap) (b : Nat) : Heap :=
  let h := h.setSize b (h.size b ||| heapFree)
  let n := blockNext h b
  h.setSize n (h.size n ||| heapPrevFree)

/-- `block_release` in its four parts: mark, merge behind, merge before, list. -/
theorem blockRelease_eq (h : Heap) (b : Nat) :
    blockRelease h b = freelistPush (mergePrev (mergeNext (markFree h b) b) b).1
      (mergePrev (mergeNext (markFree h b) b) b).2 := rfl

/-- The size that was stored is read. -/
theorem setSize_size (h : Heap) (b v : Nat) : (h.setSize b v).size b = v := update_self ..

section Release

variable {h : Heap} {pl : Place} {t : Nat}

/-- The flag of a tile and its copy behind it, written one after the
other. -/
theorem Good.setSizes {fr fr' : Bool} {v : Nat} (hG : Good h (pl.fill [⟨t, fr⟩]) S)
    (hS : ∀ a u, S a u → (a, ⟨u, true⟩) ∈ pl.outer t) (hv : v = enc t fr' (prevFree pl.pre)) :
    blockNext (h.setSize pl.addr v) pl.addr = pl.addr + t ∧
      (h.setSize pl.addr v).size (pl.addr + t) = enc (headTotal pl.post) (headFree pl.post) fr ∧
      ∀ w, w = enc (headTotal pl.post) (headFree pl.post) fr' →
        Good ((h.setSize pl.addr v).setSize (pl.addr + t) w) (pl.fill [⟨t, fr'⟩]) S ∧
          Kept (outerUsed pl t) h ((h.setSize pl.addr v).setSize (pl.addr + t) w) := by
  obtain ⟨hval, hlt⟩ := hG.tile
  refine ⟨?_, ?_, fun w hw => hG.setFree hS (fun y => ?_) ⟨rfl, rfl, rfl, rfl⟩⟩
  · rw [blockNext, blockTotal_of_size ((setSize_size ..).trans hv) hval.1 (by omega)]
  · rw [← hG.behind.2.1]
    exact update_of_ne (by omega) _ _
  · simp only [Heap.setSize, Heap.setWord, update_apply, hv, hw]
    split_ifs <;> first | rfl | omega

/-- Marking a block free changes its tile and nothing else. -/
theorem markFree_good (hG : Good h (pl.fill [⟨t, false⟩]) S)
    (hS : ∀ a u, S a u → (a, ⟨u, true⟩) ∈ pl.outer t) :
    Good (markFree h pl.addr) (pl.fill [⟨t, true⟩]) S ∧
      Kept (outerUsed pl t) h (markFree h pl.addr) := by
  have hsz : h.size pl.addr ||| heapFree = enc t true (prevFree pl.pre) := by
    rw [hG.head.2.1]
    exact enc_or_free hG.tile.1.1 false _
  obtain ⟨hnext, hnsz, hset⟩ := hG.setSizes hS hsz
  simp only [markFree, hnext, hnsz]
  exact hset _ (enc_or_prevFree hG.behind.2.2.2.2.1 ..)

/-- A used neighbour behind is left alone. -/
theorem mergeNext_of_not_free {S : Nat → Nat → Prop} (hG : Good h (pl.fill [⟨t, true⟩]) S)
    (hn : headFree pl.post = false) : mergeNext h pl.addr = h := by
  obtain ⟨-, -, htot, -, -⟩ := hG.head
  obtain ⟨-, -, -, hfree, -, -⟩ := hG.behind
  have hnext : blockNext h pl.addr = pl.addr + t := by rw [blockNext, htot]
  rw [mergeNext, hnext]
  simp [hfree, hn]

/-- The writes of `block_release` that join the block `b` and the block
`n` behind it. -/
def joinFree (h : Heap) (b n : Nat) : Heap :=
  let h := h.setSize b ((blockTotal h b + blockTotal h n) ||| heapFree |||
    (h.size b &&& heapPrevFree))
  h.setPrev (blockNext h b) b

/-- Two free tiles are joined, neither of them listed. -/
theorem joinFree_good (hG : Good h (pl.fill [⟨s, true⟩, ⟨t, true⟩]) S)
    (hS : ∀ a u, S a u → (a, ⟨u, true⟩) ∈ pl.outer (s + t)) :
    Good (joinFree h pl.addr (pl.addr + s)) (pl.fill [⟨s + t, true⟩]) S ∧
      Kept (outerUsed pl (s + t)) h (joinFree h pl.addr (pl.addr + s)) := by
  obtain ⟨hvals, hvalt, hlt⟩ := hG.tiles_two
  obtain ⟨-, hsize, hs, -, -⟩ := hG.head
  simp only at hsize hs
  have ht : blockTotal h (pl.addr + s) = t :=
    (hG.block (t := ⟨t, true⟩) (Place.mem_blocks_fill.mpr (.inr (by simp [placed])))).1
  have hsz : (s + t) ||| heapFree ||| (h.size pl.addr &&& heapPrevFree)
      = enc (s + t) true (prevFree pl.pre) := by
    rw [hsize, enc_and_prevFree hvals.1]
    exact or_free_prevFree (by omega) _
  have hnext : blockNext (h.setSize pl.addr (enc (s + t) true (prevFree pl.pre))) pl.addr
      = pl.addr + (s + t) := by
    rw [blockNext, blockTotal_of_size (setSize_size ..) (by omega) (by omega)]
  -- the flag behind the two tiles says free already
  have hm : Seg h.mem (pl.addr + (s + t)) (pl.addr + s) true pl.post := by
    rw [← add_assoc]
    exact hG.seg.2.2.2.2.2
  simp only [joinFree, hs, ht, hsz, hnext]
  refine hG.join hS (fun y => ?_) ⟨rfl, rfl, rfl, rfl⟩
  simp only [Heap.setPrev, Heap.setSize, Heap.setWord, update_apply]
  split_ifs with h1 h2 h3 h4 <;> first | rfl | omega | skip
  rw [h4]
  exact hm.head_size

variable {x : Nat} {y : Tile}

/-- A block of the gap is taken off the lists. -/
theorem Good.unlisted {T : Nat → Nat → Prop} (hG : Good h (pl.fill ts) T)
    (hx : pl.addr ≤ x ∧ x < pl.addr + span ts)
    (hS : ∀ a u, S a u ↔ outerFree pl (span ts) a u ∨ (a, ⟨u, true⟩) = (x, y)) (a u : Nat) :
    S a u ∧ a ≠ x ↔ outerFree pl (span ts) a u := by
  rw [hS]
  constructor
  · rintro ⟨hout | heq, hne⟩
    · exact hout
    · exact absurd (Prod.mk.inj heq).1 hne
  · intro hout
    have hap := Place.outer_apart hG.shape.wf hout
    have h32 := (hG.shape.block (Place.mem_blocks_fill.mpr (.inl hout))).2.2.2.1
    simp only at hap h32
    exact ⟨.inl hout, by omega⟩

/-- A listed tile is unlisted and joined with its neighbour. -/
theorem joinFree_unlisted {k : Heap}
    (hG : Good k (pl.fill [⟨s, true⟩, ⟨t, true⟩]) fun a u => S a u ∧ a ≠ x)
    (hx : x = pl.addr ∨ x = pl.addr + s)
    (hS : ∀ a u, S a u ↔ (a, ⟨u, true⟩) ∈ pl.outer (s + t) ∨ (a, ⟨u, true⟩) = (x, y))
    (hK : Kept (usedOf (pl.fill [⟨s, true⟩, ⟨t, true⟩])) h k) :
    Good (joinFree k pl.addr (pl.addr + s)) (pl.fill [⟨s + t, true⟩]) (outerFree pl (s + t)) ∧
      Kept (outerUsed pl (s + t)) h (joinFree k pl.addr (pl.addr + s)) := by
  obtain ⟨hs, ht, -⟩ := hG.tiles_two
  have hout := hG.unlisted (by simp only [span_cons, span_nil]; omega) hS
  obtain ⟨hjoin, hK2⟩ := joinFree_good hG fun a u ha => (hout a u).mp ha
  exact ⟨hjoin.of_iff hout, (hK.mono fun a u hu => usedOf_of_outer (by simpa using hu)).trans hK2⟩

/-- A free neighbour behind is taken out of its list and joined. -/
theorem mergeNext_of_free {n : Nat}
    (hG : Good h ((pl.withPost ⟨n, true⟩).fill [⟨t, true⟩]) (outerFree (pl.withPost ⟨n, true⟩) t)) :
    Good (mergeNext h pl.addr) (pl.fill [⟨t + n, true⟩]) (outerFree pl (t + n)) ∧
      Kept (outerUsed pl (t + n)) h (mergeNext h pl.addr) := by
  have htot : blockTotal h pl.addr = t := hG.head.2.2.1
  have hntot : blockTotal h (pl.addr + t) = n := hG.behind.2.2.1
  have hnfree : isFree h (pl.addr + t) = true := hG.behind.2.2.2.1
  have hval : n % 16 = 0 ∧ 32 ≤ n := hG.shape.post.2.2 ⟨n, true⟩ mem_cons_self
  have hnext : blockNext h pl.addr = pl.addr + t := by rw [blockNext, htot]
  have hcond : isFree h (pl.addr + t) = true ∧ blockTotal h (pl.addr + t) ≠ 0 := ⟨hnfree, by omega⟩
  have hlisted : outerFree (pl.withPost ⟨n, true⟩) t (pl.addr + t) n :=
    Place.mem_outer_withPost.mpr (.inr rfl)
  have hG1 := hG.remove hlisted
  have hK1 := hG.remove_kept hlisted
  rw [Place.fill_withPost, singleton_append] at hG1 hK1
  have hmerge : mergeNext h pl.addr = joinFree (freelistRemove h (pl.addr + t)) pl.addr
      (pl.addr + t) := by
    rw [mergeNext, hnext, if_pos hcond]
    rfl
  rw [hmerge]
  exact joinFree_unlisted hG1 (.inr rfl) (fun a u => Place.mem_outer_withPost) hK1

/-- A used neighbour before is left alone. -/
theorem mergePrev_of_not_free (hG : Good h (pl.fill [⟨t, true⟩]) S) (hp : prevFree pl.pre = false) :
    mergePrev h pl.addr = (h, pl.addr) := by
  obtain ⟨-, -, -, -, hpf⟩ := hG.head
  rw [mergePrev, hpf, hp]
  rfl

/-- A free neighbour before is taken out of its list, and the block joins it. -/
theorem mergePrev_of_free {p : Nat}
    (hG : Good h ((pl.withPre ⟨p, true⟩).fill [⟨t, true⟩]) (outerFree (pl.withPre ⟨p, true⟩) t)) :
    (mergePrev h (pl.withPre ⟨p, true⟩).addr).2 = pl.addr ∧
      Good (mergePrev h (pl.withPre ⟨p, true⟩).addr).1 (pl.fill [⟨p + t, true⟩])
        (outerFree pl (p + t)) ∧
      Kept (outerUsed pl (p + t)) h (mergePrev h (pl.withPre ⟨p, true⟩).addr).1 := by
  obtain ⟨hprev, -, -, -, hpf⟩ := hG.head
  simp only [Place.addr_withPre] at hprev hpf
  have hprev' : h.prev (pl.addr + p) = pl.addr := hprev
  have hpf' : isPrevFree h (pl.addr + p) = true := hpf
  have hlisted : outerFree (pl.withPre ⟨p, true⟩) t pl.addr p :=
    Place.mem_outer_withPre.mpr (.inr rfl)
  have hG1 := hG.remove hlisted
  have hK1 := hG.remove_kept hlisted
  rw [Place.fill_withPre] at hG1 hK1
  have hmerge : mergePrev h (pl.addr + p)
      = (joinFree (freelistRemove h pl.addr) pl.addr (pl.addr + p), pl.addr) := by
    rw [mergePrev, hpf', if_pos rfl, hprev']
    rfl
  rw [Place.addr_withPre, hmerge]
  exact ⟨rfl, joinFree_unlisted hG1 (.inl rfl) (fun a u => Place.mem_outer_withPre) hK1⟩

/-- The last step: a merged block whose neighbours are used. -/
theorem freelistPush_inv (hG : Good h (pl.fill [⟨t, true⟩]) (outerFree pl t))
    (hsep : pl.Separated true) :
    HeapInv (freelistPush h pl.addr) (pl.fill [⟨t, true⟩]) ∧
      Leaves (outerUsed pl t) h (freelistPush h pl.addr) := by
  have hb : (pl.addr, (⟨t, true⟩ : Tile)) ∈ blocks (pl.fill [⟨t, true⟩]) :=
    mem_fill_singleton.mpr (.inr rfl)
  have hI : HeapInv (freelistPush h pl.addr) (pl.fill [⟨t, true⟩]) := by
    refine ⟨(hG.push hb fun u hu => ?_).of_iff fun a u => ?_, coalesced_fill.mpr hsep⟩
    · exact hG.outer_ne hu rfl
    · rw [freeOf_fill_free]
  exact ⟨hI, _, hI, fun a u => usedOf_fill_free,
    (hG.push_kept hb).mono fun a u hout => usedOf_of_outer (by simpa using hout)⟩

/-- The merge with the block before, and the push. -/
theorem mergePrev_inv (hG : Good h (pl.fill [⟨t, true⟩]) (outerFree pl t))
    (hsep : pl.Separated false) (hpost : headFree pl.post = false) :
    Leaves (outerUsed pl t) h (freelistPush (mergePrev h pl.addr).1 (mergePrev h pl.addr).2) := by
  by_cases hp : prevFree pl.pre = true
  · obtain ⟨pl, p, rfl⟩ := exists_withPre hp
    obtain ⟨haddr, hG1, hK1⟩ := mergePrev_of_free hG
    obtain ⟨hsep', hpre⟩ := separated_withPre hsep
    rw [haddr]
    have hpush := (freelistPush_inv hG1 (separated_true hsep' hpost (hpre rfl))).2
    -- the merged block is free, so no used block is concerned
    refine (hpush.after hK1).congr fun a u => ?_
    rw [outerUsed, outerUsed, Place.mem_outer_withPre]
    simp
  · rw [Bool.not_eq_true] at hp
    rw [mergePrev_of_not_free hG hp]
    exact (freelistPush_inv hG (separated_true hsep hpost hp)).2

/-- The used block of a sound heap is marked free. -/
theorem HeapInv.markFree (hI : HeapInv h (pl.fill [⟨t, false⟩])) :
    Good (markFree h pl.addr) (pl.fill [⟨t, true⟩]) (outerFree pl t) ∧
      Kept (outerUsed pl t) h (Kheap.markFree h pl.addr) := by
  obtain ⟨hG, hK⟩ := markFree_good hI.good fun a u hf => freeOf_fill_used.mp hf
  exact ⟨hG.of_iff fun a u => freeOf_fill_used, hK⟩

/-- The block of an area that has no other is only marked. -/
theorem blockRelease_alone {base : Nat}
    (hI : HeapInv h (Place.fill ⟨L, base, [], [], []⟩ [⟨t, false⟩])) :
    HeapInv (blockRelease h base) (Place.fill ⟨L, base, [], [], []⟩ [⟨t, true⟩]) := by
  obtain ⟨hG, -⟩ := hI.markFree
  have hsep := separated_true (coalesced_fill.mp hI.coalesced) rfl rfl
  have hpush := (freelistPush_inv hG hsep).1
  have hprev := mergePrev_of_not_free hG rfl
  have hnext := mergeNext_of_not_free hG rfl
  rw [show base = (⟨L, base, [], [], []⟩ : Place).addr from rfl, blockRelease_eq, hnext, hprev]
  exact hpush

/-- `block_release` of a used block. -/
theorem blockRelease_inv (hI : HeapInv h (pl.fill [⟨t, false⟩])) :
    Leaves (outerUsed pl t) h (blockRelease h pl.addr) := by
  obtain ⟨hG, hK⟩ := hI.markFree
  have hsep : pl.Separated false := coalesced_fill.mp hI.coalesced
  rw [blockRelease_eq]
  refine Leaves.after ?_ hK
  by_cases hn : headFree pl.post = true
  · obtain ⟨pl, n, rfl⟩ := exists_withPost hn
    obtain ⟨hsep', hpost⟩ := separated_withPost hsep
    obtain ⟨hG1, hK1⟩ := mergeNext_of_free hG
    exact ((mergePrev_inv hG1 hsep' (hpost rfl)).after hK1).congr fun a u => outerUsed_withPost.symm
  · rw [Bool.not_eq_true] at hn
    rw [mergeNext_of_not_free hG hn]
    exact mergePrev_inv hG hsep hn

end Release

/-! ### Split and trim -/

/-- The block behind a header that has just been written. -/
theorem blockNext_of_size {b r : Nat} (hs : h.size b = r) (hr : r % 16 = 0)
    (hlt : r < 2 ^ 64) : blockNext h b = b + r := by
  have henc : h.size b = enc r false false := by simp [enc, hs]
  rw [blockNext, blockTotal_of_size henc hr hlt]

section Split

variable {h h' : Heap} {pl : Place} {s t : Nat}

/-- A used block becomes two used blocks. -/
theorem HeapInv.split {k : Heap} (hI : HeapInv h (pl.fill [⟨s + t, false⟩]))
    (hs : s % 16 = 0 ∧ 32 ≤ s)
    (ht : t % 16 = 0 ∧ 32 ≤ t)
    (hmem : ∀ y, k.mem y = if y = pl.addr + 8 then enc s false (prevFree pl.pre)
      else if y = pl.addr + s then pl.addr
      else if y = pl.addr + s + 8 then t
      else if y = pl.addr + (s + t) then pl.addr + s else h.mem y)
    (hctl : SameCtl h k) :
    HeapInv k (pl.fill [⟨s, false⟩, ⟨t, false⟩]) ∧
      Kept (outerUsed (pl.withPre ⟨s, false⟩) t) h k := by
  have hS : ∀ a u, freeOf (pl.fill [⟨s + t, false⟩]) a u → (a, ⟨u, true⟩) ∈ pl.outer (s + t) :=
    fun a u hf => freeOf_fill_used.mp hf
  -- the block is used before and after, so the flag behind it stays
  have hflag : h.mem (pl.addr + (s + t) + 8) = enc (headTotal pl.post) (headFree pl.post) false :=
    hI.good.behind.1.head_size
  obtain ⟨hG, hK⟩ := hI.good.split (g := false) hs ht hS (fun y => by
    rw [hmem]
    split_ifs with h1 h2 h3 h4 h5 <;> first | rfl | (simp [enc]; done) | skip
    rw [h5]
    exact hflag) hctl
  refine ⟨⟨hG.of_iff fun a u => ?_, ?_⟩, fun a u ha y h1 h2 => ?_⟩
  · rw [freeOf_fill_used, freeOf, Place.mem_blocks_fill, outerFree]
    simp [placed]
  · rw [← Place.fill_withPre]
    exact coalesced_fill.mpr (separated_withPre_used (coalesced_fill.mp hI.coalesced))
  · rcases Place.mem_outer_withPre.mp ha with hout | heq
    · exact hK a u hout y h1 h2
    -- the first of the two blocks keeps its payload
    obtain ⟨rfl, htile⟩ := Prod.mk.inj heq
    cases htile
    rw [hmem, if_neg (by omega), if_neg (by omega), if_neg (by omega), if_neg (by omega)]

/-- `block_trim_used`: the block keeps `need` bytes of payload, or all of
them if the rest is too small for a block. -/
theorem blockTrimUsed_inv (need : Nat) (hI : HeapInv h (pl.fill [⟨t, false⟩]))
    (hneed : need % 16 = 0 ∧ 16 ≤ need) :
    ∃ L u, HeapInv (blockTrimUsed h pl.addr need) L ∧
      (∀ a v, usedOf L a v ↔ outerUsed pl t a v ∨ a = pl.addr ∧ v = u) ∧
      (16 + need ≤ t → 16 + need ≤ u) ∧ Kept (usedOf L) h (blockTrimUsed h pl.addr need) := by
  obtain ⟨hval, hlt⟩ := hI.good.tile
  rw [blockTrimUsed, hI.good.head.2.2.1]
  by_cases hsmall : t < heapHdr + need + heapMinBlock
  · rw [if_pos hsmall]
    exact ⟨_, t, hI, fun a v => usedOf_fill_used, fun h => h, Kept.refl _ _⟩
  rw [if_neg hsmall]
  simp only [heapHdr, heapMinBlock] at hsmall ⊢
  obtain ⟨r, rfl⟩ : ∃ r, t = 16 + need + r := ⟨t - (16 + need), by omega⟩
  have hr : r % 16 = 0 ∧ 32 ≤ r := by omega
  obtain ⟨c, hc⟩ : ∃ c, c = pl.addr + (16 + need) := ⟨_, rfl⟩
  rw [show 16 + need + r - 16 - need = r by omega, show pl.addr + 16 + need = c by omega]
  -- the reads between the writes
  have hb : ((h.setSize c r).setPrev c pl.addr).size pl.addr = h.size pl.addr := by
    simp only [Heap.size, Heap.setPrev, Heap.setSize, Heap.setWord]
    rw [update_of_ne (by omega), update_of_ne (by omega)]
  have hsz := hI.good.size_or (s := 16 + need) (by omega)
  have hnext : blockNext (((h.setSize c r).setPrev c pl.addr).setSize pl.addr
      (enc (16 + need) false (prevFree pl.pre))) c = c + r := by
    refine blockNext_of_size ?_ hr.1 (by omega)
    simp only [Heap.size, Heap.setPrev, Heap.setSize, Heap.setWord, update_apply]
    split_ifs <;> first | rfl | omega
  simp only [hb, hsz, hnext]
  obtain ⟨hsplit, hK1⟩ := hI.split (k := (((h.setSize c r).setPrev c pl.addr).setSize pl.addr
      (enc (16 + need) false (prevFree pl.pre))).setPrev (c + r) c)
    (by omega) hr (fun y => by
      simp only [Heap.setPrev, Heap.setSize, Heap.setWord, update_apply, hc]
      split_ifs <;> first | rfl | omega) ⟨rfl, rfl, rfl, rfl⟩
  rw [← Place.fill_withPre] at hsplit
  obtain ⟨L, hL, hused, hK2⟩ := blockRelease_inv hsplit
  rw [Place.addr_withPre, ← hc] at hL hK2
  refine ⟨L, 16 + need, hL, fun a v => ?_, fun _ => le_rfl,
    (hK1.trans hK2).mono fun a v hv => (hused a v).mp hv⟩
  rw [hused, outerUsed, outerUsed, Place.mem_outer_withPre]
  simp

end Split

/-! ### Acquire -/

/-- More steps than a free list has blocks. -/
def heapFuel : Nat := 2097153

/-- Every tile takes 32 bytes. -/
theorem length_mul_le_span (h : ∀ t ∈ ts, t.total % 16 = 0 ∧ 32 ≤ t.total) :
    32 * ts.length ≤ span ts := by
  induction ts with
  | nil => exact le_rfl
  | cons t ts ih =>
    have h1 := h t mem_cons_self
    have h2 := ih fun u hu => h u (mem_cons_of_mem _ hu)
    rw [length_cons, span_cons]
    omega

/-- A tile is placed once. -/
theorem length_placed (a : Nat) (ts : List Tile) : (placed a ts).length = ts.length := by
  induction ts generalizing a with
  | nil => rfl
  | cons t ts ih => rw [placed, length_cons, ih, length_cons]

/-- All areas together hold at most `2 ^ 21` blocks. -/
theorem Shape.blocks_length (hs : Shape L) : (blocks L).length ≤ 2097152 := by
  have key : ∀ L : Layout, (∀ A ∈ L, A.tiles.length ≤ 32768) →
      (blocks L).length ≤ 32768 * L.length := by
    intro L
    induction L with
    | nil => intro _; exact le_rfl
    | cons A L ih =>
      intro hA
      have h1 := hA A mem_cons_self
      have h2 := ih fun B hB => hA B (mem_cons_of_mem _ hB)
      rw [show blocks (A :: L) = placed A.base A.tiles ++ blocks L from rfl, length_append,
        length_placed, length_cons]
      omega
  have hlen := key L fun A hA => by
    have h1 := length_mul_le_span (hs.tile A hA)
    have h2 := (hs.area A hA).2.2.1
    omega
  have := hs.count
  omega

/-- A free list is shorter than the fuel. -/
theorem Good.length_lt (hG : Good h L S) {ls : Nat → Nat → List Nat} (hL : Lists h S ls)
    (fl sl : Nat) : (ls fl sl).length + 1 ≤ heapFuel := by
  have hsub : ls fl sl ⊆ (blocks L).map Prod.fst := fun a ha => by
    obtain ⟨t, hS, -⟩ := (hL.mem fl sl a).mp ha
    exact mem_map.mpr ⟨_, hG.sub a t hS, rfl⟩
  have h1 := (subperm_of_subset (hL.nodup fl sl) hsub).length_le
  have h2 := hG.shape.blocks_length
  rw [length_map] at h1
  rw [heapFuel]
  omega

/-- The result of an allocation of `n` bytes from the heap `h` with the
layout `L`: a new used block with room for them, or nothing. The
payloads of the other used blocks stay as they are. -/
def Allocated (h : Heap) (L : Layout) (n : Nat) (r : Heap × Nat) : Prop :=
  ∃ L', HeapInv r.1 L' ∧ Kept (usedOf L) h r.1 ∧
    (r.2 = 0 ∧ (∀ a v, usedOf L' a v ↔ usedOf L a v) ∨
      ∃ b u, r.2 = b + 16 ∧ b ≠ 0 ∧ (∀ v, ¬ usedOf L b v) ∧ n + 16 ≤ u ∧
        ∀ a v, usedOf L' a v ↔ usedOf L a v ∨ a = b ∧ v = u)

/-- A free block is smaller than the largest area. -/
theorem HeapInv.free_lt (hI : HeapInv h L) (ha : freeOf L a t) : t < 1048576 :=
  (hI.good.shape.block ha).2.2.2.2.1

/-- `list_take`: nothing changes and no free block fits, or a free block
is unlisted. -/
theorem listTake_spec (hI : HeapInv h L) {total fl sl fuel : Nat} (hreq : 16 ≤ total)
    (hmap : mapInsert total = (fl, sl)) (hfuel : heapFuel < fuel) :
    listTake fuel h fl sl total = some (h, 0) ∧ (∀ a t, freeOf L a t → t < total) ∨
      ∃ b t, freeOf L b t ∧ total ≤ t ∧ b ≠ 0 ∧
        listTake fuel h fl sl total = some (freelistRemove h b, b) := by
  obtain ⟨ls, hL⟩ := hI.good.free
  have htotal : ∀ a t, freeOf L a t → blockTotal h a = t := fun a t ha => (hI.good.block ha).1
  have hlen := hI.good.length_lt hL fl sl
  obtain ⟨b, hrun, hb⟩ := hL.takeLoop_spec htotal hreq hmap (lt_of_le_of_lt hlen hfuel) (32 - fl)
    le_rfl
  have hrun' : takeLoop fuel h fl sl total (heapFlCount - fl) = some b := hrun
  simp only [listTake, hrun', Option.bind_eq_bind, Option.bind_some]
  rcases hb with ⟨rfl, hsmall⟩ | ⟨t, hS, hle⟩
  · refine .inl ⟨if_pos rfl, fun a t hS => Nat.lt_of_not_le fun hle => ?_⟩
    -- the bucket of a block that fits is not before that of the request
    have hge := (hL.listable a t hS).ge
    have hbefore := mt (lt_of_mapInsert (s := t) (by omega) hreq) (by omega)
    rw [hmap] at hbefore
    have := hsmall (mapInsert t).1 (mapInsert t).2 (by omega) (by omega) a
      ((hL.mem _ _ a).mpr ⟨t, hS, rfl⟩)
    rw [htotal a t hS] at this
    omega
  · have hne := (hL.listable b t hS).ne_zero
    exact .inr ⟨b, t, hS, hle, hne, if_neg hne⟩

/-- The flags that `block_acquire` clears. -/
def unmarkFree (h : Heap) (b : Nat) : Heap :=
  let h := clearFlag h b heapFree
  clearFlag h (blockNext h b) heapPrevFree

/-- An unlisted block becomes used. -/
theorem unmarkFree_inv (hG : Good h (pl.fill [⟨t, true⟩]) (outerFree pl t))
    (hsep : pl.Separated false) :
    HeapInv (unmarkFree h pl.addr) (pl.fill [⟨t, false⟩]) ∧
      Kept (outerUsed pl t) h (unmarkFree h pl.addr) := by
  obtain ⟨-, -, -, -, hnmod, hnlt⟩ := hG.behind
  obtain ⟨hval, hlt⟩ := hG.tile
  have hsz : h.size pl.addr &&& (0xffffffffffffffff - heapFree) =
      enc t false (prevFree pl.pre) := by
    rw [hG.head.2.1]
    exact enc_clear_free hval.1 true _ (by omega)
  obtain ⟨hnext, hnsz, hset⟩ := hG.setSizes (fun a u ha => ha) hsz
  simp only [unmarkFree, clearFlag, hnext, hnsz]
  obtain ⟨hgood, hK⟩ := hset _ (enc_clear_prevFree hnmod (headFree pl.post) true (by omega))
  exact ⟨⟨hgood.of_iff fun a u => freeOf_fill_used.symm, coalesced_fill.mpr hsep⟩, hK⟩

/-- `block_acquire`: it fails only if no free block fits. -/
theorem blockAcquire_spec (hI : HeapInv h L) {payload fuel : Nat}
    (hp : payload % 16 = 0 ∧ 16 ≤ payload) (hfuel : heapFuel < fuel) :
    ∃ r, blockAcquire fuel h payload = some r ∧ Allocated h L payload r ∧
      (r.2 = 0 → r.1 = h ∧ ∀ a t, freeOf L a t → t < payload + heapHdr) := by
  have hsame : Allocated h L payload (h, 0) :=
    ⟨L, hI, Kept.refl _ _, .inl ⟨rfl, fun a v => Iff.rfl⟩⟩
  rw [blockAcquire]
  simp only [mapRequest]
  by_cases hmax : payload + heapHdr ≥ heapMaxBytes
  · simp only [if_pos hmax]
    refine ⟨_, rfl, hsame, fun _ => ⟨rfl, fun a t ha => ?_⟩⟩
    have := hI.free_lt ha
    rw [heapMaxBytes] at hmax
    omega
  simp only [if_neg hmax]
  generalize hmap : mapInsert (payload + heapHdr) = m
  have hreq : 16 ≤ payload + heapHdr := by rw [heapHdr]; omega
  rcases listTake_spec hI hreq hmap hfuel with ⟨htake, hsmall⟩ | ⟨b, t, hfree, hle, hne, htake⟩
  · simp only [htake, Option.bind_eq_bind, Option.bind_some, if_true]
    exact ⟨_, rfl, hsame, fun _ => ⟨rfl, hsmall⟩⟩
  simp only [htake, Option.bind_eq_bind, Option.bind_some, if_neg hne]
  obtain ⟨pl, rfl, rfl⟩ := exists_place hfree
  have hG : Good (freelistRemove h pl.addr) (pl.fill [⟨t, true⟩]) (outerFree pl t) := by
    refine (hI.good.remove hfree).of_iff fun a u => ?_
    rw [freeOf_fill_free]
    constructor
    · rintro ⟨hout | ⟨heq, -⟩, hne⟩
      · exact hout
      · exact absurd heq hne
    · exact fun hout => ⟨.inl hout, hI.good.outer_ne hout⟩
  -- off its list, marked used, then trimmed: each of the three keeps the other payloads
  obtain ⟨hclear, hK1⟩ := unmarkFree_inv hG (separated_weaken (coalesced_fill.mp hI.coalesced))
  obtain ⟨L', u, hL', hused, hu, hK2⟩ := blockTrimUsed_inv payload hclear hp
  have hkept : Kept (usedOf (pl.fill [⟨t, true⟩])) h
      (blockTrimUsed (unmarkFree (freelistRemove h pl.addr) pl.addr) pl.addr payload) := by
    refine (hI.good.remove_kept hfree).trans ((hK1.mono fun a v hv => ?_).trans
      (hK2.mono fun a v hv => ?_))
    · exact usedOf_fill_free.mp hv
    · exact (hused a v).mpr (.inl (usedOf_fill_free.mp hv))
  refine ⟨_, rfl, ⟨L', hL', hkept,
    .inr ⟨pl.addr, u, rfl, hne, fun v hv => ?_, ?_, fun a v => ?_⟩⟩, nofun⟩
  · exact hI.good.outer_ne (usedOf_fill_free.mp hv) rfl
  · have := hu (by rw [heapHdr] at hle; omega)
    omega
  · rw [hused, usedOf_fill_free]

/-! ### Areas -/

/-- `kheap_area_add` of pages outside every area: they are one block, and
it is released. -/
theorem kheapAreaAdd_eq (hI : HeapInv h L) {mem pages : Nat} (hcount : h.areas.length < 64)
    (hok : GrantOk h pages mem) (hpages : 16 ≤ pages ∧ pages ≤ 256) :
    ∃ k t, kheapAreaAdd h mem (pages * pageSize) = blockRelease k mem ∧ pages * 4096 = t + 16 ∧
      HeapInv k (Place.fill ⟨L, mem, [], [], []⟩ [⟨t, false⟩]) ∧ Kept (usedOf L) h k := by
  obtain ⟨hmod, hpos, htop, hapart⟩ := hok
  simp only [pageSize] at hmod htop hapart ⊢
  have hbytes : alignDown (pages * 4096) heapAlign = pages * 4096 := by
    have := alignDown_eq (x := pages * 4096) (k := 4) (by omega) (by decide)
    rw [show (2 : Nat) ^ 4 = heapAlign by decide, show heapAlign = 16 by rfl] at this
    rw [show heapAlign = 16 by rfl, this]
    omega
  rw [kheapAreaAdd, hbytes]
  simp only [heapHdr]
  -- the one tile of the new area
  obtain ⟨t, ht⟩ : ∃ t, pages * 4096 = t + 16 := ⟨pages * 4096 - 16, by omega⟩
  rw [ht] at htop hapart ⊢
  rw [Nat.add_sub_cancel]
  have hnext : blockNext ((h.setSize mem t).setPrev mem 0) mem = mem + t := by
    refine blockNext_of_size ?_ (by omega) (by omega)
    simp [Heap.size, Heap.setPrev, Heap.setSize, Heap.setWord]
  rw [hnext]
  have hout : ∀ A ∈ L, A.base + span A.tiles + 16 ≤ mem ∨ mem + (t + 16) ≤ A.base := by
    intro A hA
    have hm : (A.base, span A.tiles + 16) ∈ h.areas := by
      rw [hI.good.areas]
      exact mem_map.mpr ⟨A, hA, rfl⟩
    have := hapart _ hm
    omega
  generalize hk : ({ (((h.setSize mem t).setPrev mem 0).setSize (mem + t) 0).setPrev
    (mem + t) mem with
    areas := h.areas ++ [(mem, t + 16)] } : Heap) = k
  refine ⟨k, t, congrArg (blockRelease · mem) hk, rfl, ?_⟩
  · have hlen : L.length < 64 := by
      rw [hI.good.areas, length_map] at hcount
      exact hcount
    have happend := hI.good.append (A := ⟨mem, [⟨t, false⟩]⟩) (k := k) ?_ ?_ ?_ hlen
      (by rw [← hk]; rfl) (by rw [← hk]; exact ⟨rfl, rfl, rfl⟩) ?_ ?_
    · refine ⟨⟨happend.1.of_iff fun a u => ?_, ?_⟩, happend.2⟩
      · rw [freeOf_fill_used, outerFree, freeOf]
        simp [Place.outer, placed, blocks]
      · intro A hA
        rcases mem_append.mp hA with hA | hA
        · exact hI.coalesced A hA
        · rw [mem_singleton.mp hA]
          exact isChain_singleton _
    · simp only [mem_singleton, forall_eq]
      omega
    · simp only [span_cons, span_nil]
      omega
    · intro B hB
      have := hout B hB
      simp only [Apart, span_cons, span_nil]
      omega
    · subst hk
      simp only [Seg, Heap.setPrev, Heap.setSize, Heap.setWord, update_apply, enc]
      split_ifs <;> simp <;> omega
    · intro y hy
      subst hk
      simp only [span_cons, span_nil] at hy
      simp only [Heap.setPrev, Heap.setSize, Heap.setWord]
      rw [update_of_ne (by omega), update_of_ne (by omega),
        update_of_ne (by omega), update_of_ne (by omega)]

/-- `kheap_grow`: nothing, or one new block that is released. -/
theorem kheapGrow_cases (hI : HeapInv h L) (need : Nat) (grant : Option Nat) :
    kheapGrow h need grant = (h, false) ∨ ∃ k mem t, kheapGrow h need grant =
      (blockRelease k mem, true) ∧
      (need ≤ heapMaxBytes → need + 32 ≤ t) ∧
      HeapInv k (Place.fill ⟨L, mem, [], [], []⟩ [⟨t, false⟩]) ∧ Kept (usedOf L) h k := by
  rw [kheapGrow]
  by_cases hcount : h.areas.length ≥ kheapMaxAreas
  · exact .inl (if_pos hcount)
  rw [if_neg hcount]
  simp only
  generalize hp : (if (need + 3 * heapHdr + pageSize - 1) / pageSize % 0x100000000
      < kheapAreaMinPages
    then kheapAreaMinPages
    else (need + 3 * heapHdr + pageSize - 1) / pageSize % 0x100000000) = pages
  rw [kheapMaxAreas] at hcount
  -- the number of pages is rounded up, and cut to 32 bits
  have hpages : 16 ≤ pages ∧ (need ≤ heapMaxBytes → need + 48 ≤ pages * 4096) := by
    split at hp
    all_goals
      simp only [heapHdr, pageSize, kheapAreaMinPages, heapMaxBytes] at *
      omega
  by_cases hmax : pages > kheapAreaMaxPages
  · exact .inl (if_pos hmax)
  rw [if_neg hmax]
  rw [kheapAreaMaxPages] at hmax
  cases grant with
  | none => exact .inl rfl
  | some mem =>
    by_cases hok : GrantOk h pages mem
    · have hne : ¬ mem = 0 := by have := hok.2.1; omega
      simp only [getKernelPages, if_pos hok, if_neg hne]
      obtain ⟨k, t, hk, ht, hnew⟩ := kheapAreaAdd_eq hI (by omega) hok ⟨hpages.1, by omega⟩
      exact .inr ⟨k, mem, t, by rw [← hk], by omega, hnew⟩
    · simp only [getKernelPages, if_neg hok, if_true]
      exact .inl trivial

/-- `kheap_grow` leaves the used blocks as they are. -/
theorem kheapGrow_inv (hI : HeapInv h L) {need : Nat} {grant : Option Nat} :
    Leaves (usedOf L) h (kheapGrow h need grant).1 := by
  rcases kheapGrow_cases hI need grant with heq | ⟨k, mem, t, heq, -, hk, hK⟩
  · rw [heq]
    exact Leaves.refl hI
  · rw [heq]
    refine ((blockRelease_inv hk).congr fun a v => ?_).after hK
    simp [outerUsed, Place.outer, placed, blocks, usedOf]

end CoreZ.Proofs.Mm.Kheap
