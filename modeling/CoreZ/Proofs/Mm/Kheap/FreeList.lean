import CoreZ.Lib.DList
import CoreZ.Proofs.Mm.Kheap.Words

/-!
# `CoreZ.Proofs.Mm.Kheap.FreeList`: the segregated free lists

`Lists h S ls` says that the control block of the heap `h` lists exactly
the blocks of the relation `S` (address and total): the list `ls fl sl`
of every bucket is doubly linked through the memory, holds the blocks
whose total maps to the bucket, and has its bits set in the two bitmaps
exactly when it is not empty.

`freelist_push` and `freelist_remove` add a block to `S` and take one
out, and `list_take` finds a block that is large enough. All three write
link words only.
-/

set_option autoImplicit false

namespace CoreZ.Proofs.Mm.Kheap

open CoreZ.Lib
open CoreZ.Mm.Kheap
open Function
open List

/-- What the listed blocks have in common. -/
structure Listable (a t : Nat) : Prop where
  aligned : a % 16 = 0
  ne_zero : a ≠ 0
  ge : 32 ≤ t
  lt : t < 4294967296

/-- The free lists hold the blocks of `S`. -/
structure Lists (h : Heap) (S : Nat → Nat → Prop) (ls : Nat → Nat → List Nat) : Prop where
  listable : ∀ a t, S a t → Listable a t
  unique : ∀ a t u, S a t → S a u → t = u
  chain : ∀ fl sl, DList h.linkNext h.linkPrev 0 0 (ls fl sl) (h.blocks fl sl)
  nodup : ∀ fl sl, (ls fl sl).Nodup
  mem : ∀ fl sl a, a ∈ ls fl sl ↔ ∃ t, S a t ∧ mapInsert t = (fl, sl)
  slBit : ∀ fl sl, (h.slBitmap fl).testBit sl = true ↔ ls fl sl ≠ []
  flBit : ∀ fl, h.flBitmap.testBit fl = true ↔ ∃ sl, ls fl sl ≠ []

variable {h : Heap} {b fl fuel sl t : Nat} {ls : Nat → Nat → List Nat} {S : Nat → Nat → Prop}

/-- Blocks in the lists are aligned, and none is null. -/
theorem Lists.listable_of_mem (hL : Lists h S ls) {a : Nat} (ha : a ∈ ls fl sl) :
    a % 16 = 0 ∧ a ≠ 0 := by
  obtain ⟨t, hS, -⟩ := (hL.mem fl sl a).mp ha
  exact ⟨(hL.listable a t hS).aligned, (hL.listable a t hS).ne_zero⟩

/-- A block is in the list of its size. -/
theorem Lists.bucket (hL : Lists h S ls) {a : Nat} (hS : S a t) (ha : a ∈ ls fl sl) :
    mapInsert t = (fl, sl) := by
  obtain ⟨u, hu, hmap⟩ := (hL.mem fl sl a).mp ha
  rw [hL.unique a t u hS hu]
  exact hmap

/-- Non-empty buckets are in the range of the bitmaps. -/
theorem Lists.bucket_lt (hL : Lists h S ls) (hne : ls fl sl ≠ []) : fl < 32 ∧ sl < 16 := by
  obtain ⟨a, ha⟩ := exists_mem_of_ne_nil _ hne
  obtain ⟨t, hS, hmap⟩ := (hL.mem fl sl a).mp ha
  have hok := hL.listable a t hS
  have hge := hok.ge
  have h1 : (mapInsert t).1 < 32 := (Nat.log2_lt (by omega)).mpr hok.lt
  have h2 := mapInsert_snd_lt t
  rw [hmap] at h1 h2
  exact ⟨h1, h2⟩

/-- The lists depend on the link words of their blocks only. -/
theorem Lists.congr {h' : Heap} (hL : Lists h S ls) (hb : h'.blocks = h.blocks)
    (hsl : h'.slBitmap = h.slBitmap) (hfl : h'.flBitmap = h.flBitmap)
    (hmem : ∀ a t, S a t → h'.mem (a + 16) = h.mem (a + 16) ∧ h'.mem (a + 24) = h.mem (a + 24)) :
    Lists h' S ls := by
  refine ⟨hL.listable, hL.unique, fun fl sl => ?_, hL.nodup, hL.mem, fun fl sl => ?_, fun fl => ?_⟩
  · rw [hb]
    refine (hL.chain fl sl).congr (fun x hx => ?_) fun x hx => ?_
    · obtain ⟨t, hS, -⟩ := (hL.mem fl sl x).mp hx
      exact (hmem x t hS).1
    · obtain ⟨t, hS, -⟩ := (hL.mem fl sl x).mp hx
      exact (hmem x t hS).2
  · rw [hsl]
    exact hL.slBit fl sl
  · rw [hfl]
    exact hL.flBit fl

/-! ### Bits -/

/-- A bit of a bitmap is set. -/
theorem testBit_or_one (x i j : Nat) : (x ||| 1 <<< i).testBit j =
    (x.testBit j || decide (i = j)) := by
  rw [Nat.testBit_or, Nat.one_shiftLeft, Nat.testBit_two_pow]

/-- A bit of a bitmap is cleared. -/
theorem testBit_clear (x : Nat) {i : Nat} (hi : i < 32) (j : Nat) :
    (x &&& (0xffffffff - 1 <<< i)).testBit j
      = (x.testBit j && (decide (j < 32) && !decide (i = j))) := by
  have hlt : 2 ^ i < 2 ^ 32 := Nat.pow_lt_pow_right (by decide) hi
  have h := Nat.testBit_two_pow_sub_succ hlt j
  rw [Nat.testBit_two_pow] at h
  rw [Nat.testBit_and, Nat.one_shiftLeft, ← h,
    show 0xffffffff - 2 ^ i = 2 ^ 32 - (2 ^ i + 1) by omega]

/-- The bits from `low` on. -/
theorem testBit_high {x low j : Nat} : (x &&& (0xffffffff <<< low) % 0x100000000).testBit j = true ↔
    x.testBit j = true ∧ low ≤ j ∧ j < 32 := by
  rw [Nat.testBit_and, show (0x100000000 : Nat) = 2 ^ 32 by decide, Nat.testBit_mod_two_pow,
    Nat.testBit_shiftLeft, show (0xffffffff : Nat) = 2 ^ 32 - 1 by decide,
    Nat.testBit_two_pow_sub_one]
  simp only [Bool.and_eq_true, decide_eq_true_eq]
  grind

/-! ### Push -/

/-- The lists with `b` in front of the bucket of `t`. -/
def pushed (ls : Nat → Nat → List Nat) (b t : Nat) : Nat → Nat → List Nat := fun fl sl =>
  if mapInsert t = (fl, sl) then b :: ls fl sl else ls fl sl

/-- The lists after a push. -/
theorem mem_pushed {a : Nat} :
    a ∈ pushed ls b t fl sl ↔ a ∈ ls fl sl ∨ a = b ∧ mapInsert t = (fl, sl) := by
  rw [pushed]
  split <;> simp [*, or_comm]

theorem pushed_ne_nil : pushed ls b t fl sl ≠ [] ↔ ls fl sl ≠ [] ∨ mapInsert t = (fl, sl) := by
  rw [pushed]
  split <;> simp [*]

section Writes

variable (h : Heap) (b : Nat)

/-- A write of a link is a write to one word, or none. -/
theorem setLinkPrevOf_eq (q v : Nat) : h.setLinkPrevOf q v
    = { h with mem := fun y => if q ≠ 0 ∧ y = q + 24 then v else h.mem y } := by
  rw [Heap.setLinkPrevOf]
  by_cases hq : q = 0
  · simp [hq]
  rw [if_pos hq, Heap.setLinkPrev, Heap.setWord]
  congr 1
  funext y
  simp [hq, update_apply]

/-- The words that a push stores. -/
theorem freelistPush_mem (y : Nat) :
    (freelistPush h b).mem y =
      let nxt := h.blocks (mapInsert (blockTotal h b)).1 (mapInsert (blockTotal h b)).2
      if nxt ≠ 0 ∧ y = nxt + 24 then b else if y = b + 24 then 0
      else if y = b + 16 then nxt else h.mem y := by
  have hne : b + 16 ≠ b + 24 := by omega
  simp only [freelistPush, Heap.setHead, setLinkPrevOf_eq]
  simp only [Heap.setLinkPrev, Heap.setLinkNext, Heap.linkNext, Heap.setWord, update_apply,
    if_true, if_neg hne]

/-- The heads and the bitmaps after a push. -/
theorem freelistPush_ctl {fl sl : Nat} (hmap : mapInsert (blockTotal h b) = (fl, sl)) :
    (freelistPush h b).blocks = (h.setHead fl sl b).blocks ∧
      (freelistPush h b).slBitmap = update h.slBitmap fl (h.slBitmap fl ||| 1 <<< sl) ∧
      (freelistPush h b).flBitmap = h.flBitmap ||| 1 <<< fl ∧
      (freelistPush h b).areas = h.areas := by
  simp only [freelistPush, Heap.setHead, setLinkPrevOf_eq, hmap]
  exact ⟨rfl, rfl, rfl, rfl⟩

end Writes

/-- `freelist_push` of a block that is not listed. -/
theorem Lists.push (hL : Lists h S ls) (hb : Listable b t) (hnew : ∀ u, ¬ S b u)
    (ht : blockTotal h b = t) :
    Lists (freelistPush h b) (fun a u => S a u ∨ a = b ∧ u = t) (pushed ls b t) := by
  have hbmem : ∀ fl sl, b ∉ ls fl sl := fun fl sl hmem => by
    obtain ⟨u, hu, -⟩ := (hL.mem fl sl b).mp hmem
    exact hnew u hu
  generalize hmap : mapInsert t = m
  obtain ⟨fl₀, sl₀⟩ := m
  have hal := hb.aligned
  have hctl := freelistPush_ctl h b (ht ▸ hmap)
  have hpush := freelistPush_mem h b
  simp only [ht, hmap] at hpush
  have hnxt : h.blocks fl₀ sl₀ ≠ 0 → h.blocks fl₀ sl₀ % 16 = 0 := fun hne =>
    (hL.listable_of_mem ((hL.chain fl₀ sl₀).head_mem hne)).1
  -- the link words of the other listed blocks
  have hnext : ∀ {fl sl x}, x ∈ ls fl sl → (freelistPush h b).linkNext x = h.linkNext x := by
    intro fl sl x hmem
    have hx := (hL.listable_of_mem hmem).1
    have hxb : x ≠ b := fun heq => hbmem fl sl (heq ▸ hmem)
    rw [Heap.linkNext, hpush, if_neg (by rintro ⟨hne, heq⟩; have := hnxt hne; omega),
      if_neg (by omega),
      if_neg (by omega)]
    rfl
  have hprev : ∀ {fl sl x}, x ∈ ls fl sl → (freelistPush h b).linkPrev x
      = if x = h.blocks fl₀ sl₀ then b else h.linkPrev x := by
    intro fl sl x hmem
    obtain ⟨hx, hx0⟩ := hL.listable_of_mem hmem
    have hxb : x ≠ b := fun heq => hbmem fl sl (heq ▸ hmem)
    rw [Heap.linkPrev, hpush]
    by_cases heq : x = h.blocks fl₀ sl₀
    · rw [if_pos heq, if_pos ⟨heq ▸ hx0, by omega⟩]
    · rw [if_neg heq, if_neg (by omega), if_neg (by omega), if_neg (by omega)]
      rfl
  refine ⟨?_, ?_, fun fl sl => ?_, fun fl sl => ?_, fun fl sl a => ?_, fun fl sl => ?_,
    fun fl => ?_⟩
  · rintro a u (hS | ⟨rfl, rfl⟩)
    · exact hL.listable a u hS
    · exact hb
  · rintro a u v (hu | ⟨hu, hut⟩) (hv | ⟨hv, hvt⟩)
    · exact hL.unique a u v hu hv
    · exact absurd (hv ▸ hu) (hnew u)
    · exact absurd (hu ▸ hv) (hnew v)
    · rw [hut, hvt]
  · rw [hctl.1, pushed, hmap]
    simp only [Heap.setHead, Prod.mk.injEq]
    by_cases hbucket : fl₀ = fl ∧ sl₀ = sl
    · obtain ⟨rfl, rfl⟩ := hbucket
      rw [if_pos ⟨rfl, rfl⟩, if_pos ⟨rfl, rfl⟩]
      refine (hL.chain fl₀ sl₀).push (hL.nodup fl₀ sl₀) ?_ ?_ (fun x => hnext) fun x => hprev
      · rw [Heap.linkNext, hpush, if_neg (by rintro ⟨hne, heq⟩; have := hnxt hne; omega),
          if_neg (by omega), if_pos rfl]
      · have hne : ¬ (h.blocks fl₀ sl₀ ≠ 0 ∧ b + 24 = h.blocks fl₀ sl₀ + 24) := by
          rintro ⟨hne, heq⟩
          refine hbmem fl₀ sl₀ ?_
          rw [show b = h.blocks fl₀ sl₀ by omega]
          exact (hL.chain fl₀ sl₀).head_mem hne
        rw [Heap.linkPrev, hpush, if_neg hne, if_pos rfl]
    · rw [if_neg hbucket, if_neg fun heq : fl = fl₀ ∧ sl = sl₀ => hbucket ⟨heq.1.symm, heq.2.symm⟩]
      refine (hL.chain fl sl).congr (fun x => hnext) fun x hx => ?_
      rw [hprev hx, if_neg]
      -- the head of the other bucket is in that bucket only
      intro heq
      obtain ⟨u, hS, humap⟩ := (hL.mem fl sl x).mp hx
      have hx0 := (hL.listable_of_mem hx).2
      have hhead : x ∈ ls fl₀ sl₀ := by
        rw [heq]
        exact (hL.chain fl₀ sl₀).head_mem (heq ▸ hx0)
      have := (hL.bucket hS hhead).symm.trans humap
      exact hbucket (Prod.mk.inj this)
  · rw [pushed]
    split
    · exact nodup_cons.mpr ⟨hbmem fl sl, hL.nodup fl sl⟩
    · exact hL.nodup fl sl
  · rw [mem_pushed, hL.mem fl sl a]
    constructor
    · rintro (⟨u, hS, hu⟩ | ⟨rfl, hu⟩)
      · exact ⟨u, .inl hS, hu⟩
      · exact ⟨t, .inr ⟨rfl, rfl⟩, hu⟩
    · rintro ⟨u, hS | ⟨rfl, rfl⟩, hu⟩
      · exact .inl ⟨u, hS, hu⟩
      · exact .inr ⟨rfl, hu⟩
  · rw [hctl.2.1, pushed_ne_nil, hmap, update_apply, ← hL.slBit fl sl]
    split
    · next hfl =>
        rw [hfl, testBit_or_one, Bool.or_eq_true, decide_eq_true_eq]
        simp
    · next hfl => simp [Ne.symm hfl]
  · rw [hctl.2.2.1, testBit_or_one, Bool.or_eq_true, hL.flBit fl, decide_eq_true_eq]
    simp only [pushed_ne_nil, hmap, Prod.mk.injEq, exists_or, exists_and_left, exists_eq', and_true]

/-! ### Remove -/

section Remove

variable (h : Heap) (b : Nat)

theorem clearBits_eq (fl sl : Nat) : clearBits h fl sl = { h with
    slBitmap := (clearBits h fl sl).slBitmap, flBitmap := (clearBits h fl sl).flBitmap } := by
  rw [clearBits]
  split <;> rfl

theorem clearBits_slBitmap (fl sl : Nat) : (clearBits h fl sl).slBitmap
    = update h.slBitmap fl (h.slBitmap fl &&& (0xffffffff - 1 <<< sl)) := by
  rw [clearBits]
  split <;> rfl

/-- The first-level bit goes when the second level is empty. -/
theorem clearBits_flBitmap (fl sl : Nat) : (clearBits h fl sl).flBitmap
    = if (clearBits h fl sl).slBitmap fl = 0 then h.flBitmap &&& (0xffffffff - 1 <<< fl)
      else h.flBitmap := by
  rw [clearBits_slBitmap, clearBits]
  split <;> rfl

/-- A listed block has another block in its back link, or none. -/
theorem freelistRemove_mem (hb : b % 16 = 0) (hp : h.linkPrev b % 16 = 0) (hne : h.linkPrev b ≠ b)
    (y : Nat) :
    (freelistRemove h b).mem y =
      if h.linkNext b ≠ 0 ∧ y = h.linkNext b + 24 then h.linkPrev b
      else if h.linkPrev b ≠ 0 ∧ y = h.linkPrev b + 16 then h.linkNext b else h.mem y := by
  have h1 : b + 16 ≠ h.linkPrev b + 16 := by omega
  have h2 : b + 24 ≠ h.linkPrev b + 16 := by omega
  by_cases hp0 : h.linkPrev b = 0
  · -- the writes to the control block leave the memory
    have hmem : ∀ h' : Heap, h'.mem = h.mem →
      (h'.setLinkPrevOf (h'.linkNext b) (h'.linkPrev b)).mem y
        = if h.linkNext b ≠ 0 ∧ y = h.linkNext b + 24 then h.linkPrev b else h.mem y := by
      intro h' heq
      rw [setLinkPrevOf_eq, Heap.linkNext, Heap.linkPrev, heq]
      rfl
    rw [if_neg fun hand : h.linkPrev b ≠ 0 ∧ y = h.linkPrev b + 16 => hand.1 hp0, freelistRemove]
    simp only [if_neg fun hne : h.linkPrev b ≠ 0 => hne hp0]
    refine hmem _ ?_
    split
    · rw [clearBits_eq]
      rfl
    · rfl
  · have hn : (h.setLinkNext (h.linkPrev b) (h.linkNext b)).linkNext b = h.linkNext b := by
      exact update_of_ne h1 _ _
    have hp : (h.setLinkNext (h.linkPrev b) (h.linkNext b)).linkPrev b = h.linkPrev b := by
      exact update_of_ne h2 _ _
    rw [freelistRemove]
    simp only [if_pos hp0]
    rw [hn, hp, setLinkPrevOf_eq]
    simp only [Heap.setLinkNext, Heap.setWord, update_apply, ne_eq, hp0, not_false_eq_true,
      true_and]

theorem freelistRemove_areas : (freelistRemove h b).areas = h.areas := by
  rw [freelistRemove]
  simp only [setLinkPrevOf_eq]
  split
  · rfl
  split
  · rw [clearBits_eq]
    rfl
  · rfl

/-- A block that is not the first of its list. -/
theorem freelistRemove_ctl_of_prev (hp : h.linkPrev b ≠ 0) :
    (freelistRemove h b).blocks = h.blocks ∧ (freelistRemove h b).slBitmap = h.slBitmap ∧
      (freelistRemove h b).flBitmap = h.flBitmap := by
  rw [freelistRemove]
  simp only [setLinkPrevOf_eq, if_pos hp]
  exact ⟨rfl, rfl, rfl⟩

/-- The first block of a longer list. -/
theorem freelistRemove_ctl_of_first (hmap : mapInsert (blockTotal h b) = (fl, sl))
    (hp : h.linkPrev b = 0) (hn : h.linkNext b ≠ 0) :
    (freelistRemove h b).blocks = (h.setHead fl sl (h.linkNext b)).blocks ∧
      (freelistRemove h b).slBitmap = h.slBitmap ∧ (freelistRemove h b).flBitmap = h.flBitmap := by
  have hn' : ¬ (h.setHead fl sl (h.linkNext b)).linkNext b = 0 := hn
  rw [freelistRemove, hmap]
  simp only [setLinkPrevOf_eq, if_neg fun hne : h.linkPrev b ≠ 0 => hne hp, if_neg hn', true_and]
  exact ⟨rfl, rfl⟩

/-- The only block of its list. -/
theorem freelistRemove_ctl_of_last (hmap : mapInsert (blockTotal h b) = (fl, sl))
    (hp : h.linkPrev b = 0) (hn : h.linkNext b = 0) :
    (freelistRemove h b).blocks = (h.setHead fl sl 0).blocks ∧
      (freelistRemove h b).slBitmap = (clearBits h fl sl).slBitmap ∧
      (freelistRemove h b).flBitmap = (clearBits h fl sl).flBitmap := by
  have hn' : (h.setHead fl sl (h.linkNext b)).linkNext b = 0 := hn
  rw [freelistRemove, hmap]
  simp only [setLinkPrevOf_eq, if_neg fun hne : h.linkPrev b ≠ 0 => hne hp, if_pos hn']
  rw [hn]
  refine ⟨by rw [clearBits_eq], ?_, ?_⟩
  · rw [clearBits_slBitmap, clearBits_slBitmap]
    rfl
  · rw [clearBits_flBitmap, clearBits_flBitmap, clearBits_slBitmap, clearBits_slBitmap]
    rfl

end Remove

/-- The lists without `b`. -/
def removed (ls : Nat → Nat → List Nat) (b : Nat) : Nat → Nat → List Nat := fun fl sl =>
  (ls fl sl).erase b

section

variable (hL : Lists h S ls)

include hL

/-- The two bits after a removal. -/
theorem removed_bits {fl₀ sl₀ : Nat} (hls : ls fl₀ sl₀ = [b])
    (hother : ∀ fl sl, (fl, sl) ≠ (fl₀, sl₀) → (ls fl sl).erase b = ls fl sl) :
    (∀ fl sl, ((clearBits h fl₀ sl₀).slBitmap fl).testBit sl = true ↔ removed ls b fl sl ≠ []) ∧
      ∀ fl, (clearBits h fl₀ sl₀).flBitmap.testBit fl = true ↔ ∃ sl, removed ls b fl sl ≠ [] := by
  have hne₀ : ls fl₀ sl₀ ≠ [] := by rw [hls]; simp
  have hlt := hL.bucket_lt hne₀
  have hsl : ∀ fl sl, ((clearBits h fl₀ sl₀).slBitmap fl).testBit sl = true ↔
      removed ls b fl sl ≠ [] := by
    intro fl sl
    rw [clearBits_slBitmap, update_apply, removed]
    by_cases hfl : fl = fl₀
    · subst hfl
      rw [if_pos rfl, testBit_clear _ (by omega), Bool.and_eq_true, hL.slBit]
      by_cases hsl : sl₀ = sl
      · subst hsl
        simp [hls]
      rw [hother fl sl (by simp [Ne.symm hsl])]
      refine ⟨fun hne => hne.1, fun hne => ⟨hne, ?_⟩⟩
      have := hL.bucket_lt hne
      simp [hsl]
      omega
    · rw [if_neg hfl, hother fl sl (by simp [hfl])]
      exact hL.slBit fl sl
  refine ⟨hsl, fun fl => ?_⟩
  rw [clearBits_flBitmap]
  by_cases hfl : fl = fl₀
  · -- the bit of the row is cleared with its last bucket
    subst hfl
    by_cases h0 : (clearBits h fl sl₀).slBitmap fl = 0
    · rw [if_pos h0, testBit_clear _ hlt.1]
      simp [← hsl, h0]
    · obtain ⟨i, hi⟩ := Nat.exists_testBit_of_ne_zero h0
      rw [if_neg h0]
      exact ⟨fun _ => ⟨i, (hsl fl i).mp hi⟩, fun _ => (hL.flBit fl).mpr ⟨sl₀, hne₀⟩⟩
  · have hsame : (∃ sl, removed ls b fl sl ≠ []) ↔ ∃ sl, ls fl sl ≠ [] := by
      refine exists_congr fun sl => ?_
      rw [removed, hother fl sl (by simp [hfl])]
    rw [hsame, ← hL.flBit]
    split
    · rw [testBit_clear _ hlt.1, Bool.and_eq_true]
      refine ⟨fun hbit => hbit.1, fun hbit => ⟨hbit, ?_⟩⟩
      obtain ⟨sl, hne⟩ := (hL.flBit fl).mp hbit
      simp [Ne.symm hfl, (hL.bucket_lt hne).1]
    · rfl

/-- The control block after a removal. -/
theorem removed_ctl {fl₀ sl₀ : Nat} {pre post : List Nat} (hls : ls fl₀ sl₀ = pre ++ b :: post)
    (herase : (pre ++ b :: post).erase b = pre ++ post)
    (hmap : mapInsert (blockTotal h b) = (fl₀, sl₀))
    (hother : ∀ fl sl, (fl, sl) ≠ (fl₀, sl₀) → (ls fl sl).erase b = ls fl sl) :
    (∀ fl sl, (freelistRemove h b).blocks fl sl
        = if (fl, sl) = (fl₀, sl₀) ∧ pre = [] then h.linkNext b else h.blocks fl sl) ∧
      (∀ fl sl, ((freelistRemove h b).slBitmap fl).testBit sl = true ↔ removed ls b fl sl ≠ []) ∧
      ∀ fl, (freelistRemove h b).flBitmap.testBit fl = true ↔ ∃ sl, removed ls b fl sl ≠ [] := by
  have hchain := hL.chain fl₀ sl₀
  have hnull : (0 : Nat) ∉ pre ++ b :: post := fun hmem =>
    (hL.listable_of_mem (hls ▸ hmem : (0 : Nat) ∈ ls fl₀ sl₀)).2 rfl
  rw [hls] at hchain
  -- unless the list becomes empty, the same buckets are non-empty
  have hsame : pre ++ post ≠ [] → ∀ fl sl, removed ls b fl sl ≠ [] ↔ ls fl sl ≠ [] := by
    intro hne fl sl
    rw [removed]
    by_cases hbucket : (fl, sl) = (fl₀, sl₀)
    · obtain ⟨rfl, rfl⟩ := Prod.mk.inj hbucket
      rw [hls, herase]
      simp [hne]
    · rw [hother fl sl hbucket]
  have hbits : pre ++ post ≠ [] → (∀ fl sl, (h.slBitmap fl).testBit sl = true ↔
    removed ls b fl sl ≠ []) ∧
      ∀ fl, h.flBitmap.testBit fl = true ↔ ∃ sl, removed ls b fl sl ≠ [] := by
    intro hne
    refine ⟨fun fl sl => (hL.slBit fl sl).trans (hsame hne fl sl).symm, fun fl => ?_⟩
    rw [hL.flBit fl]
    exact exists_congr fun sl => (hsame hne fl sl).symm
  rcases hchain.prev_eq with ⟨rfl, hp, -⟩ | ⟨hpre, hp⟩
  · have hpost : h.linkNext b = 0 ↔ post = [] :=
      (hchain.2.2).head_eq_null_iff fun hmem => hnull (mem_cons_of_mem _ hmem)
    by_cases hn : h.linkNext b = 0
    · obtain ⟨hb, hsl, hfl⟩ := freelistRemove_ctl_of_last h b hmap hp hn
      obtain rfl := hpost.mp hn
      refine ⟨fun fl sl => ?_, ?_⟩
      · rw [hb, hn]
        simp [Heap.setHead, Prod.mk.injEq]
      · rw [hsl, hfl]
        exact removed_bits hL hls hother
    · obtain ⟨hb, hsl, hfl⟩ := freelistRemove_ctl_of_first h b hmap hp hn
      refine ⟨fun fl sl => ?_, ?_⟩
      · rw [hb]
        simp [Heap.setHead, Prod.mk.injEq]
      · rw [hsl, hfl]
        exact hbits fun hnil => hn (hpost.mpr (by simpa using hnil))
  · have hp0 : h.linkPrev b ≠ 0 := fun h0 => hnull (mem_append_left _ (h0 ▸ hp))
    obtain ⟨hb, hsl, hfl⟩ := freelistRemove_ctl_of_prev h b hp0
    refine ⟨fun fl sl => ?_, ?_⟩
    · rw [hb, if_neg fun hand => hpre hand.2]
    · rw [hsl, hfl]
      exact hbits fun hnil => hpre (append_eq_nil_iff.mp hnil).1

/-- A listed block in its list, and where its links lead. -/
theorem Lists.around (hb : S b t) (hmap : mapInsert t = (fl, sl)) :
    ∃ pre post, ls fl sl = pre ++ b :: post ∧ b ∉ pre ∧ h.linkPrev b ≠ b ∧
      (h.linkPrev b = 0 ∧ pre = [] ∨ h.linkPrev b ∈ pre) ∧
      (h.linkNext b ≠ 0 → h.linkNext b ∈ post) ∧
      h.linkPrev b % 16 = 0 ∧ h.linkNext b % 16 = 0 := by
  obtain ⟨pre, post, hls⟩ := append_of_mem ((hL.mem fl sl b).mpr ⟨t, hb, hmap⟩)
  have hchain := hL.chain fl sl
  have hnd := hL.nodup fl sl
  have hok : ∀ x ∈ pre ++ b :: post, x % 16 = 0 := fun x hx =>
    (hL.listable_of_mem (hls ▸ hx : x ∈ ls fl sl)).1
  rw [hls] at hchain hnd
  have hbpre : b ∉ pre := fun hmem => (nodup_append.mp hnd).2.2 b hmem b mem_cons_self rfl
  have hn : h.linkNext b ≠ 0 → h.linkNext b ∈ post := hchain.tail.head_mem
  have hn16 : h.linkNext b % 16 = 0 := by
    by_cases h0 : h.linkNext b = 0
    · rw [h0]
    · exact hok _ (mem_append_right _ (mem_cons_of_mem _ (hn h0)))
  rcases hchain.prev_eq with ⟨hnil, hp, -⟩ | ⟨-, hp⟩
  · exact ⟨pre, post, hls, hbpre, hp ▸ (hL.listable b t hb).ne_zero.symm, .inl ⟨hp, hnil⟩, hn,
      by rw [hp], hn16⟩
  · exact ⟨pre, post, hls, hbpre, fun heq => hbpre (heq ▸ hp), .inr hp, hn,
      hok _ (mem_append_left _ hp), hn16⟩

/-- `freelist_remove` of a listed block. -/
theorem Lists.remove (hb : S b t) (ht : blockTotal h b = t) :
    Lists (freelistRemove h b) (fun a u => S a u ∧ a ≠ b) (removed ls b) := by
  generalize hmap : mapInsert t = m
  obtain ⟨fl₀, sl₀⟩ := m
  have hother : ∀ fl sl, (fl, sl) ≠ (fl₀, sl₀) → (ls fl sl).erase b = ls fl sl := by
    intro fl sl hne
    refine erase_of_not_mem fun hmem => hne ?_
    exact (hL.bucket hb hmem).symm.trans hmap
  obtain ⟨pre, post, hls, hbpre, hpb, hp, hn, hp16, hn16⟩ := hL.around hb hmap
  have hchain := hL.chain fl₀ sl₀
  have hnd := hL.nodup fl₀ sl₀
  have hok : ∀ x ∈ pre ++ b :: post, x % 16 = 0 ∧ x ≠ 0 := fun x hx =>
    hL.listable_of_mem (hls ▸ hx : x ∈ ls fl₀ sl₀)
  rw [hls] at hchain hnd
  have hmem := freelistRemove_mem h b (hok b (by simp)).1 hp16 hpb
  have hnext : ∀ x, x % 16 = 0 → (freelistRemove h b).linkNext x
      = if h.linkPrev b ≠ 0 ∧ x = h.linkPrev b then h.linkNext b else h.linkNext x := by
    intro x hx
    rw [Heap.linkNext, hmem, if_neg (by omega)]
    by_cases hxp : h.linkPrev b ≠ 0 ∧ x = h.linkPrev b
    · rw [if_pos hxp, if_pos (by omega)]
    · rw [if_neg hxp, if_neg (by omega)]
      rfl
  have hprev : ∀ x, x % 16 = 0 → (freelistRemove h b).linkPrev x
      = if h.linkNext b ≠ 0 ∧ x = h.linkNext b then h.linkPrev b else h.linkPrev x := by
    intro x hx
    rw [Heap.linkPrev, hmem]
    by_cases hxn : h.linkNext b ≠ 0 ∧ x = h.linkNext b
    · rw [if_pos hxn, if_pos (by omega)]
    · rw [if_neg hxn, if_neg (by omega), if_neg (by omega)]
      rfl
  have herase : (pre ++ b :: post).erase b = pre ++ post := by
    rw [erase_append_right _ hbpre, erase_cons_head]
  obtain ⟨hblocks, hslBit, hflBit⟩ := removed_ctl hL hls herase (ht ▸ hmap) hother
  refine ⟨fun a u hS => hL.listable a u hS.1, fun a u v hu hv => hL.unique a u v hu.1 hv.1,
    fun fl sl => ?_, fun fl sl => (hL.nodup fl sl).erase b, fun fl sl a => ?_, hslBit, hflBit⟩
  · rw [hblocks, removed]
    by_cases hbucket : (fl, sl) = (fl₀, sl₀)
    · obtain ⟨rfl, rfl⟩ := Prod.mk.inj hbucket
      rw [hls, herase]
      simp only [true_and]
      have hmem' : ∀ x ∈ pre ++ post, x % 16 = 0 ∧ x ≠ 0 := fun x hx => by
        refine hok x ?_
        rcases mem_append.mp hx with hx | hx
        · exact mem_append_left _ hx
        · exact mem_append_right _ (mem_cons_of_mem _ hx)
      refine hchain.remove hnd (fun h0 => (hok 0 h0).2 rfl) (fun x hx => ?_) fun x hx => ?_
      · rw [hnext x (hmem' x hx).1]
        refine if_congr ⟨fun hand => ⟨?_, hand.2⟩, fun hand => ⟨?_, hand.2⟩⟩ rfl rfl
        · rcases hp with ⟨h0, -⟩ | hpm
          · exact absurd h0 hand.1
          · rw [hand.2]
            exact hpm
        · rw [← hand.2]
          exact (hmem' x hx).2
      · rw [hprev x (hmem' x hx).1]
        refine if_congr ⟨fun hand => hand.2, fun heq => ⟨?_, heq⟩⟩ rfl rfl
        rw [← heq]
        exact (hmem' x hx).2
    · rw [hother fl sl hbucket, if_neg fun hand => hbucket hand.1]
      -- a neighbour of `b` is in the bucket of `b`
      have hnot : ∀ x ∈ ls fl sl, x ∉ ls fl₀ sl₀ := by
        intro x hx hx₀
        obtain ⟨u, hS, hu⟩ := (hL.mem fl sl x).mp hx
        exact hbucket (hu.symm.trans (hL.bucket hS hx₀))
      refine (hL.chain fl sl).congr (fun x hx => ?_) fun x hx => ?_
      · rw [hnext x (hL.listable_of_mem hx).1, if_neg]
        rintro ⟨h0, rfl⟩
        refine hnot _ hx (hls ▸ mem_append_left _ ?_)
        rcases hp with ⟨h1, -⟩ | hpm
        · exact absurd h1 h0
        · exact hpm
      · rw [hprev x (hL.listable_of_mem hx).1, if_neg]
        rintro ⟨h0, rfl⟩
        exact hnot _ hx (hls ▸ mem_append_right _ (mem_cons_of_mem _ (hn h0)))
  · rw [removed, (hL.nodup fl sl).mem_erase_iff, hL.mem fl sl a]
    constructor
    · rintro ⟨hne, u, hS, hu⟩
      exact ⟨u, ⟨hS, hne⟩, hu⟩
    · rintro ⟨u, ⟨hS, hne⟩, hu⟩
      exact ⟨hne, u, hS, hu⟩

/-! ### Frames -/

/-- A removal writes link words of listed blocks only. -/
theorem Lists.remove_mem (hb : S b t) {y : Nat} (hy : ∀ a u, S a u → y ≠ a + 16 ∧ y ≠ a + 24) :
    (freelistRemove h b).mem y = h.mem y := by
  generalize hmap : mapInsert t = m
  obtain ⟨fl, sl⟩ := m
  obtain ⟨pre, post, hls, -, hpb, hp, hn, hp16, -⟩ := hL.around hb hmap
  -- the neighbours of a listed block are listed
  have hlisted := fun a => (hL.mem fl sl a).mp
  rw [hls] at hlisted
  rw [freelistRemove_mem h b (hL.listable b t hb).aligned hp16 hpb, if_neg, if_neg]
  · rintro ⟨h0, heq⟩
    obtain ⟨u, hu, -⟩ := hlisted _ (mem_append_left _ (hp.resolve_left fun hp => h0 hp.1))
    exact (hy _ u hu).1 heq
  · rintro ⟨h0, heq⟩
    obtain ⟨u, hu, -⟩ := hlisted _ (mem_append_right _ (mem_cons_of_mem _ (hn h0)))
    exact (hy _ u hu).2 heq

/-- A push writes link words of the new block and of listed ones only. -/
theorem Lists.push_mem {y : Nat} (hb : y ≠ b + 16 ∧ y ≠ b + 24)
    (hy : ∀ a u, S a u → y ≠ a + 16 ∧ y ≠ a + 24) : (freelistPush h b).mem y = h.mem y := by
  rw [freelistPush_mem]
  rw [if_neg, if_neg hb.2, if_neg hb.1]
  rintro ⟨h0, heq⟩
  obtain ⟨u, hu, -⟩ := (hL.mem _ _ _).mp ((hL.chain _ _).head_mem h0)
  exact (hy _ u hu).2 heq

end

/-! ### Search -/

/-- The walk through one list finds the first block that is large
enough. -/
theorem findFit_spec {p head : Nat} {xs : List Nat} (total fuel : Nat)
    (hc : DList h.linkNext h.linkPrev 0 p xs head) (hnull : (0 : Nat) ∉ xs)
    (hfuel : xs.length < fuel) :
    ∃ fit, findFit fuel h total head = some fit ∧
      (fit = 0 ∧ (∀ x ∈ xs, blockTotal h x < total) ∨ fit ∈ xs ∧ total ≤ blockTotal h fit) := by
  induction xs generalizing p head fuel with
  | nil =>
    obtain ⟨fuel, rfl⟩ : ∃ f, fuel = f + 1 := ⟨fuel - 1, by omega⟩
    obtain rfl : head = 0 := hc
    exact ⟨0, rfl, .inl ⟨rfl, fun x hx => absurd hx not_mem_nil⟩⟩
  | cons a as ih =>
    obtain ⟨fuel, rfl⟩ : ∃ f, fuel = f + 1 := ⟨fuel - 1, by omega⟩
    obtain ⟨rfl, -, hrest⟩ := hc
    rw [mem_cons, not_or] at hnull
    rw [length_cons] at hfuel
    rw [findFit, if_neg fun h0 => hnull.1 h0.symm]
    by_cases hfit : blockTotal h head ≥ total
    · exact ⟨head, if_pos hfit, .inr ⟨mem_cons_self, hfit⟩⟩
    have hlen : as.length < fuel := by omega
    obtain ⟨fit, hrun, hspec⟩ := ih fuel hrest hnull.2 hlen
    refine ⟨fit, by rw [if_neg hfit]; exact hrun, ?_⟩
    rcases hspec with ⟨h0, hall⟩ | ⟨hmem, hle⟩
    · refine .inl ⟨h0, fun x hx => ?_⟩
      rcases mem_cons.mp hx with rfl | hx
      · omega
      · exact hall x hx
    · exact .inr ⟨mem_cons_of_mem _ hmem, hle⟩

section Take

variable {h : Heap} {S : Nat → Nat → Prop} {ls : Nat → Nat → List Nat} (hL : Lists h S ls)
  (htotal : ∀ a t, S a t → blockTotal h a = t) {total fl₀ sl₀ : Nat} (hreq : 16 ≤ total)
  (hmap : mapInsert total = (fl₀, sl₀))

include hL hreq hmap

/-- The head of a later bucket is large enough. -/
theorem Lists.head_later (hne : ls fl sl ≠ []) (hlater : fl₀ < fl ∨ fl₀ = fl ∧ sl₀ < sl) :
    h.blocks fl sl ≠ 0 ∧ ∃ t, S (h.blocks fl sl) t ∧ total ≤ t := by
  have hhead : h.blocks fl sl ≠ 0 := fun h0 =>
    hne (((hL.chain fl sl).head_eq_null_iff fun hmem => (hL.listable_of_mem hmem).2 rfl).mp h0)
  obtain ⟨t, hS, ht⟩ := (hL.mem fl sl _).mp ((hL.chain fl sl).head_mem hhead)
  refine ⟨hhead, t, hS, le_of_lt ?_⟩
  have hge := (hL.listable _ t hS).ge
  refine lt_of_mapInsert hreq (by omega) ?_
  rw [hmap, ht]
  exact hlater

/-- A row whose first bit belongs to a later bucket. -/
theorem Lists.takeRow_later {slMap : Nat} (hlt : slMap < 4294967296)
    (hbits : ∀ i, slMap.testBit i = true → ls fl i ≠ [] ∧ (fl₀ < fl ∨ fl₀ = fl ∧ sl₀ ≤ i))
    (hfirst : slMap ≠ 0 → ¬ (fl = fl₀ ∧ lowestBit slMap = sl₀)) :
    ∃ b, takeRow (fuel + 1) h fl fl₀ sl₀ total slMap = some b ∧
      (b = 0 ∧ slMap = 0 ∨ ∃ t, S b t ∧ total ≤ t) := by
  rw [takeRow]
  by_cases h0 : slMap = 0
  · exact ⟨0, if_pos h0, .inl ⟨rfl, h0⟩⟩
  have hfirst := hfirst h0
  obtain ⟨hne, hlater⟩ := hbits _ (lowestBit_spec h0 hlt).1
  rw [if_neg h0]
  simp only [if_neg hfirst]
  exact ⟨_, rfl, .inr (hL.head_later hreq hmap hne (by omega)).2⟩

include htotal

/-- One row of the search: it fails only if every block of the row is too
small. -/
theorem Lists.takeRow_spec (fl slMap : Nat) (hlt : slMap < 4294967296)
    (hbits : ∀ i, slMap.testBit i = true → ls fl i ≠ [] ∧ (fl₀ < fl ∨ fl₀ = fl ∧ sl₀ ≤ i))
    (hfuel : (ls fl₀ sl₀).length + 1 < fuel) :
    ∃ b, takeRow fuel h fl fl₀ sl₀ total slMap = some b ∧
      (b = 0 ∧ (∀ i, slMap.testBit i = true → ∀ x ∈ ls fl i, blockTotal h x < total) ∨
        ∃ t, S b t ∧ total ≤ t) := by
  obtain ⟨fuel, rfl⟩ : ∃ f, fuel = f + 2 := ⟨fuel - 2, by omega⟩
  by_cases hfirst : slMap ≠ 0 ∧ fl = fl₀ ∧ lowestBit slMap = sl₀
  · obtain ⟨h0, rfl, hsl⟩ := hfirst
    obtain ⟨fit, hfind, hfit⟩ := findFit_spec total (fuel + 1) (hL.chain fl sl₀)
      (fun hmem => (hL.listable_of_mem hmem).2 rfl) (by omega)
    have hsl32 := (lowestBit_spec h0 hlt).2
    rw [takeRow, if_neg h0]
    simp only [hsl, and_self, if_true, hfind, Option.bind_eq_bind, Option.bind_some]
    rcases hfit with ⟨rfl, hsmall⟩ | ⟨hmem, hle⟩
    · -- no block of the first bucket fits: the rest of the row is later
      have hclear := testBit_clear slMap (hsl ▸ hsl32)
      have hlt' := lt_of_le_of_lt (Nat.and_le_left (m := 0xffffffff - 1 <<< sl₀)) hlt
      refine (hL.takeRow_later hreq hmap hlt' (fun i hi => ?_) ?_).imp fun b =>
        And.imp_right (Or.imp_left (And.imp_right fun hrest i hi => ?_))
      · rw [hclear, Bool.and_eq_true] at hi
        exact hbits i hi.1
      · rintro hne ⟨-, heq⟩
        have hbit := (lowestBit_spec hne hlt').1
        rw [heq, hclear] at hbit
        simp at hbit
      · have hi32 := (hL.bucket_lt (hbits i hi).1).2
        have hi' := hclear i
        rw [hrest, Nat.zero_testBit, hi, decide_eq_true (by omega)] at hi'
        obtain rfl : sl₀ = i := by simpa using hi'
        exact hsmall
    · have hne : fit ≠ 0 := (hL.listable_of_mem hmem).2
      obtain ⟨t, hS, -⟩ := (hL.mem fl sl₀ fit).mp hmem
      refine ⟨fit, by rw [if_neg hne]; rfl, .inr ⟨t, hS, ?_⟩⟩
      rw [← htotal fit t hS]
      exact hle
  · refine (hL.takeRow_later hreq hmap hlt hbits fun h0 hand => hfirst ⟨h0, hand⟩).imp fun b =>
      And.imp_right (Or.imp_left (And.imp_right fun hrest i hi => ?_))
    rw [hrest, Nat.zero_testBit] at hi
    cases hi

/-- The search over the last `n` rows. -/
theorem Lists.takeLoop_spec (hfuel : (ls fl₀ sl₀).length + 1 < fuel) (n : Nat) (hn : n ≤ 32 - fl₀) :
    ∃ b, takeLoop fuel h fl₀ sl₀ total n = some b ∧
      (b = 0 ∧ (∀ fl sl, 32 ≤ fl + n → (fl₀ = fl → sl₀ ≤ sl) →
        ∀ x ∈ ls fl sl, blockTotal h x < total) ∨
        ∃ t, S b t ∧ total ≤ t) := by
  induction n with
  | zero =>
    refine ⟨0, rfl, .inl ⟨rfl, fun fl sl hge _ x hx => ?_⟩⟩
    have := (hL.bucket_lt (ne_nil_of_mem hx)).1
    omega
  | succ n ih =>
    have hfl : fl₀ ≤ heapFlCount - (n + 1) := by rw [heapFlCount]; omega
    -- in the first row only the buckets from `sl₀` on are looked at
    obtain ⟨b, hrow, hb⟩ := hL.takeRow_spec htotal hreq hmap (heapFlCount - (n + 1))
      (h.slBitmap (heapFlCount - (n + 1)) &&&
        (0xffffffff <<< if heapFlCount - (n + 1) = fl₀ then sl₀ else 0) % 0x100000000)
      (lt_of_le_of_lt Nat.and_le_right (Nat.mod_lt _ (by decide)))
      (fun i hi => by
        obtain ⟨hbit, hlow, -⟩ := testBit_high.mp hi
        refine ⟨(hL.slBit _ i).mp hbit, ?_⟩
        by_cases heq : heapFlCount - (n + 1) = fl₀
        · rw [if_pos heq] at hlow
          exact .inr ⟨heq.symm, hlow⟩
        · exact .inl (by omega))
      hfuel
    simp only [takeLoop, hrow, Option.bind_eq_bind, Option.bind_some]
    rcases hb with ⟨rfl, hsmall⟩ | ⟨t, hS, hle⟩
    · obtain ⟨b, hrun, hb⟩ := ih (by omega)
      refine ⟨b, hrun, hb.imp_left fun ⟨hb0, hrest⟩ => ⟨hb0, fun fl sl hge hsl x hx => ?_⟩⟩
      by_cases heq : fl = heapFlCount - (n + 1)
      · -- the row just searched
        have hne := ne_nil_of_mem hx
        have hsl32 := (hL.bucket_lt hne).2
        refine hsmall sl (testBit_high.mpr ⟨(hL.slBit _ sl).mpr (heq ▸ hne), ?_, by omega⟩) x
          (heq ▸ hx)
        split
        · exact hsl (by omega)
        · exact Nat.zero_le _
      · rw [heapFlCount] at heq
        exact hrest fl sl (by omega) hsl x hx
    · rw [if_neg (hL.listable b t hS).ne_zero]
      exact ⟨b, rfl, .inr ⟨t, hS, hle⟩⟩

end Take

end CoreZ.Proofs.Mm.Kheap
