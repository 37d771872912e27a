import CoreZ.Proofs.Mm.Kheap.Blocks

/-!
# `CoreZ.Proofs.Mm.Kheap.Calls`: the calls of the interface

Each call of the heap keeps `HeapInv` for a new layout, and its
statement says what happens to the used blocks: an allocation adds one
(`Allocated`), `kfree` removes one, `krealloc` replaces one
(`Reallocated`). None of them runs out of fuel or fails an `ASSERT` on a
used block.

`kmalloc_aligned` takes a larger block and cuts it at the aligned address
(`alignBlock_spec`). `krealloc` stays where it is and trims the block, takes
the free block behind it (`takeNext_inv`), or copies the payload to a new one
(`reallocMove_spec`).
-/

set_option autoImplicit false

namespace CoreZ.Proofs.Mm.Kheap

open CoreZ.Lib.Tiling
open CoreZ.Mm.Kheap
open Function
open Option (bind_eq_bind bind_some)

/-! ### Payload words -/

variable {h h' : Heap} {r : Heap × Nat} {L : Layout} {b n size t : Nat} {pl : Place}

/-- The invariant does not depend on the payloads of used blocks. -/
theorem HeapInv.congr (hI : HeapInv h L) (hctl : SameCtl h h')
    (hmem : ∀ y, (∀ b t, usedOf L b t → y < b + 16 ∨ b + t ≤ y) → h'.mem y = h.mem y) :
    HeapInv h' L := by
  have hwf := hI.good.shape.wf
  refine ⟨⟨hI.good.shape, hctl.areas.trans hI.good.areas, hI.good.tiles.congr fun x hx => ?_, ?_,
    hI.good.sub⟩, hI.coalesced⟩
  · have hhead : ∀ y, x ≤ y → y < x + 16 → h'.mem y = h.mem y := fun y h1 h2 => by
      refine hmem y fun b t hb => ?_
      have := isHead_apart hwf hx hb
      simp only at this
      omega
    exact ⟨hhead _ (by omega) (by omega), hhead _ (by omega) (by omega)⟩
  · obtain ⟨ls, hL⟩ := hI.good.free
    refine ⟨ls, hL.congr hctl.blocks hctl.slBitmap hctl.flBitmap fun a t ha => ?_⟩
    have h32 := (hL.listable a t ha).ge
    have hlink : ∀ y, a ≤ y → y < a + t → h'.mem y = h.mem y := fun y h1 h2 => by
      refine hmem y fun b u hb => ?_
      rcases blocks_apart hwf (hI.good.sub a t ha) hb with ⟨-, heq⟩ | hlt | hlt
      · cases heq
      · simp only at hlt
        omega
      · simp only at hlt
        omega
    exact ⟨hlink _ (by omega) (by omega), hlink _ (by omega) (by omega)⟩

/-- The statistics are no part of the invariant. -/
theorem HeapInv.stats (hI : HeapInv h L) (hctl : SameCtl h h') (hmem : h'.mem = h.mem) :
    HeapInv h' L :=
  hI.congr hctl fun y _ => by rw [hmem]

section

variable (hI : HeapInv h L) (hb : usedOf L b t) (hw : WritesIn h h' (b + 16) (t - 16))

include hI hb hw

/-- Writes into the payload of one used block. -/
theorem HeapInv.payload : HeapInv h' L := by
  refine hI.congr hw.ctl fun y hy => hw.mem y ?_
  have := hy b t hb
  omega

/-- A write to one payload keeps the others. -/
theorem HeapInv.payload_kept : Kept (fun a v => usedOf L a v ∧ a ≠ b) h h' := by
  intro a v ha y h1 h2
  refine hw.mem y ?_
  rcases blocks_apart hI.good.shape.wf ha.1 hb with ⟨heq, -⟩ | hlt | hlt
  · exact absurd heq ha.2
  · simp only at hlt
    omega
  · simp only at hlt
    omega

end

/-! ### Allocation -/

/-- The used blocks and their payloads are the same. -/
def SameUsed (h : Heap) (L : Layout) (h' : Heap) : Prop :=
  ∃ L', HeapInv h' L' ∧ (∀ a v, usedOf L' a v ↔ usedOf L a v) ∧ Kept (usedOf L) h h'

theorem SameUsed.refl (hI : HeapInv h L) : SameUsed h L h := Leaves.refl hI

/-- A new area is one free block. -/
theorem SameUsed.grow (hS : SameUsed h L h') (need : Nat) (grant : Option Nat) :
    SameUsed h L (kheapGrow h' need grant).1 := by
  obtain ⟨L₁, hI₁, h₁, hK₁⟩ := hS
  exact ((kheapGrow_inv hI₁).congr h₁).after hK₁

/-- A larger block serves as well. -/
theorem Allocated.mono {m : Nat} (hA : Allocated h L n r) (hle : m ≤ n) : Allocated h L m r := by
  obtain ⟨L', hI, hK, hnull | ⟨b, u, hr, hb, hnew, hn, hused⟩⟩ := hA
  · exact ⟨L', hI, hK, .inl hnull⟩
  · exact ⟨L', hI, hK, .inr ⟨b, u, hr, hb, hnew, le_trans (by omega) hn, hused⟩⟩

/-- An allocation after the heap has grown. -/
theorem SameUsed.allocated (hS : SameUsed h L h') (hA : ∀ L', HeapInv h' L' → Allocated h' L' n r) :
    Allocated h L n r := by
  obtain ⟨L', hI', hiff, hK⟩ := hS
  obtain ⟨L₁, hI, hK₁, hr⟩ := hA L' hI'
  simp only [hiff] at hr
  exact ⟨L₁, hI, hK.trans (hK₁.mono fun a v => (hiff a v).mpr), hr⟩

/-- A request that fails leaves the used blocks. -/
theorem SameUsed.null (hS : SameUsed h L h') (n : Nat) : Allocated h L n (h', 0) := by
  obtain ⟨L', hI', hiff, hK⟩ := hS
  exact ⟨L', hI', hK, .inl ⟨rfl, hiff⟩⟩

/-- The counters change behind an allocation. -/
theorem Allocated.stats (hA : Allocated h L n r) (hctl : SameCtl r.1 h') (hmem : h'.mem = r.1.mem) :
    Allocated h L n (h', r.2) := by
  obtain ⟨L', hI, hK, hr⟩ := hA
  exact ⟨L', hI.stats hctl hmem, hK.of_mem_eq hmem, hr⟩

theorem statsPeak_eq (h : Heap) : statsPeak h =
    { h with peakBytes := (statsPeak h).peakBytes } := by
  rw [statsPeak]
  split <;> rfl

/-- The statistics are not part of the layout. -/
theorem statsGain_eq (h : Heap) (b : Nat) : statsGain h b = { h with
    usedBytes := (statsGain h b).usedBytes, peakBytes := (statsGain h b).peakBytes,
    allocCount := (statsGain h b).allocCount } := by
  rw [statsGain, statsPeak_eq]

/-- The end of an allocating call. -/
theorem Allocated.gain {h : Heap} {L : Layout} {n : Nat} {r : Heap × Nat} (hA : Allocated h L n r) :
    ∃ r', (if r.2 ≠ 0 then some (statsGain r.1 (blockFrom r.2), r.2) else some (r.1, r.2)) =
      some r' ∧
      Allocated h L n r' ∧ r'.2 = r.2 := by
  split
  · refine ⟨_, rfl, hA.stats ?_ ?_, rfl⟩
    · rw [statsGain_eq]
      exact ⟨rfl, rfl, rfl, rfl⟩
    · rw [statsGain_eq]
  · exact ⟨_, rfl, hA, rfl⟩

/-- Payloads are aligned. -/
theorem Allocated.aligned (hA : Allocated h L n r) : r.2 % heapAlign = 0 := by
  obtain ⟨L', hI', -, ⟨hnull, -⟩ | ⟨b, u, hb, -, -, -, hused⟩⟩ := hA
  · rw [hnull, Nat.zero_mod]
  · have hblock : usedOf L' b u := (hused b u).mpr (.inr ⟨rfl, rfl⟩)
    have := (hI'.good.shape.block hblock).1
    rw [hb, heapAlign]
    omega

section Alloc

variable {h : Heap} {L : Layout} (hI : HeapInv h L) {fuel : Nat} (hfuel : heapFuel < fuel)

include hI hfuel

/-- After a `kheap_grow` for the payload there is a block for it. -/
theorem blockAcquire_grown {payload : Nat} {grant : Option Nat}
    (hp : payload % 16 = 0 ∧ 16 ≤ payload)
    (hmax : payload ≤ heapMaxBytes) (hgrown : (kheapGrow h payload grant).2 = true) :
    ∃ r, blockAcquire fuel (kheapGrow h payload grant).1 payload = some r ∧ r.2 ≠ 0 := by
  rcases kheapGrow_cases hI payload grant with heq | ⟨k, mem, t, heq, hroom, hk, -⟩
  · rw [heq] at hgrown
    cases hgrown
  rw [heq]
  obtain ⟨r, hr, -, hnull⟩ := blockAcquire_spec (blockRelease_alone hk) hp hfuel
  refine ⟨r, hr, fun h0 => ?_⟩
  have hlt := (hnull h0).2 mem t (mem_fill_singleton.mpr (.inr rfl))
  have := hroom hmax
  rw [heapHdr] at hlt
  omega

section

variable (hsize : size + 16 ≤ 2 ^ 64)

include hsize

/-- `heap_alloc` of a size that does not wrap when rounded up: it fails
only if no free block fits and the heap cannot grow. -/
theorem heapAlloc_spec (g : Grants) :
    ∃ r, heapAlloc fuel h size g = some r ∧ Allocated h L size r ∧
      (r.2 = 0 → size < heapMaxBytes → size = 0 ∨
        (∀ a t, freeOf L a t → t < alignUp size heapAlign + heapHdr) ∧
          (kheapGrow h (alignUp size heapAlign) g.first).2 = false) := by
  rw [heapAlloc, alignUp_heapAlign hsize]
  generalize hp : (size + 15) / 16 * 16 = payload
  have hsame := SameUsed.refl hI
  by_cases hno : size = 0 ∨ payload ≥ heapMaxBytes
  · rw [if_pos hno]
    refine ⟨_, rfl, hsame.null size, fun _ hlt => hno.imp_right fun hge => ⟨fun a t ha => ?_, ?_⟩⟩
    · have := hI.free_lt ha
      rw [heapMaxBytes] at hge
      omega
    · -- the largest area is too small
      rcases kheapGrow_cases hI payload g.first with heq | ⟨k, mem, t, heq, hroom, hk, -⟩
      · rw [heq]
      · have := (blockRelease_alone hk).free_lt (mem_fill_singleton.mpr (.inr rfl))
        rw [heapMaxBytes] at *
        omega
  rw [if_neg hno]
  have hpay : payload % 16 = 0 ∧ 16 ≤ payload := by omega
  have hle : size ≤ payload := by omega
  obtain ⟨r₁, hr₁, hA₁, hnull⟩ := blockAcquire_spec hI hpay hfuel
  simp only [hr₁, bind_eq_bind, bind_some]
  by_cases h1 : r₁.2 ≠ 0
  · exact ⟨_, if_pos h1, hA₁.mono hle, fun h0 => absurd h0 h1⟩
  rw [if_neg h1]
  obtain ⟨hr, hsmall⟩ := hnull (not_not.mp h1)
  rw [hr]
  have hg := hsame.grow payload g.first
  by_cases hgrown : ¬ (kheapGrow h payload g.first).2 = true
  · exact ⟨_, if_pos hgrown, hg.null size, fun _ _ => .inr ⟨hsmall, by simpa using hgrown⟩⟩
  rw [if_neg hgrown]
  obtain ⟨r₂, hr₂, h2⟩ := blockAcquire_grown hI hfuel hpay (by omega) (not_not.mp hgrown)
  simp only [hr₂, bind_some]
  refine ⟨_, if_pos h2, hg.allocated fun L' hI' => ?_, fun h0 => absurd h0 h2⟩
  obtain ⟨r, hr, hA, -⟩ := blockAcquire_spec hI' hpay hfuel
  rw [hr₂] at hr
  cases hr
  exact hA.mono hle

/-- `kmalloc` gives a new block, or null. -/
theorem kmalloc_spec (g : Grants) : ∃ r, kmalloc fuel h size g = some r ∧ Allocated h L size r := by
  obtain ⟨r, hr, hA, -⟩ := heapAlloc_spec hI hfuel hsize g
  rw [kmalloc]
  simp only [hr, bind_eq_bind, bind_some]
  obtain ⟨r', hr', hA', -⟩ := hA.gain
  exact ⟨r', hr', hA'⟩

theorem kzalloc_spec (g : Grants) : ∃ r, kzalloc fuel h size g = some r ∧ Allocated h L size r := by
  obtain ⟨r, hr, hA⟩ := kmalloc_spec hI hfuel hsize g
  rw [kzalloc]
  simp only [hr, bind_eq_bind, bind_some]
  by_cases hp : r.2 ≠ 0
  · rw [if_pos hp]
    refine ⟨_, rfl, ?_⟩
    obtain ⟨L', hI', hK, ⟨hnull, -⟩ | ⟨b, u, hb, hne, hnew, hn, hused⟩⟩ := hA
    · exact absurd hnull hp
    · -- the bytes set are in the new payload
      have hblock : usedOf L' b u := (hused b u).mpr (.inr ⟨rfl, rfl⟩)
      have hal := (hI'.good.shape.block hblock).1
      have hset : WritesIn r.1 (memset r.1 (b + 16) 0 size) (b + 16) (u - 16) :=
        writesIn_foldl (by omega) _ (by omega)
      rw [hb]
      refine ⟨L', hI'.payload hblock hset,
        hK.trans ((hI'.payload_kept hblock hset).mono fun a v hv => ?_),
        .inr ⟨b, u, rfl, hne, hnew, hn, hused⟩⟩
      exact ⟨(hused a v).mpr (.inl hv), fun heq => hnew v (heq ▸ hv)⟩
  · rw [if_neg hp]
    exact ⟨_, rfl, hA⟩

end

/-- `kcalloc`: the product does not wrap when it is used. -/
theorem kcalloc_spec (nmemb size : Nat) (g : Grants) :
    ∃ r, kcalloc fuel h nmemb size g = some r ∧ Allocated h L (nmemb * size) r := by
  rw [kcalloc]
  by_cases hno : nmemb ≠ 0 ∧ size > heapMaxBytes / nmemb
  · rw [if_pos hno]
    exact ⟨_, rfl, (SameUsed.refl hI).null _⟩
  rw [if_neg hno]
  have hle : nmemb * size ≤ heapMaxBytes := by
    by_cases h0 : nmemb = 0
    · simp [h0]
    have hdiv : size ≤ heapMaxBytes / nmemb := not_lt.mp fun hlt => hno ⟨h0, hlt⟩
    rw [mul_comm]
    exact (Nat.le_div_iff_mul_le (Nat.pos_of_ne_zero h0)).mp hdiv
  rw [heapMaxBytes] at hle
  rw [Nat.mod_eq_of_lt (by omega)]
  exact kzalloc_spec hI hfuel (by omega) g

end Alloc

/-! ### Aligned allocation -/

/-- The gap before an aligned payload leaves room for a block. -/
theorem alignGap_spec {p k : Nat} (hp : p % 16 = 0) (hk : 5 ≤ k)
    (hlt : p + 2 ^ k + 32 ≤ 2 ^ 64) :
    ∃ a gap, (if sub64 (alignUp p (2 ^ k)) p ≠ 0 ∧ sub64 (alignUp p (2 ^ k)) p < heapMinBlock
        then ((alignUp p (2 ^ k) + 2 ^ k) % 0x10000000000000000,
          (sub64 (alignUp p (2 ^ k)) p + 2 ^ k) % 0x10000000000000000)
        else (alignUp p (2 ^ k), sub64 (alignUp p (2 ^ k)) p)) = (a, gap) ∧
      a = p + gap ∧ a % 2 ^ k = 0 ∧ gap % 16 = 0 ∧ (gap = 0 ∨ 32 ≤ gap) ∧ gap ≤ 2 ^ k + 16 := by
  have hk64 : k ≤ 64 := by
    by_contra hgt
    have := Nat.pow_le_pow_right (n := 2) (by decide) (show 65 ≤ k by omega)
    omega
  have hdvd : 32 ∣ 2 ^ k := Nat.pow_dvd_pow 2 hk
  have hpos := Nat.two_pow_pos k
  rw [alignUp_eq (by omega) hk64]
  generalize 2 ^ k = al at *
  -- the first aligned address at or after the payload
  have hdown := Nat.div_mul_le_self (p + al - 1) al
  have hup := Nat.lt_div_mul_add (a := p + al - 1) hpos
  have hmod : (p + al - 1) / al * al % al = 0 := Nat.mul_mod_left ..
  have h32 : 32 ∣ (p + al - 1) / al * al := Dvd.dvd.mul_left hdvd _
  rw [sub64_eq (by omega) (by omega)]
  split
  · next hsmall =>
      rw [heapMinBlock, heapHdr] at hsmall
      rw [Nat.mod_eq_of_lt (by omega), Nat.mod_eq_of_lt (by omega)]
      refine ⟨_, _, rfl, by omega, ?_, by omega, by omega, by omega⟩
      rw [Nat.add_mod_right]
      exact hmod
  · next hbig =>
      rw [heapMinBlock, heapHdr] at hbig
      exact ⟨_, _, rfl, by omega, hmod, by omega, by omega, by omega⟩

section Align

variable {h : Heap} {pl : Place} {u : Nat}

/-- The writes of `kmalloc_aligned` that cut the block `b` after `gap`
bytes. -/
def alignCut (h : Heap) (b gap : Nat) : Heap :=
  let h := (h.setSize (b + gap) (blockTotal h b - gap)).setPrev (b + gap) b
  let h := h.setPrev (blockNext h (b + gap)) (b + gap)
  h.setSize b (gap ||| (h.size b &&& heapPrevFree))

/-- The cut makes two blocks of one. -/
theorem alignCut_inv {gap : Nat} (hI : HeapInv h (pl.fill [⟨u, false⟩]))
    (hgap : gap % 16 = 0 ∧ 32 ≤ gap) (hle : gap + 32 ≤ u) :
    HeapInv (alignCut h pl.addr gap) (pl.fill [⟨gap, false⟩, ⟨u - gap, false⟩]) ∧
      Kept (outerUsed pl u) h (alignCut h pl.addr gap) := by
  obtain ⟨-, -, htot, -, -⟩ := hI.good.head
  obtain ⟨hval, hlt⟩ := hI.good.tile
  obtain ⟨r, rfl⟩ : ∃ r, u = gap + r := ⟨u - gap, by omega⟩
  obtain ⟨c, hc⟩ : ∃ c, c = pl.addr + gap := ⟨_, rfl⟩
  have hnext : blockNext ((h.setSize c r).setPrev c pl.addr) c = c + r := by
    refine blockNext_of_size ?_ (by omega) (by omega)
    simp [Heap.size, Heap.setPrev, Heap.setSize, Heap.setWord]
  have hb : (((h.setSize c r).setPrev c pl.addr).setPrev (c + r) c).size pl.addr
      = h.size pl.addr := by
    simp only [Heap.size, Heap.setPrev, Heap.setSize, Heap.setWord]
    rw [update_of_ne (by omega), update_of_ne (by omega), update_of_ne (by omega)]
  have hflag := hI.good.size_or hgap.1
  simp only [alignCut, htot, Nat.add_sub_cancel_left, ← hc, hnext, hb, hflag]
  have hsplit := hI.split (k := (((h.setSize c r).setPrev c pl.addr).setPrev (c + r) c).setSize
    pl.addr (enc gap false (prevFree pl.pre))) hgap (by omega) (fun y => by
      simp only [Heap.setPrev, Heap.setSize, Heap.setWord, update_apply, hc]
      split_ifs <;> first | rfl | omega) ⟨rfl, rfl, rfl, rfl⟩
  exact ⟨hsplit.1, hsplit.2.mono fun a v hv => Place.mem_outer_withPre.mpr (.inl hv)⟩

end Align

/-- The used blocks around a used block. -/
theorem HeapInv.used_outer (hI : HeapInv h (pl.fill [⟨t, false⟩])) (a v : Nat) :
    outerUsed pl t a v ↔ usedOf (pl.fill [⟨t, false⟩]) a v ∧ a ≠ pl.addr := by
  rw [usedOf_fill_used]
  constructor
  · exact fun hout => ⟨.inl hout, hI.good.outer_ne hout⟩
  · rintro ⟨hout | ⟨heq, -⟩, hne⟩
    · exact hout
    · exact absurd heq hne

/-- `kmalloc_aligned` from the allocated block on. -/
theorem alignBlock_spec {u k : Nat} (hI : HeapInv h L) (hb : usedOf L b u) (hsize : 0 < size)
    (hk : 5 ≤ k) (hu : size + 2 ^ k + 48 ≤ u) :
    ∃ L' c w, HeapInv (alignBlock h (b + 16) size (2 ^ k)).1 L' ∧
      (alignBlock h (b + 16) size (2 ^ k)).2 = c + 16 ∧ (c + 16) % 2 ^ k = 0 ∧ b ≤ c ∧ c < b + u ∧
      size + 16 ≤ w ∧ (∀ a v, usedOf L' a v ↔ (usedOf L a v ∧ a ≠ b) ∨ a = c ∧ v = w) ∧
      Kept (fun a v => usedOf L a v ∧ a ≠ b) h (alignBlock h (b + 16) size (2 ^ k)).1 := by
  have hblock := hI.good.shape.block hb
  simp only at hblock
  obtain ⟨a, gap, hpair, rfl, hmod, hgap, hmin, hmax⟩ := alignGap_spec (p := b + 16) (by omega) hk
    (by omega)
  have hneed : alignUp size heapAlign = (size + 15) / 16 * 16 := alignUp_heapAlign (by omega)
  rw [alignBlock]
  simp only [hpair, hneed, blockFrom, heapHdr, Nat.add_sub_cancel]
  obtain ⟨pl, rfl, rfl⟩ := exists_place hb
  by_cases h0 : gap = 0
  · -- the payload is aligned already
    subst h0
    obtain ⟨L', w, hI', hused, hw, hK⟩ := blockTrimUsed_inv ((size + 15) / 16 * 16) hI (by omega)
    refine ⟨L', pl.addr, w, hI', rfl, hmod, le_rfl, by omega, ?_, fun x v => ?_,
      hK.mono fun x v hv => (hused x v).mpr (.inl ((hI.used_outer x v).mpr hv))⟩
    · omega
    · rw [hused, hI.used_outer]
  · simp only [ne_eq, h0, not_false_iff, if_true]
    have htot : blockTotal h pl.addr = u := hI.good.head.2.2.1
    rw [sub64_eq (by omega) (by omega), sub64_eq (x := blockTotal h pl.addr) (by omega) (by omega),
      show pl.addr + 16 + gap - 16 = pl.addr + gap by omega]
    obtain ⟨hcut, hK₀⟩ := alignCut_inv hI ⟨hgap, by omega⟩ (by omega)
    have hpost : pl.fill [⟨gap, false⟩, ⟨u - gap, false⟩]
        = (pl.withPost ⟨u - gap, false⟩).fill [⟨gap, false⟩] :=
      (Place.fill_withPost pl ⟨u - gap, false⟩ [⟨gap, false⟩]).symm
    rw [hpost] at hcut
    obtain ⟨L₁, hI₁, hused₁, hK₁⟩ := blockRelease_inv hcut
    have hc : usedOf L₁ (pl.addr + gap) (u - gap) := by
      rw [hused₁, outerUsed, Place.mem_outer_withPost]
      exact .inr rfl
    obtain ⟨pl₂, hL₁, haddr⟩ := exists_place hc
    rw [hL₁] at hI₁
    obtain ⟨L', w, hI', hused, hw, hK₂⟩ := blockTrimUsed_inv ((size + 15) / 16 * 16) hI₁ (by omega)
    rw [haddr] at hI' hused hK₂
    -- a block around the cut is around both of its parts
    have hne : ∀ x v, outerUsed pl u x v → x ≠ pl.addr + gap := by
      intro x v hout
      have hap := Place.outer_apart hI.good.shape.wf
        (show outerUsed pl (span [⟨u, false⟩]) x v by simpa using hout)
      simp only [span_cons, span_nil] at hap
      omega
    have hmid : ∀ x v, outerUsed pl u x v → outerUsed (pl.withPost ⟨u - gap, false⟩) gap x v := by
      intro x v hout
      rw [outerUsed, Place.mem_outer_withPost, show gap + (u - gap) = u by omega]
      exact .inl hout
    have hlast : ∀ x v, outerUsed pl u x v → usedOf L' x v := by
      intro x v hout
      rw [hused, hI₁.used_outer, ← hL₁, hused₁, haddr]
      exact .inl ⟨hmid x v hout, hne x v hout⟩
    have hkept := (hK₀.trans (hK₁.mono hmid)).trans (hK₂.mono hlast)
    refine ⟨L', pl.addr + gap, w, hI', by omega, ?_, by omega, by omega, ?_, fun x v => ?_,
      hkept.mono fun x v hv => (hI.used_outer x v).mpr hv⟩
    · rw [show pl.addr + gap + 16 = pl.addr + 16 + gap by omega]
      exact hmod
    · omega
    · rw [hused, hI₁.used_outer, ← hL₁, hused₁, outerUsed, Place.mem_outer_withPost,
        ← hI.used_outer, haddr, show gap + (u - gap) = u by omega]
      constructor
      · rintro (⟨hout | heq, hx⟩ | hnew)
        · exact .inl hout
        · exact absurd (Prod.mk.inj heq).1 hx
        · exact .inr hnew
      · rintro (hout | hnew)
        · exact .inl ⟨.inl hout, hne x v hout⟩
        · exact .inr hnew

/-- The power of two in an alignment that `kmalloc_aligned` accepts. -/
theorem exists_align {align : Nat} (hlt : align < 2 ^ 64) (hge : ¬ align < heapAlign)
    (hne : align ≠ heapAlign) (hpow : align &&& (align - 1) = 0) :
    ∃ k, align = 2 ^ k ∧ 5 ≤ k ∧ align ≤ 9223372036854775808 := by
  rw [heapAlign] at hge hne
  obtain ⟨k, rfl⟩ := (Nat.and_sub_one_eq_zero_iff_isPowerOfTwo (by omega)).mp hpow
  refine ⟨k, rfl, ?_, ?_⟩
  · by_contra hk
    have := Nat.pow_le_pow_right (n := 2) (by decide) (show k ≤ 4 by omega)
    omega
  · have hk : k < 64 := by
      by_contra hk
      have := Nat.pow_le_pow_right (n := 2) (by decide) (show 64 ≤ k by omega)
      omega
    exact Nat.pow_le_pow_right (j := 63) (by decide) (by omega)

/-- `kmalloc_aligned` of a size that does not wrap with the alignment. -/
theorem kmallocAligned_spec {h : Heap} {L : Layout} (hI : HeapInv h L) {fuel : Nat}
    (hfuel : heapFuel < fuel) {size align : Nat} (hsize : size + 16 ≤ 2 ^ 64)
    (hlt : align < 2 ^ 64)
    (hsum : heapAlign < align → align &&& (align - 1) = 0 → size + align + 48 ≤ 2 ^ 64)
    (g : Grants) :
    ∃ r, kmallocAligned fuel h size align g = some r ∧ Allocated h L size r ∧
      r.2 % (if align < heapAlign then heapAlign else align) = 0 := by
  rw [kmallocAligned]
  by_cases h0 : size = 0
  · rw [if_pos h0]
    exact ⟨_, rfl, (SameUsed.refl hI).null _, Nat.zero_mod _⟩
  rw [if_neg h0]
  by_cases hsmall : align ≤ heapAlign
  · -- the alignment of every payload
    have hal : (if align < heapAlign then heapAlign else align) = heapAlign := by
      split <;> omega
    obtain ⟨r, hr, hA, -⟩ := heapAlloc_spec hI hfuel hsize g
    rw [hal, if_neg (by decide)]
    simp only [if_true, hr, bind_eq_bind, bind_some]
    obtain ⟨r', hr', hA', -⟩ := hA.gain
    exact ⟨r', hr', hA', hA'.aligned⟩
  have hal : (if align < heapAlign then heapAlign else align) = align := if_neg (by omega)
  rw [hal]
  by_cases hpow : align &&& (align - 1) ≠ 0
  · rw [if_pos hpow]
    exact ⟨_, rfl, (SameUsed.refl hI).null _, Nat.zero_mod _⟩
  rw [if_neg hpow]
  have hne : align ≠ heapAlign := by omega
  -- from here on a larger power of two: the block is cut at the aligned payload
  obtain ⟨k, rfl, hk, -⟩ := exists_align hlt (by omega) hne (not_not.mp hpow)
  obtain ⟨r, hr, hA, -⟩ := heapAlloc_spec hI hfuel (show size + 2 ^ k + 32 + 16 ≤ _ by omega) g
  have hmod : (size + 2 ^ k + 2 * heapHdr) % 0x10000000000000000 = size + 2 ^ k + 32 :=
    Nat.mod_eq_of_lt (by rw [heapHdr]; omega)
  simp only [if_neg hne, hmod, hr, bind_eq_bind, bind_some]
  obtain ⟨L₁, hI₁, hK₁, ⟨hnull, hused⟩ | ⟨b, u, hb, hb0, hnew, hn, hused⟩⟩ := hA
  · simp only [hnull]
    exact ⟨_, rfl, ⟨L₁, hI₁, hK₁, .inl ⟨rfl, hused⟩⟩, Nat.zero_mod _⟩
  · have hblock : usedOf L₁ b u := (hused b u).mpr (.inr ⟨rfl, rfl⟩)
    obtain ⟨L₂, c, w, hI₂, hc, hcmod, hbc, hcu, hw, hused₂, hK₂⟩ := alignBlock_spec hI₁ hblock
      (Nat.pos_of_ne_zero h0) hk (by omega)
    have hp : r.2 ≠ 0 := by omega
    rw [if_pos hp, hb]
    have hkept := hK₁.trans (hK₂.mono fun a v hv =>
      ⟨(hused a v).mpr (.inl hv), fun heq => hnew v (heq ▸ hv)⟩)
    have hA₂ : Allocated h L size (alignBlock r.1 (b + 16) size (2 ^ k)) := by
      refine ⟨L₂, hI₂, hkept, .inr ⟨c, w, hc, by omega, fun v hv => ?_, hw, fun a v => ?_⟩⟩
      · -- the aligned block lies in the block of the allocation
        have hv₁ : usedOf L₁ c v := (hused c v).mpr (.inl hv)
        have h32 := (hI₁.good.shape.block hv₁).2.2.2.1
        rcases blocks_apart hI₁.good.shape.wf hv₁ hblock with ⟨heq, -⟩ | hlt | hlt
        · rw [heq] at hv
          exact hnew v hv
        · omega
        · simp only at hlt
          omega
      · rw [hused₂, hused]
        constructor
        · rintro (⟨hold | ⟨heq, -⟩, hab⟩ | hc)
          · exact .inl hold
          · exact absurd heq hab
          · exact .inr hc
        · rintro (hold | hc)
          · exact .inl ⟨.inl hold, fun hab => hnew v (hab ▸ hold)⟩
          · exact .inr hc
    obtain ⟨r', hr', hA', heq⟩ := hA₂.gain
    exact ⟨r', hr', hA', by rw [heq, hc]; exact hcmod⟩

/-! ### Freeing -/

theorem blockFrom_add (b : Nat) : blockFrom (b + 16) = b := Nat.add_sub_cancel ..

section

variable (hI : HeapInv h L) (hb : usedOf L b t)

include hI hb

/-- `block_own` accepts the payload of a used block. -/
theorem blockOwn_of_used : blockOwn h (b + 16) b = true := by
  have hblock := hI.good.shape.block hb
  have htot := (hI.good.block hb).1
  have hmask : ∀ x, x % 16 = 0 → x &&& (heapAlign - 1) = 0 := fun x hx => by
    rw [show heapAlign - 1 = 2 ^ 4 - 1 by rfl, Nat.and_two_pow_sub_one_eq_mod]
    exact hx
  obtain ⟨A, hA, hplaced⟩ := mem_blocks.mp hb
  have hbnd := placed_bounds hplaced
  rw [blockOwn, if_neg (not_not.mpr (hmask _ (by omega)))]
  cases hfind : h.areas.find? fun m => decide (m.1 ≤ b ∧ b < m.1 + m.2) with
  | none =>
    rw [List.find?_eq_none, hI.good.areas] at hfind
    have := hfind _ (List.mem_map.mpr ⟨A, hA, rfl⟩)
    simp only [decide_eq_true_eq] at this
    omega
  | some m =>
    -- areas do not overlap, so the area found is the one of the block
    have hmem := List.mem_of_find?_eq_some hfind
    have hin := List.find?_some hfind
    rw [hI.good.areas] at hmem
    obtain ⟨B, hB, rfl⟩ := List.mem_map.mp hmem
    simp only [decide_eq_true_eq] at hin
    have hAB : A = B := by
      by_contra hne
      have : Std.Symm (Apart 16) := ⟨fun A B hAB => hAB.symm⟩
      have hap := hI.good.shape.wf.apart.forall hA hB hne
      rw [Apart] at hap
      omega
    subst hAB
    simp only [decide_eq_true_eq, blockNext, htot]
    refine ⟨hblock.2.2.2.1, hmask _ hblock.2.2.1, ?_⟩
    simp only at hbnd
    omega

/-- `block_release` of a used block of a layout. -/
theorem blockRelease_used :
    Leaves (fun a v => usedOf L a v ∧ a ≠ b) h (blockRelease h b) := by
  obtain ⟨pl, rfl, rfl⟩ := exists_place hb
  exact (blockRelease_inv hI).congr hI.used_outer

/-- `kfree` takes its block away, and leaves the others. -/
theorem kfree_spec :
    ∃ h', kfree h (b + 16) = some h' ∧ Leaves (fun a v => usedOf L a v ∧ a ≠ b) h h' := by
  have hown := blockOwn_of_used hI hb
  have hfree := (hI.good.block hb).2
  rw [kfree, if_neg (by omega)]
  simp only [blockFrom_add, hown, hfree, not_true, if_false, Bool.false_eq_true]
  have hstats : HeapInv { h with
      usedBytes := (h.usedBytes + 0x100000000 - blockTotal h b % 0x100000000) % 0x100000000
      allocCount := (h.allocCount + 0xffffffff) % 0x100000000 } L :=
    hI.stats ⟨rfl, rfl, rfl, rfl⟩ rfl
  exact ⟨_, rfl, (blockRelease_used hstats hb).after fun _ _ _ _ _ _ => rfl⟩

end

/-! ### Reallocation -/

/-- The first `n` bytes of the payload of the block `b`, as far as there
are so many, are copied to the payload of `c`. -/
def Copied (L : Layout) (b c n : Nat) (h h' : Heap) : Prop :=
  ∀ t, usedOf L b t → ∀ i, i + 16 < t → i < n → getByte h' (c + 16 + i) = getByte h (b + 16 + i)

/-- The result of a reallocation to `n` bytes of the used block `b` of
the layout `L`: the block is replaced by one with room for them and with
its contents, or nothing changes. The other payloads are kept. -/
def Reallocated (h : Heap) (L : Layout) (b n : Nat) (r : Heap × Nat) : Prop :=
  ∃ L', HeapInv r.1 L' ∧
    (r.2 = 0 ∧ (∀ a v, usedOf L' a v ↔ usedOf L a v) ∧ Kept (usedOf L) h r.1 ∨
      ∃ c u, r.2 = c + 16 ∧ c ≠ 0 ∧ (∀ v, usedOf L c v → c = b) ∧ n + 16 ≤ u ∧
        (∀ a v, usedOf L' a v ↔ (usedOf L a v ∧ a ≠ b) ∨ a = c ∧ v = u) ∧
        Kept (fun a v => usedOf L a v ∧ a ≠ b) h r.1 ∧ Copied L b c n h r.1)

/-- Bytes of payloads that are kept. -/
theorem Kept.getByte_eq {P : Nat → Nat → Prop} (hk : Kept P h h') {a u x : Nat} (ha : P a u)
    (hal : a % 16 = 0) (h1 : a + 16 ≤ x) (h2 : x < a + u) : getByte h' x = getByte h x :=
  getByte_congr (hk a u ha _ (by omega) (by omega))

/-- `krealloc`, the block behind is taken in: `grown` bytes in all. -/
def takeNext (h : Heap) (b n grown : Nat) : Heap :=
  let h := freelistRemove h n
  let h := h.setSize b (grown ||| (h.size b &&& heapPrevFree))
  let m := blockNext h b
  clearFlag (h.setPrev m b) m heapPrevFree

/-- The used block takes in the free block behind it. -/
theorem takeNext_inv (hI : HeapInv h ((pl.withPost ⟨n, true⟩).fill [⟨t, false⟩])) :
    HeapInv (takeNext h pl.addr (pl.addr + t) (t + n)) (pl.fill [⟨t + n, false⟩]) ∧
      Kept (usedOf ((pl.withPost ⟨n, true⟩).fill [⟨t, false⟩])) h
        (takeNext h pl.addr (pl.addr + t) (t + n)) := by
  have hlisted : freeOf ((pl.withPost ⟨n, true⟩).fill [⟨t, false⟩]) (pl.addr + t) n :=
    freeOf_fill_used.mpr (Place.mem_outer_withPost.mpr (.inr rfl))
  have hG := hI.good.remove hlisted
  have hK := hI.good.remove_kept hlisted
  rw [Place.fill_withPost, List.singleton_append] at hG
  rw [takeNext]
  generalize freelistRemove h (pl.addr + t) = h₁ at hG hK ⊢
  obtain ⟨hvalt, hvaln, hlt⟩ := hG.tiles_two
  have hS := hG.unlisted (S := freeOf ((pl.withPost ⟨n, true⟩).fill [⟨t, false⟩]))
    (by simp only [span_cons, span_nil]; omega)
    (fun a u => freeOf_fill_used.trans Place.mem_outer_withPost)
  have hsz := hG.size_or (s := t + n) (by omega)
  obtain ⟨m, hmeq⟩ : ∃ m, m = pl.addr + (t + n) := ⟨_, rfl⟩
  have hnext : blockNext (h₁.setSize pl.addr (enc (t + n) false (prevFree pl.pre))) pl.addr =
      m := by
    rw [blockNext, blockTotal_of_size (setSize_size ..) (by omega) (by omega), hmeq]
  -- the header behind both blocks
  have hm : Seg h₁.mem m (pl.addr + t) true pl.post := by
    rw [hmeq, ← add_assoc]
    exact hG.seg.2.2.2.2.2
  have hle := headTotal_le pl.post
  have hclear : ((h₁.setSize pl.addr (enc (t + n) false (prevFree pl.pre))).setPrev m
      pl.addr).size m &&& (0xffffffffffffffff - heapPrevFree) =
        enc (headTotal pl.post) (headFree pl.post) false := by
    rw [← enc_clear_prevFree (headTotal_mod hG.shape.post.2.2) _ true (by omega), ← hm.head_size]
    simp only [Heap.size, Heap.setPrev, Heap.setSize, Heap.setWord]
    rw [update_of_ne (by omega), update_of_ne (by omega)]
  simp only [hsz, hnext, clearFlag, hclear]
  have hsep := (separated_withPost (coalesced_fill.mp hI.coalesced)).1
  obtain ⟨hjoin, hK₁⟩ := hG.join
    (k := (((h₁.setSize pl.addr (enc (t + n) false (prevFree pl.pre))).setPrev m pl.addr).setSize m
      (enc (headTotal pl.post) (headFree pl.post) false)))
    (fun a u ha => (hS a u).mp ha) (fun y => by
      simp only [Heap.setPrev, Heap.setSize, Heap.setWord, update_apply, hmeq]
      split_ifs <;> first | rfl | omega) ⟨rfl, rfl, rfl, rfl⟩
  refine ⟨⟨hjoin.of_iff fun a u => (hS a u).trans freeOf_fill_used.symm, coalesced_fill.mpr hsep⟩,
    hK.trans fun a u ha y h1 h2 => ?_⟩
  rcases usedOf_fill_used.mp ha with hout | ⟨rfl, rfl⟩
  · rcases Place.mem_outer_withPost.mp hout with hout | heq
    · exact hK₁ a u hout y h1 h2
    · cases (Prod.mk.inj heq).2
  -- the writes are to headers, not to the payload of the block
  simp only [Place.addr_withPost] at h1 h2
  simp only [Heap.setPrev, Heap.setSize, Heap.setWord]
  rw [update_of_ne (by omega), update_of_ne (by omega), update_of_ne (by omega)]

/-- The block is trimmed where it is, perhaps after it has grown. -/
theorem Reallocated.trim {h₁ : Heap} {s : Nat} (hwf : WellFormed 16 L) (hb : usedOf L pl.addr s)
    (hst : s ≤ t) (hK : Kept (usedOf L) h h₁) (hI : HeapInv h₁ (pl.fill [⟨t, false⟩]))
    (hsize : 0 < size) (hle : (size + 15) / 16 * 16 + 16 ≤ t)
    (hused : ∀ a v, outerUsed pl t a v ↔ usedOf L a v ∧ a ≠ pl.addr) :
    Reallocated h L pl.addr size (blockTrimUsed h₁ pl.addr ((size + 15) / 16 * 16),
      pl.addr + 16) := by
  obtain ⟨L', u, hI', hused', hu, hK'⟩ := blockTrimUsed_inv ((size + 15) / 16 * 16) hI (by omega)
  obtain ⟨hal, hne, -⟩ := hI.good.shape.block (mem_fill_singleton.mpr (.inr rfl))
  refine ⟨L', hI', .inr ⟨pl.addr, u, rfl, hne, fun _ _ => rfl, by omega, fun a v => ?_, ?_, ?_⟩⟩
  · rw [hused', hused]
  · refine (hK.mono fun a v hv => hv.1).trans (hK'.mono fun a v hv => ?_)
    exact (hused' a v).mpr (.inl ((hused a v).mpr hv))
  · intro t' ht' i hi hin
    obtain rfl : t' = s := congrArg Tile.total (blocks_unique hwf ht' hb)
    have hnew : usedOf L' pl.addr u := (hused' _ _).mpr (.inr ⟨rfl, rfl⟩)
    rw [hK'.getByte_eq hnew hal (by omega) (by omega), hK.getByte_eq hb hal (by omega) (by omega)]

/-- The counters change behind a reallocation. -/
theorem Reallocated.stats (hR : Reallocated h L b n r) (hctl : SameCtl r.1 h')
    (hmem : h'.mem = r.1.mem) : Reallocated h L b n (h', r.2) := by
  obtain ⟨L', hI, ⟨hnull, hused, hK⟩ | ⟨c, u, hc, hne, hold, hn, hused, hK, hcopy⟩⟩ := hR
  · exact ⟨L', hI.stats hctl hmem, .inl ⟨hnull, hused, hK.of_mem_eq hmem⟩⟩
  · refine ⟨L', hI.stats hctl hmem,
      .inr ⟨c, u, hc, hne, hold, hn, hused, hK.of_mem_eq hmem, fun t ht i hi hin => ?_⟩⟩
    rw [← hcopy t ht i hi hin]
    exact getByte_congr (by rw [hmem])

section Realloc

variable {h : Heap} {L : Layout} (hI : HeapInv h L) {fuel : Nat} (hfuel : heapFuel < fuel)

include hI hfuel

/-- The contents move to a new block. -/
theorem reallocMove_spec {b t size : Nat} (hb : usedOf L b t)
    (hsize : size + 16 ≤ 2 ^ 64) (g : Grants) :
    ∃ r, (do
        let (h, np) ← heapAlloc fuel h size g
        if np ≠ 0 then
          let len := if t - heapHdr < size then t - heapHdr else size
          return (blockRelease (memcpy h np (b + 16) len) b, np)
        else return (h, np) : Option (Heap × Nat)) = some r ∧ Reallocated h L b size r := by
  obtain ⟨r, hr, ⟨L₁, hI₁, hK₁, ⟨hnull, hused⟩ | ⟨c, u, hc, hne, hnew, hn, hused⟩⟩, -⟩ :=
    heapAlloc_spec hI hfuel hsize g
  · simp only [hr, bind_eq_bind, bind_some, hnull, ne_eq, not_true, if_false]
    exact ⟨_, rfl, L₁, hI₁, .inl ⟨rfl, hused, hK₁⟩⟩
  · have hp : r.2 ≠ 0 := by omega
    simp only [hr, bind_eq_bind, bind_some, if_pos hp]
    have hcblock : usedOf L₁ c u := (hused c u).mpr (.inr ⟨rfl, rfl⟩)
    have hbblock : usedOf L₁ b t := (hused b t).mpr (.inl hb)
    have hal := (hI₁.good.shape.block hcblock).1
    obtain ⟨hbal, -, -, hb32, -⟩ := hI₁.good.shape.block hbblock
    simp only at hb32
    have hcb : c ≠ b := fun heq => hnew t (heq ▸ hb)
    rw [heapHdr]
    -- the smaller of the two payloads is copied
    generalize hlen : (if t - 16 < size then t - 16 else size) = len
    have hle : len ≤ size ∧ len + 16 ≤ t ∧ (len = t - 16 ∨ len = size) := by
      rw [← hlen]
      split <;> omega
    have hcopy : WritesIn r.1 (memcpy r.1 r.2 (b + 16) len) (c + 16) (u - 16) := by
      rw [hc]
      exact writesIn_foldl (by omega) _ (by omega)
    have hI₂ := hI₁.payload hcblock hcopy
    have hK₂ := hI₁.payload_kept hcblock hcopy
    obtain ⟨L₂, hI₃, hused₂, hK₃⟩ := blockRelease_used hI₂ hbblock
    refine ⟨_, rfl, L₂, hI₃, .inr ⟨c, u, hc, hne, fun v hv => absurd hv (hnew v), hn,
      fun a v => ?_, ?_, ?_⟩⟩
    · simp only [hused₂, hused]
      constructor
      · rintro ⟨hold | hc', hab⟩
        · exact .inl ⟨hold, hab⟩
        · exact .inr hc'
      · rintro (⟨hold, hab⟩ | ⟨rfl, rfl⟩)
        · exact ⟨.inl hold, hab⟩
        · exact ⟨.inr ⟨rfl, rfl⟩, hcb⟩
    · refine ((hK₁.mono fun a v hv => hv.1).trans (hK₂.mono fun a v hv => ?_)).trans
        (hK₃.mono fun a v hv => ?_)
      · exact ⟨(hused a v).mpr (.inl hv.1), fun heq => hnew v (heq ▸ hv.1)⟩
      · exact ⟨(hused a v).mpr (.inl hv.1), hv.2⟩
    · -- the bytes are copied, and the release of the old block misses them
      intro t' ht' i hi hin
      obtain rfl : t' = t := congrArg Tile.total (blocks_unique hI.good.shape.wf ht' hb)
      have hap : c + 16 + len ≤ b + 16 ∨ b + 16 + len ≤ c + 16 := by
        rcases blocks_apart hI₁.good.shape.wf hcblock hbblock with ⟨heq, -⟩ | hlt | hlt
        · exact absurd heq hcb
        · simp only at hlt
          omega
        · simp only at hlt
          omega
      rw [hK₃.getByte_eq ⟨hcblock, hcb⟩ hal (by omega) (by omega), hc, getByte_memcpy r.1 hap,
        if_pos (by omega), Nat.add_sub_cancel_left,
        hK₁.getByte_eq hb hbal (by omega) (by omega)]

section

variable (hb : usedOf L b t) (hpos : 0 < size) (hsize : size + 16 ≤ 2 ^ 64)
  (g : Grants)

include hb hpos hsize

/-- `krealloc` by its three ways: in place, into the neighbour, by a copy. -/
theorem reallocBlock_spec :
    ∃ r, reallocBlock fuel h (b + 16) size g = some r ∧ Reallocated h L b size r := by
  have hmove := reallocMove_spec hI hfuel hb hsize g
  have htot := (hI.good.block hb).1
  have hnext : blockNext h b = b + t := by rw [blockNext, htot]
  rw [reallocBlock]
  simp only [blockFrom_add, hnext, htot, alignUp_heapAlign hsize]
  by_cases hshrink : (size + 15) / 16 * 16 ≤ t - heapHdr
  · rw [if_pos hshrink]
    rw [heapHdr] at hshrink
    obtain ⟨pl, rfl, rfl⟩ := exists_place hb
    exact ⟨_, rfl, Reallocated.trim hI.good.shape.wf hb le_rfl (Kept.refl _ _) hI hpos
      (by omega) hI.used_outer⟩
  rw [if_neg hshrink]
  by_cases hgrow : isFree h (b + t) = true ∧
      t + blockTotal h (b + t) - heapHdr ≥ (size + 15) / 16 * 16
  · rw [if_pos hgrow]
    obtain ⟨hfree, hroom⟩ := hgrow
    rw [heapHdr] at hroom
    obtain ⟨pl, rfl, rfl⟩ := exists_place hb
    obtain ⟨-, -, hn, hf, -, -⟩ := hI.good.behind
    obtain ⟨pl, n, rfl⟩ := exists_withPost (hf.symm.trans hfree)
    have hn' : blockTotal h (pl.addr + t) = n := hn
    simp only [Place.addr_withPost, hn'] at hroom ⊢
    obtain ⟨hgrown, hK⟩ := takeNext_inv hI
    refine ⟨_, rfl, Reallocated.trim hI.good.shape.wf hb (Nat.le_add_right t n) hK hgrown hpos
      (by omega) fun a v => ?_⟩
    rw [← Place.addr_withPost pl ⟨n, true⟩, ← hI.used_outer, outerUsed_withPost]
  · rw [if_neg hgrow]
    exact hmove

/-- `krealloc` of a live pointer to some bytes. -/
theorem krealloc_spec :
    ∃ r, krealloc fuel h (b + 16) size g = some r ∧ Reallocated h L b size r := by
  have hown := blockOwn_of_used hI hb
  have hfree := (hI.good.block hb).2
  obtain ⟨r, hr, hR⟩ := reallocBlock_spec hI hfuel hb hpos hsize g
  rw [krealloc, if_neg (by omega), if_neg (by omega)]
  simp only [blockFrom_add, hown, hfree, hr, not_true, Bool.false_eq_true, or_self, if_false,
    bind_eq_bind, bind_some]
  by_cases hp : r.2 ≠ 0
  · rw [if_pos hp]
    refine ⟨_, rfl, hR.stats ?_ ?_⟩
    · rw [statsPeak_eq]
      exact ⟨rfl, rfl, rfl, rfl⟩
    · rw [statsPeak_eq]
  · rw [if_neg hp]
    exact ⟨_, rfl, hR⟩

end

end Realloc

end CoreZ.Proofs.Mm.Kheap
