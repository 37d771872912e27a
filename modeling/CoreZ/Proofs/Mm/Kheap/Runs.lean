import CoreZ.Lib.Run
import CoreZ.Proofs.Mm.Kheap.Calls

/-!
# `CoreZ.Proofs.Mm.Kheap.Runs`: the heap over all sequences of calls

A client of the heap calls it and writes into the payloads it owns.
`KState` is the heap with the client's live payloads, `kstep` one call
or one write, and `Legal` what the client owes: pointers it hands back
are live, sizes are at most `HEAP_MAX_BYTES`, and bytes it writes are in
a live payload. `Sound` allows larger sizes too, as long as no sum wraps
when they are rounded up.

`HeapInv` holds after every legal sequence, for any memory at the start
and any answers of the pool. Live payloads lie in used blocks, which is
why a client's write is harmless.
-/

set_option autoImplicit false

namespace CoreZ.Proofs.Mm.Kheap

open CoreZ.Lib
open CoreZ.Lib.Tiling
open CoreZ.Mm.Kheap

/-- The heap, and the live payloads with the bytes asked for. -/
structure KState where
  heap : Heap
  live : List (Nat × Nat)

inductive KOp where
  | kmalloc (size : Nat) (g : Grants)
  | kzalloc (size : Nat) (g : Grants)
  | kcalloc (nmemb size : Nat) (g : Grants)
  | kmallocAligned (size align : Nat) (g : Grants)
  | krealloc (ptr size : Nat) (g : Grants)
  | kfree (ptr : Nat)
  | store (x v : Nat)

namespace KState

/-- The state behind an allocation with the result `r`. -/
def gain (s : KState) (r : Heap × Nat) (n : Nat) : KState :=
  ⟨r.1, if r.2 = 0 then s.live else (r.2, n) :: s.live⟩

/-- The payload at `p` is given back. -/
def drop (s : KState) (p : Nat) : KState := { s with live := s.live.filter fun e => e.1 ≠ p }

def Live (s : KState) (p : Nat) : Prop := p = 0 ∨ ∃ e ∈ s.live, e.1 = p
  deriving Decidable

end KState

/-- One call of the heap, or one byte written by its client. -/
def kstep (fuel : Nat) (s : KState) : KOp → Option KState
  | .kmalloc size g => (kmalloc fuel s.heap size g).map fun r => s.gain r size
  | .kzalloc size g => (kzalloc fuel s.heap size g).map fun r => s.gain r size
  | .kcalloc nmemb size g =>
    (kcalloc fuel s.heap nmemb size g).map fun r => s.gain r (nmemb * size)
  | .kmallocAligned size align g =>
    (kmallocAligned fuel s.heap size align g).map fun r => s.gain r size
  | .krealloc ptr size g =>
    -- on failure the old payload stays with the client
    (krealloc fuel s.heap ptr size g).map fun r =>
      (if r.2 = 0 ∧ size ≠ 0 then s else s.drop ptr).gain r size
  | .kfree ptr => (kfree s.heap ptr).map fun h => { s.drop ptr with heap := h }
  | .store x v => some { s with heap := setByte s.heap x v }

/-- What the client owes. -/
def Legal (s : KState) : KOp → Prop
  | .kmalloc size _ | .kzalloc size _ => size ≤ heapMaxBytes
  | .kcalloc _ _ _ => True
  | .kmallocAligned size align _ => size ≤ heapMaxBytes ∧ align < 0x10000000000000000
  | .krealloc ptr size _ => s.Live ptr ∧ size ≤ heapMaxBytes
  | .kfree ptr => s.Live ptr
  | .store x _ => ∃ e ∈ s.live, e.1 ≤ x ∧ x < e.1 + e.2

instance (s : KState) : ∀ op, Decidable (Legal s op)
  | .kmalloc size _ | .kzalloc size _ => inferInstanceAs (Decidable (size ≤ heapMaxBytes))
  | .kcalloc _ _ _ => inferInstanceAs (Decidable True)
  | .kmallocAligned _ _ _ => inferInstanceAs (Decidable (_ ∧ _))
  | .krealloc ptr _ _ => inferInstanceAs (Decidable (s.Live ptr ∧ _))
  | .kfree ptr => inferInstanceAs (Decidable (s.Live ptr))
  | .store x _ => inferInstanceAs (Decidable (∃ e ∈ s.live, e.1 ≤ x ∧ x < e.1 + e.2))

/-- Pointers that are handed back are live, and bytes that are written
are in a live payload. -/
def Client (s : KState) : KOp → Prop
  | .krealloc ptr _ _ | .kfree ptr => s.Live ptr
  | .store x _ => ∃ e ∈ s.live, e.1 ≤ x ∧ x < e.1 + e.2
  | _ => True

/-- No sum of `size_t` wraps when the size is rounded up, or made larger
for an alignment that is accepted. -/
def NoWrap : KOp → Prop
  | .kmalloc size _ | .kzalloc size _ | .krealloc _ size _ => size + 15 < 0x10000000000000000
  | .kmallocAligned size align _ =>
    size + 15 < 0x10000000000000000 ∧ align < 0x10000000000000000 ∧
      (heapAlign < align → align &&& (align - 1) = 0 → size + align + 47 < 0x10000000000000000)
  | _ => True

structure Sound (s : KState) (op : KOp) : Prop where
  client : Client s op
  noWrap : NoWrap op

variable {s : KState} {fuel : Nat}

/-- A legal call is a sound one. -/
theorem Legal.sound {op : KOp} (h : Legal s op) : Sound s op := by
  have hbound : ∀ {n : Nat}, n ≤ heapMaxBytes → n + 15 < 0x10000000000000000 := by
    intro n hn
    rw [heapMaxBytes] at hn
    omega
  cases op with
  | kmalloc size g => exact ⟨trivial, hbound h⟩
  | kzalloc size g => exact ⟨trivial, hbound h⟩
  | kcalloc nmemb size g => exact ⟨trivial, trivial⟩
  | kmallocAligned size align g =>
    refine ⟨trivial, hbound h.1, h.2, fun hlt hpow => ?_⟩
    -- a power of two is at most half of the range
    obtain ⟨k, -, -, hle⟩ := exists_align h.2 (by omega) (by omega) hpow
    have hsize := h.1
    rw [heapMaxBytes] at hsize
    omega
  | krealloc ptr size g => exact ⟨h.1, hbound h.2⟩
  | kfree ptr => exact ⟨h, trivial⟩
  | store x v => exact ⟨h, trivial⟩

/-- The heap behind `kheap_init`. -/
def kstart (mem : Mem) (grant : Option Nat) : KState := ⟨kheapInit mem grant, []⟩

/-! ### One step -/

/-- The invariant of the heap, and every live payload in a used block
with room for it. -/
def Owned (s : KState) : Prop :=
  ∃ L, HeapInv s.heap L ∧
    ∀ e ∈ s.live, ∃ b t, e.1 = b + 16 ∧ usedOf L b t ∧ e.2 + 16 ≤ t

section Step

variable {s : KState} {L : Layout}
  (hlive : ∀ e ∈ s.live, ∃ b t, e.1 = b + 16 ∧ usedOf L b t ∧ e.2 + 16 ≤ t)

include hlive

/-- The client has one block more. -/
theorem owned_gain {h : Heap} {r : Heap × Nat} {n : Nat} (hA : Allocated h L n r) :
    Owned (s.gain r n) := by
  obtain ⟨L', hI', -, ⟨hnull, hused⟩ | ⟨b, u, hb, hne, -, hn, hused⟩⟩ := hA
  · refine ⟨L', hI', fun e he => ?_⟩
    rw [KState.gain, hnull] at he
    obtain ⟨b, t, hb, hblock, ht⟩ := hlive e he
    exact ⟨b, t, hb, (hused b t).mpr hblock, ht⟩
  · refine ⟨L', hI', fun e he => ?_⟩
    have hp : ¬ r.2 = 0 := by omega
    rw [KState.gain, if_neg hp] at he
    rcases List.mem_cons.mp he with rfl | he
    · exact ⟨b, u, hb, (hused b u).mpr (.inr ⟨rfl, rfl⟩), hn⟩
    · obtain ⟨c, t, hc, hblock, ht⟩ := hlive e he
      exact ⟨c, t, hc, (hused c t).mpr (.inl hblock), ht⟩

/-- The blocks that are left after a free. -/
theorem live_drop {b : Nat} {e : Nat × Nat} (he : e ∈ (s.drop (b + 16)).live) :
    ∃ c t, e.1 = c + 16 ∧ (usedOf L c t ∧ c ≠ b) ∧ e.2 + 16 ≤ t := by
  rw [KState.drop, List.mem_filter, decide_eq_true_eq] at he
  obtain ⟨c, t, hc, hblock, ht⟩ := hlive e he.1
  exact ⟨c, t, hc, ⟨hblock, fun hcb => he.2 (by rw [hc, hcb])⟩, ht⟩

/-- The block is replaced, or stays when there is no room. -/
theorem owned_realloc {h : Heap} {r : Heap × Nat} {b n : Nat} (hpos : n ≠ 0)
    (hR : Reallocated h L b n r) :
    Owned ((if r.2 = 0 ∧ n ≠ 0 then s else s.drop (b + 16)).gain r n) := by
  obtain ⟨L', hI', ⟨hnull, hused, hK⟩ | ⟨c, u, hc, hne, -, hn, hused, -, -⟩⟩ := hR
  · rw [if_pos ⟨hnull, hpos⟩]
    exact owned_gain hlive ⟨L', hI', hK, .inl ⟨hnull, hused⟩⟩
  · have hp : ¬ r.2 = 0 := by omega
    rw [if_neg fun h => hp h.1]
    refine ⟨L', hI', fun e he => ?_⟩
    rw [KState.gain, if_neg hp] at he
    rcases List.mem_cons.mp he with rfl | he
    · exact ⟨c, u, hc, (hused c u).mpr (.inr ⟨rfl, rfl⟩), hn⟩
    · obtain ⟨d, t, hd, hblock, ht⟩ := live_drop hlive he
      exact ⟨d, t, hd, (hused d t).mpr (.inl hblock), ht⟩

/-- `kfree` of a live pointer, or of `NULL`. -/
theorem owned_kfree (hI : HeapInv s.heap L) {p : Nat} (hp : s.Live p) :
    ∃ h, kfree s.heap p = some h ∧ Owned { s.drop p with heap := h } := by
  rcases hp with rfl | ⟨e, he, rfl⟩
  · refine ⟨_, rfl, L, hI, fun e he => ?_⟩
    exact hlive e (List.mem_of_mem_filter he)
  obtain ⟨b, t, hb, hblock, -⟩ := hlive e he
  obtain ⟨h, hfree, L', hI', hused, -⟩ := kfree_spec hI hblock
  rw [hb]
  refine ⟨h, hfree, L', hI', fun e he => ?_⟩
  obtain ⟨c, u, hc, hcblock, hu⟩ := live_drop hlive he
  exact ⟨c, u, hc, (hused c u).mpr hcblock, hu⟩

end Step

/-- `krealloc` with its special cases. -/
theorem owned_krealloc {L : Layout} (hI : HeapInv s.heap L)
    (hlive : ∀ e ∈ s.live, ∃ b t, e.1 = b + 16 ∧ usedOf L b t ∧ e.2 + 16 ≤ t)
    (hfuel : heapFuel < fuel) {p size : Nat} (hp : s.Live p)
    (hsize : size + 16 ≤ 2 ^ 64) (g : Grants) :
    ∃ r, krealloc fuel s.heap p size g = some r ∧
      Owned ((if r.2 = 0 ∧ size ≠ 0 then s else s.drop p).gain r size) := by
  by_cases hnull : p = 0
  · -- a plain allocation
    obtain ⟨r, hr, hA⟩ := kmalloc_spec hI hfuel hsize g
    refine ⟨r, by rw [krealloc, if_pos hnull, hr], ?_⟩
    split
    · exact owned_gain hlive hA
    · refine owned_gain (fun e he => ?_) hA
      exact hlive e (List.mem_of_mem_filter he)
  by_cases hzero : size = 0
  · -- a plain release
    obtain ⟨h, hfree, hO⟩ := owned_kfree hlive hI hp
    refine ⟨(h, 0), by simp [krealloc, hnull, hzero, hfree], ?_⟩
    rw [if_neg fun h => h.2 hzero]
    exact hO
  · obtain rfl | ⟨e, he, rfl⟩ := hp
    · exact absurd rfl hnull
    · obtain ⟨b, t, hb, hblock, -⟩ := hlive e he
      obtain ⟨r, hr, hR⟩ := krealloc_spec hI hfuel hblock (Nat.pos_of_ne_zero hzero) hsize g
      rw [hb]
      exact ⟨r, hr, owned_realloc hlive hzero hR⟩

/-- Every sound step has a result, and keeps the invariant. -/
theorem kstep_owned (hO : Owned s) (hfuel : heapFuel < fuel) {op : KOp} (hsound : Sound s op) :
    ∃ s', kstep fuel s op = some s' ∧ Owned s' := by
  obtain ⟨L, hI, hlive⟩ := hO
  obtain ⟨hclient, hwrap⟩ := hsound
  -- the allocating calls
  have hgain : ∀ {c : Option (Heap × Nat)} {n : Nat}, (∃ r, c = some r ∧ Allocated s.heap L n r) →
      ∃ s', c.map (fun r => s.gain r n) = some s' ∧ Owned s' := by
    rintro c n ⟨r, rfl, hA⟩
    exact ⟨_, rfl, owned_gain hlive hA⟩
  cases op with
  | kmalloc size g => exact hgain (kmalloc_spec hI hfuel hwrap g)
  | kzalloc size g => exact hgain (kzalloc_spec hI hfuel hwrap g)
  | kcalloc nmemb size g => exact hgain (kcalloc_spec hI hfuel nmemb size g)
  | kmallocAligned size align g =>
    obtain ⟨r, hr, hA, -⟩ := kmallocAligned_spec hI hfuel hwrap.1 hwrap.2.1 hwrap.2.2 g
    exact hgain ⟨r, hr, hA⟩
  | krealloc ptr size g =>
    obtain ⟨r, hr, hO⟩ := owned_krealloc hI hlive hfuel hclient hwrap g
    exact ⟨_, by rw [kstep, hr, Option.map_some], hO⟩
  | kfree ptr =>
    obtain ⟨h, hfree, hO⟩ := owned_kfree hlive hI hclient
    exact ⟨_, by rw [kstep, hfree, Option.map_some], hO⟩
  | store x v =>
    obtain ⟨e, he, hx⟩ := hclient
    obtain ⟨b, t, hb, hblock, ht⟩ := hlive e he
    have hal := (hI.good.shape.block hblock).1
    have hw := (WritesIn.refl s.heap (b + 16) (t - 16)).setByte (by omega) (x := x) (by omega) v
    exact ⟨_, rfl, L, hI.payload hblock hw, hlive⟩

/-! ### Runs -/

/-- The heap with no area. -/
theorem heapInv_empty (mem : Mem) :
    HeapInv
      { mem, flBitmap := 0, slBitmap := fun _ => 0, blocks := fun _ _ => 0, areas := [],
        usedBytes := 0, peakBytes := 0, allocCount := 0 } [] := by
  refine ⟨⟨⟨⟨by decide, by simp, List.Pairwise.nil⟩, by simp, by simp, by decide⟩, rfl,
    fun A hA => absurd hA List.not_mem_nil, ⟨fun _ _ => [], ?_⟩,
    fun a t ha => absurd ha List.not_mem_nil⟩, fun A hA => absurd hA List.not_mem_nil⟩
  have hnone : ∀ a t, ¬ freeOf [] a t := fun a t => List.not_mem_nil
  refine ⟨fun a t h => absurd h (hnone a t), fun a t u h => absurd h (hnone a t), fun _ _ => rfl,
    fun _ _ => List.nodup_nil, fun fl sl a => ?_, fun fl sl => ?_, fun fl => ?_⟩
  · simp [hnone]
  · simp
  · simp

/-- At the start the client has nothing. -/
theorem owned_kstart {mem : Mem} {grant : Option Nat} : Owned (kstart mem grant) := by
  obtain ⟨L, hI, -⟩ := kheapGrow_inv (heapInv_empty mem)
  exact ⟨L, hI, fun e he => absurd he List.not_mem_nil⟩

/-! ### The search -/

/-- `list_take` with the bucket of the request finds a free block of at
least that size if the layout has one, `block_acquire` succeeds after
`kheap_grow` for the same payload, and `heap_alloc` of a size other than
0 fails only if no free block fits and the heap cannot grow. -/
def SearchComplete (fuel : Nat) (h : Heap) (L : Layout) : Prop :=
  (∀ total, 16 ≤ total → total < heapMaxBytes →
    ∃ r, listTake fuel h (mapInsert total).1 (mapInsert total).2 total = some r ∧
      (r.2 = 0 → ∀ a t, freeOf L a t → t < total) ∧ (r.2 ≠ 0 → ∃ t, freeOf L r.2 t ∧ total ≤ t)) ∧
  ∀ size g, size < heapMaxBytes →
    (0 < size → (kheapGrow h (alignUp size heapAlign) g.first).2 = true →
      ∃ r, blockAcquire fuel (kheapGrow h (alignUp size heapAlign) g.first).1
        (alignUp size heapAlign)
        = some r ∧ r.2 ≠ 0) ∧
    ∃ r, heapAlloc fuel h size g = some r ∧ (r.2 = 0 → size = 0 ∨
      (∀ a t, freeOf L a t → t < alignUp size heapAlign + heapHdr) ∧
        (kheapGrow h (alignUp size heapAlign) g.first).2 = false)

/-- In a sound heap the search misses no block that fits. -/
theorem search_complete {h : Heap} {L : Layout} (hI : HeapInv h L) (hfuel : heapFuel < fuel) :
    SearchComplete fuel h L := by
  refine ⟨fun total hge _ => ?_, fun size g hlt => ?_⟩
  · rcases listTake_spec hI hge rfl hfuel with ⟨htake, hsmall⟩ | ⟨b, t, hfree, hle, hne, htake⟩
    · exact ⟨_, htake, fun _ => hsmall, fun hne => absurd rfl hne⟩
    · exact ⟨_, htake, fun h0 => absurd h0 hne, fun _ => ⟨t, hfree, hle⟩⟩
  · have hwrap : size + 16 ≤ 2 ^ 64 := by rw [heapMaxBytes] at hlt; omega
    obtain ⟨r, hr, -, hnull⟩ := heapAlloc_spec hI hfuel hwrap g
    refine ⟨fun hpos hgrown => ?_, r, hr, fun h0 => hnull h0 hlt⟩
    rw [alignUp_heapAlign hwrap] at hgrown ⊢
    exact blockAcquire_grown hI hfuel (by omega) (by rw [heapMaxBytes] at *; omega) hgrown

theorem search_complete_kstart :
    ∃ L, SearchComplete 2097154 (kstart (fun _ => 0) (some 4096)).heap L := by
  obtain ⟨L, hI, -⟩ := owned_kstart
  exact ⟨L, search_complete hI (by decide)⟩

/-- By induction on the calls. -/
theorem run_owned (hfuel : heapFuel < fuel) {ops : List KOp} :
    ∀ s, Owned s → Along (kstep fuel) Sound s ops → ∃ t, run (kstep fuel) s ops = some t ∧
      Owned t := by
  induction ops with
  | nil => exact fun s hO _ => ⟨s, rfl, hO⟩
  | cons op ops ih =>
    intro s hO hsound
    obtain ⟨s', hstep, hO'⟩ := kstep_owned hO hfuel hsound.1
    obtain ⟨t, hrun, ht⟩ := ih s' hO' (hsound.2 s' hstep)
    exact ⟨t, run_cons_eq_some.mpr ⟨s', hstep, hrun⟩, ht⟩

/-- The invariant holds after every legal sequence of calls. No call
fails an `ASSERT`, and no walk through a free list is longer than
`heapFuel`. -/
theorem kheap_invariant (mem : Mem) (grant : Option Nat) {fuel : Nat} (hfuel : heapFuel < fuel)
    (ops : List KOp) (hlegal : Along (kstep fuel) Legal (kstart mem grant) ops) :
    ∃ s, run (kstep fuel) (kstart mem grant) ops = some s ∧ ∃ L, HeapInv s.heap L := by
  obtain ⟨s, hrun, L, hI, -⟩ := run_owned hfuel _ owned_kstart (hlegal.mono fun _ _ h => h.sound)
  exact ⟨s, hrun, L, hI⟩

/-- A run with every kind of call. -/
theorem kheap_invariant_sample :
    ∃ s, run (kstep 2097154) (kstart (fun _ => 0) (some 4096))
        [.kmalloc 100 ⟨none, none⟩, .store 4115 7, .kfree 4112, .kzalloc 40 ⟨none, none⟩,
          .kcalloc 3 8 ⟨none, none⟩, .kmallocAligned 50 64 ⟨none, none⟩, .krealloc 0 9 ⟨none, none⟩]
        = some s ∧ ∃ L, HeapInv s.heap L := by
  refine kheap_invariant _ _ (by decide) _ ?_
  have hlive : (kstep 2097154 (kstart (fun _ => 0) (some 4096)) (.kmalloc 100 ⟨none, none⟩)).map
      KState.live = some [(4112, 100)] := by decide +kernel
  refine ⟨by decide, fun s₁ h₁ => ?_⟩
  rw [h₁, Option.map_some, Option.some.injEq] at hlive
  refine ⟨⟨(4112, 100), by simp [hlive], by decide, by decide⟩, fun s₂ h₂ => ?_⟩
  cases h₂
  refine ⟨Or.inr ⟨(4112, 100), by simp [hlive], rfl⟩, fun s₃ _ => ?_⟩
  refine ⟨(by decide : 40 ≤ heapMaxBytes), fun s₄ _ => ⟨trivial, fun s₅ _ => ?_⟩⟩
  refine ⟨⟨(by decide : 50 ≤ heapMaxBytes), by decide⟩, fun s₆ _ => ?_⟩
  exact ⟨⟨Or.inl rfl, by decide⟩, fun s₇ _ => trivial⟩

end CoreZ.Proofs.Mm.Kheap
