import CoreZ.Proofs.Mm.Kheap.Runs

/-!
# `CoreZ.Proofs.Mm.Kheap.Payloads`: what a client gets

The statements of this module are about pointers and bytes, as a client
sees them: the payload of a pointer is what its header says
(`payloadSize`), and headers are what a walk through the areas finds
(`IsHeader`). In every state that sound steps lead to, a pointer that an
allocating call returns has a payload that is large enough, aligned, and
apart from every header and every other live payload (`Payload`), and
`krealloc` keeps the bytes of the payloads.

`Sound` asks for sizes whose sums do not wrap. `kmalloc(SIZE_MAX)` rounds
its size up to 0 and returns a block without a payload, and
`krealloc(p, SIZE_MAX)` cuts the block of `p` down to its header.
-/

set_option autoImplicit false

namespace CoreZ.Proofs.Mm.Kheap

open CoreZ.Lib
open CoreZ.Lib.Tiling
open CoreZ.Mm.Kheap
open List

/-! ### The client's view -/

/-- The bytes between the header of a pointer and the next header. -/
def payloadSize (h : Heap) (p : Nat) : Nat := blockTotal h (blockFrom p) - heapHdr

/-- The headers of the heap: from the start of an area, every block leads
to the next, up to the sentinel. -/
inductive IsHeader (h : Heap) : Nat → Prop
  | first {m : Nat × Nat} (hm : m ∈ h.areas) : IsHeader h m.1
  | next {b : Nat} (hb : IsHeader h b) (htotal : blockTotal h b ≠ 0) : IsHeader h (blockNext h b)

/-- The payload at `p` has room for `n` bytes, and overlaps neither a
header nor a payload of `live`. -/
structure Payload (live : List Nat) (h : Heap) (p n align : Nat) : Prop where
  room : n ≤ payloadSize h p
  aligned : p % align = 0
  apart : ∀ q ∈ live, p + payloadSize h p ≤ q ∨ q + payloadSize h q ≤ p
  headers : ∀ x, IsHeader h x → p + payloadSize h p ≤ x ∨ x + heapHdr ≤ p

/-- A call of the heap on its own: the heap and the pointer it returns. -/
def call (fuel : Nat) (h : Heap) : KOp → Option (Heap × Nat)
  | .kmalloc size g => kmalloc fuel h size g
  | .kzalloc size g => kzalloc fuel h size g
  | .kcalloc nmemb size g => kcalloc fuel h nmemb size g
  | .kmallocAligned size align g => kmallocAligned fuel h size align g
  | .krealloc ptr size g => krealloc fuel h ptr size g
  | .kfree ptr => (kfree h ptr).map fun h => (h, 0)
  | .store x v => some (setByte h x v, 0)

namespace KOp

/-- The bytes that a call asks for. -/
def requested : KOp → Nat
  | kmalloc size _ | kzalloc size _ | kmallocAligned size _ _ | krealloc _ size _ => size
  | kcalloc nmemb size _ => nmemb * size
  | kfree _ | store _ _ => 0

def alignment : KOp → Nat
  | kmallocAligned _ align _ => if align < heapAlign then heapAlign else align
  | _ => heapAlign

/-- The live pointers that a call leaves alone. -/
def others (live : List (Nat × Nat)) : KOp → List Nat
  | krealloc ptr _ _ => (live.map Prod.fst).filter fun q => q ≠ ptr
  | _ => live.map Prod.fst

end KOp

/-! ### Headers and blocks -/

variable {h : Heap} {r : Heap × Nat} {L : Layout} {b n t : Nat}

/-- The block behind a block, or the end mark. -/
theorem isHead_next {a : Nat} {t : Tile} (ht : (a, t) ∈ blocks L) : IsHead L (a + t.total) := by
  obtain ⟨A, hA, hplaced⟩ := mem_blocks.mp ht
  obtain ⟨xs, ys, htiles, rfl⟩ := exists_of_mem_placed hplaced
  cases ys with
  | nil =>
    refine .inr ⟨A, hA, ?_⟩
    rw [htiles, span_append, span_cons, span_nil, add_zero, add_assoc]
  | cons u ys =>
    refine .inl ⟨u, mem_blocks.mpr ⟨A, hA, ?_⟩⟩
    rw [htiles, placed_append, placed, placed]
    exact mem_append_right _ (mem_cons_of_mem _ mem_cons_self)

/-- The headers that a walk finds are those of the layout. -/
theorem HeapInv.isHead (hI : HeapInv h L) {x : Nat} (hx : IsHeader h x) : IsHead L x := by
  induction hx with
  | first hm =>
    rw [hI.good.areas] at hm
    obtain ⟨A, hA, rfl⟩ := mem_map.mp hm
    cases htiles : A.tiles with
    | nil => exact .inr ⟨A, hA, by simp only [htiles, span_nil, add_zero]⟩
    | cons t ts =>
      refine .inl ⟨t, mem_blocks.mpr ⟨A, hA, ?_⟩⟩
      rw [htiles, placed]
      exact mem_cons_self
  | next _ htotal ih =>
    rcases ih with ⟨t, ht⟩ | ⟨A, hA, hend⟩
    · rw [blockNext, (hI.good.block ht).1]
      exact isHead_next ht
    -- the sentinel is the end of the walk
    refine absurd ?_ htotal
    have hseg : Seg h.mem A.base 0 false (A.tiles.reverse.reverse ++ []) := by
      rw [reverse_reverse, append_nil]
      exact hI.good.tiles A hA
    have hrev := (seg_reverse A.tiles.reverse []).mp hseg
    have hsize : h.size (A.base + span A.tiles) = enc 0 false (prevFree A.tiles.reverse) := by
      have := hrev.2.2
      rw [span_reverse] at this
      exact this
    rw [hend]
    exact blockTotal_of_size hsize rfl (by decide)

section Block

variable {h : Heap} {L : Layout} (hI : HeapInv h L)

include hI

theorem HeapInv.payloadSize (hb : usedOf L b t) : payloadSize h (b + 16) = t - 16 := by
  rw [CoreZ.Proofs.Mm.Kheap.payloadSize, blockFrom_add, (hI.good.block hb).1, heapHdr]

/-- A used block is a payload for its client. -/
theorem HeapInv.payload_of_used {c u align : Nat} (hc : usedOf L c u) (hn : n + 16 ≤ u)
    (halign : (c + 16) % align = 0) {live : List Nat}
    (hlive : ∀ q ∈ live, ∃ b t, q = b + 16 ∧ usedOf L b t ∧ b ≠ c) :
    Payload live h (c + 16) n align := by
  have hsize := hI.payloadSize hc
  refine ⟨by omega, halign, fun q hq => ?_, fun x hx => ?_⟩
  · obtain ⟨b, t, rfl, hb, hne⟩ := hlive q hq
    have hb32 := (hI.good.shape.block hb).2.2.2.1
    rw [hsize, hI.payloadSize hb]
    rcases blocks_apart hI.good.shape.wf hc hb with ⟨heq, -⟩ | hlt | hlt
    · exact absurd heq.symm hne
    · simp only at hlt
      omega
    · simp only at hlt hb32
      omega
  · have hap := isHead_apart hI.good.shape.wf (hI.isHead hx) hc
    simp only at hap
    rw [hsize, heapHdr]
    omega

end Block

/-! ### Results of calls -/

section Results

variable {h : Heap} {L : Layout} {live : List (Nat × Nat)}
  (hlive : ∀ e ∈ live, ∃ b t, e.1 = b + 16 ∧ usedOf L b t ∧ e.2 + 16 ≤ t)

include hlive

theorem Allocated.payload {align : Nat} (hA : Allocated h L n r) (halign : r.2 % align = 0)
    (hne : r.2 ≠ 0) : Payload (live.map Prod.fst) r.1 r.2 n align := by
  obtain ⟨L', hI', -, ⟨hnull, -⟩ | ⟨c, u, hc, -, hnew, hn, hused⟩⟩ := hA
  · exact absurd hnull hne
  rw [hc] at halign ⊢
  refine hI'.payload_of_used ((hused c u).mpr (.inr ⟨rfl, rfl⟩)) hn halign fun q hq => ?_
  obtain ⟨e, he, rfl⟩ := mem_map.mp hq
  obtain ⟨b, t, hb, hblock, -⟩ := hlive e he
  exact ⟨b, t, hb, (hused b t).mpr (.inl hblock), fun heq => hnew t (heq ▸ hblock)⟩

theorem Reallocated.payload (hR : Reallocated h L b n r) (hne : r.2 ≠ 0) :
    Payload ((live.map Prod.fst).filter fun q => q ≠ b + 16) r.1 r.2 n heapAlign := by
  obtain ⟨L', hI', ⟨hnull, -⟩ | ⟨c, u, hc, -, hold, hn, hused, -, -⟩⟩ := hR
  · exact absurd hnull hne
  have hblock : usedOf L' c u := (hused c u).mpr (.inr ⟨rfl, rfl⟩)
  have hal := (hI'.good.shape.block hblock).1
  rw [hc]
  refine hI'.payload_of_used hblock hn (by rw [heapAlign]; omega) fun q hq => ?_
  rw [mem_filter, decide_eq_true_eq] at hq
  obtain ⟨e, he, rfl⟩ := mem_map.mp hq.1
  obtain ⟨d, t, hd, hdblock, -⟩ := hlive e he
  have hdb : d ≠ b := fun heq => hq.2 (by rw [hd, heq])
  refine ⟨d, t, hd, (hused d t).mpr (.inl ⟨hdblock, hdb⟩), fun heq => ?_⟩
  rw [heq] at hdblock hdb
  exact hdb (hold t hdblock)

end Results

/-- Every sound call has a result, and a pointer that it returns has its
payload. -/
theorem call_payload {s : KState} (hO : Owned s) {fuel : Nat} (hfuel : heapFuel < fuel) {op : KOp}
    (hsound : Sound s op) :
    ∃ r, call fuel s.heap op = some r ∧
      (r.2 ≠ 0 → Payload (op.others s.live) r.1 r.2 op.requested op.alignment) := by
  obtain ⟨L, hI, hlive⟩ := hO
  obtain ⟨hclient, hwrap⟩ := hsound
  have halloc : ∀ {c : Option (Heap × Nat)} {n : Nat}, (∃ r, c = some r ∧ Allocated s.heap L n r) →
      ∃ r, c = some r ∧ (r.2 ≠ 0 → Payload (s.live.map Prod.fst) r.1 r.2 n heapAlign) := by
    rintro c n ⟨r, rfl, hA⟩
    exact ⟨r, rfl, hA.payload hlive hA.aligned⟩
  cases op with
  | kmalloc size g => exact halloc (kmalloc_spec hI hfuel hwrap g)
  | kzalloc size g => exact halloc (kzalloc_spec hI hfuel hwrap g)
  | kcalloc nmemb size g => exact halloc (kcalloc_spec hI hfuel nmemb size g)
  | kmallocAligned size align g =>
    obtain ⟨r, hr, hA, hal⟩ := kmallocAligned_spec hI hfuel hwrap.1 hwrap.2.1 hwrap.2.2 g
    exact ⟨r, hr, hA.payload hlive hal⟩
  | krealloc ptr size g =>
    show ∃ r, krealloc fuel s.heap ptr size g = some r ∧
      (r.2 ≠ 0 → Payload ((s.live.map Prod.fst).filter fun q => q ≠ ptr) r.1 r.2 size heapAlign)
    by_cases hnull : ptr = 0
    · -- a plain allocation; no live pointer is `NULL`
      obtain ⟨r, hr, hA⟩ := kmalloc_spec hI hfuel hwrap g
      refine ⟨r, by rw [krealloc, if_pos hnull, hr], fun hne => ?_⟩
      have hpay := hA.payload hlive hA.aligned hne
      exact ⟨hpay.room, hpay.aligned, fun q hq => hpay.apart q (mem_of_mem_filter hq), hpay.headers⟩
    · obtain rfl | ⟨e, he, rfl⟩ := hclient
      · exact absurd rfl hnull
      obtain ⟨b, t, hb, hblock, -⟩ := hlive e he
      by_cases hzero : size = 0
      · obtain ⟨h', hfree, -⟩ := kfree_spec hI hblock
        rw [hb] at hnull ⊢
        refine ⟨(h', 0), by simp [krealloc, hzero, hfree], fun hne => absurd rfl hne⟩
      · obtain ⟨r, hr, hR⟩ := krealloc_spec hI hfuel hblock (Nat.pos_of_ne_zero hzero) hwrap g
        rw [hb]
        exact ⟨r, hr, hR.payload hlive⟩
  | kfree ptr =>
    obtain ⟨h', hfree, -⟩ := owned_kfree hlive hI hclient
    exact ⟨(h', 0), by rw [call, hfree, Option.map_some], fun hne => absurd rfl hne⟩
  | store x v => exact ⟨_, rfl, fun hne => absurd rfl hne⟩

/-- In every state that sound steps lead to, a sound call returns `NULL`
or a pointer to a payload of its own. -/
theorem allocation_correct (mem : Mem) (grant : Option Nat) {fuel : Nat} (hfuel : heapFuel < fuel)
    (ops : List KOp) (hsound : Along (kstep fuel) Sound (kstart mem grant) ops) :
    ∃ s, run (kstep fuel) (kstart mem grant) ops = some s ∧
      ∀ op, Sound s op → ∃ h p, call fuel s.heap op = some (h, p) ∧
        (p ≠ 0 → Payload (op.others s.live) h p op.requested op.alignment) := by
  obtain ⟨s, hrun, hO⟩ := run_owned hfuel _ owned_kstart hsound
  refine ⟨s, hrun, fun op hop => ?_⟩
  obtain ⟨r, hr, hpay⟩ := call_payload hO hfuel hop
  exact ⟨r.1, r.2, hr, hpay⟩

/-- A page on a heap with one allocation. -/
theorem allocation_correct_sample :
    ∃ s, run (kstep 2097154) (kstart (fun _ => 0) (some 4096))
      [.kmalloc 100 ⟨none, none⟩] = some s ∧
      ∃ h p, kmallocAligned 2097154 s.heap 4096 4096 ⟨none, none⟩ = some (h, p) ∧
        (p ≠ 0 → Payload (s.live.map Prod.fst) h p 4096 4096) := by
  obtain ⟨s, hrun, hcall⟩ := allocation_correct (fun _ => 0) (some 4096)
    (by decide : heapFuel < 2097154)
    [.kmalloc 100 ⟨none, none⟩]
    ⟨⟨trivial, (by decide : 100 + 15 < 0x10000000000000000)⟩, fun _ _ => trivial⟩
  exact ⟨s, hrun, hcall (.kmallocAligned 4096 4096 ⟨none, none⟩)
    ⟨trivial, by decide, by decide, fun _ _ => by decide⟩⟩

/-- `kmalloc(SIZE_MAX)` returns a pointer without a payload. -/
theorem not_payload_sizeMax :
    ∃ r, call 2097154 (kstart (fun _ => 0) (some 4096)).heap
        (.kmalloc 0xffffffffffffffff ⟨none, none⟩) = some r ∧ r.2 = 4112 ∧
      ¬ Payload [] r.1 r.2 0xffffffffffffffff heapAlign := by
  have hcall : (call 2097154 (kstart (fun _ => 0) (some 4096)).heap
      (.kmalloc 0xffffffffffffffff ⟨none, none⟩)).map (fun r => (r.2, payloadSize r.1 r.2))
      = some (4112, 0) := by decide +kernel
  obtain ⟨r, hr, hpair⟩ := Option.map_eq_some_iff.mp hcall
  refine ⟨r, hr, (Prod.mk.inj hpair).1, fun hpay => ?_⟩
  have hroom := hpay.room
  rw [(Prod.mk.inj hpair).2] at hroom
  omega

/-! ### Reallocation -/

/-- The bytes of the payload at `p` are the same. -/
def SameBytes (h h' : Heap) (p : Nat) : Prop :=
  ∀ i, i < payloadSize h p → getByte h' (p + i) = getByte h (p + i)

/-- `krealloc` keeps bytes: those of the payload, as many as are asked
for, and those of all other live payloads. When it fails, nothing has
changed. -/
structure Preserved (live : List Nat) (h : Heap) (p size : Nat) (r : Heap × Nat) : Prop where
  moved : r.2 ≠ 0 → ∀ i, i < min (payloadSize h p) size → getByte r.1 (r.2 + i) = getByte h (p + i)
  others : r.2 ≠ 0 → ∀ q ∈ live, q ≠ p → SameBytes h r.1 q
  failed : r.2 = 0 → size ≠ 0 →
    (blockOwn r.1 p (blockFrom p) = true ∧ isFree r.1 (blockFrom p) = false) ∧
      ∀ q ∈ live, SameBytes h r.1 q

/-- The bytes of a used block that is kept. -/
theorem Kept.sameBytes {h' : Heap} (hI : HeapInv h L) {P : Nat → Nat → Prop} (hk : Kept P h h')
    (hb : usedOf L b t) (hP : P b t) : SameBytes h h' (b + 16) := by
  intro i hi
  have hal := (hI.good.shape.block hb).1
  rw [hI.payloadSize hb] at hi
  exact hk.getByte_eq hP hal (by omega) (by omega)

theorem Reallocated.preserved (hI : HeapInv h L) {live : List (Nat × Nat)}
    (hlive : ∀ e ∈ live, ∃ b t, e.1 = b + 16 ∧ usedOf L b t ∧ e.2 + 16 ≤ t) (hb : usedOf L b t)
    (hR : Reallocated h L b n r) : Preserved (live.map Prod.fst) h (b + 16) n r := by
  obtain ⟨L', hI', ⟨hnull, hused, hK⟩ | ⟨c, u, hc, hne, -, -, -, hK, hcopy⟩⟩ := hR
  · refine ⟨fun hne => absurd hnull hne, fun hne => absurd hnull hne, fun _ _ => ⟨?_, ?_⟩⟩
    · have hb' : usedOf L' b t := (hused b t).mpr hb
      exact ⟨blockOwn_of_used hI' hb', (hI'.good.block hb').2⟩
    · intro q hq
      obtain ⟨e, he, rfl⟩ := mem_map.mp hq
      obtain ⟨d, v, hd, hblock, -⟩ := hlive e he
      rw [hd]
      exact hK.sameBytes hI hblock hblock
  · refine ⟨fun _ i hi => ?_, fun _ q hq hqp => ?_, fun hnull => ?_⟩
    · rw [hI.payloadSize hb] at hi
      rw [hc]
      exact hcopy t hb i (by omega) (by omega)
    · obtain ⟨e, he, rfl⟩ := mem_map.mp hq
      obtain ⟨d, v, hd, hblock, -⟩ := hlive e he
      rw [hd] at hqp ⊢
      exact hK.sameBytes hI hblock ⟨hblock, fun heq => hqp (by rw [heq])⟩
    · omega

/-- In every state that sound steps lead to, `krealloc` of a live pointer
keeps the bytes of all live payloads. -/
theorem realloc_preserves (mem : Mem) (grant : Option Nat) {fuel : Nat} (hfuel : heapFuel < fuel)
    (ops : List KOp) (hsound : Along (kstep fuel) Sound (kstart mem grant) ops) :
    ∃ s, run (kstep fuel) (kstart mem grant) ops = some s ∧
      ∀ p ∈ s.live.map Prod.fst, ∀ size g, size + 15 < 0x10000000000000000 →
        ∃ r, krealloc fuel s.heap p size g = some r ∧
          Preserved (s.live.map Prod.fst) s.heap p size r := by
  obtain ⟨s, hrun, L, hI, hlive⟩ := run_owned hfuel _ owned_kstart hsound
  refine ⟨s, hrun, fun p hp size g hsize => ?_⟩
  obtain ⟨e, he, rfl⟩ := List.mem_map.mp hp
  obtain ⟨b, t, hb, hblock, -⟩ := hlive e he
  rw [hb]
  by_cases hzero : size = 0
  · -- a plain release
    obtain ⟨h', hfree, -⟩ := kfree_spec hI hblock
    refine ⟨(h', 0), by simp [krealloc, hzero, hfree], ⟨fun hne => absurd rfl hne,
      fun hne => absurd rfl hne, fun _ hne => absurd hzero hne⟩⟩
  · obtain ⟨r, hr, hR⟩ := krealloc_spec hI hfuel hblock (Nat.pos_of_ne_zero hzero) hsize g
    exact ⟨r, hr, hR.preserved hI hlive hblock⟩

/-- Two allocations, and the first of them made larger. -/
theorem realloc_preserves_sample :
    ∃ s, run (kstep 2097154) (kstart (fun _ => 0) (some 4096))
        [.kmalloc 100 ⟨none, none⟩, .kmalloc 40 ⟨none, none⟩] = some s ∧
      4112 ∈ s.live.map Prod.fst ∧
      ∃ r, krealloc 2097154 s.heap 4112 500 ⟨none, none⟩ = some r ∧
        Preserved (s.live.map Prod.fst) s.heap 4112 500 r := by
  have hlive : (run (kstep 2097154) (kstart (fun _ => 0) (some 4096))
      [.kmalloc 100 ⟨none, none⟩, .kmalloc 40 ⟨none, none⟩]).map KState.live
      = some [(4240, 40), (4112, 100)] := by decide +kernel
  obtain ⟨s, hrun, hcall⟩ := realloc_preserves (fun _ => 0) (some 4096)
    (by decide : heapFuel < 2097154)
    [.kmalloc 100 ⟨none, none⟩, .kmalloc 40 ⟨none, none⟩]
    ⟨⟨trivial, (by decide : 100 + 15 < 0x10000000000000000)⟩, fun _ _ =>
      ⟨⟨trivial, (by decide : 40 + 15 < 0x10000000000000000)⟩, fun _ _ => trivial⟩⟩
  rw [hrun, Option.map_some, Option.some.injEq] at hlive
  have hmem : 4112 ∈ s.live.map Prod.fst := by simp [hlive]
  exact ⟨s, hrun, hmem, hcall 4112 hmem 500 ⟨none, none⟩ (by decide)⟩

/-- `krealloc(p, SIZE_MAX)` returns `p` and has written over its
payload. -/
theorem not_preserved_sizeMax :
    ∃ s r, run (kstep 2097154) (kstart (fun _ => 0) (some 4096))
        [.kmalloc 100 ⟨none, none⟩, .store 4112 7] = some s ∧ 4112 ∈ s.live.map Prod.fst ∧
      krealloc 2097154 s.heap 4112 0xffffffffffffffff ⟨none, none⟩ = some r ∧
      ¬ Preserved (s.live.map Prod.fst) s.heap 4112 0xffffffffffffffff r := by
  have heval : (run (kstep 2097154) (kstart (fun _ => 0) (some 4096))
      [.kmalloc 100 ⟨none, none⟩, .store 4112 7]).bind (fun s =>
        (krealloc 2097154 s.heap 4112 0xffffffffffffffff ⟨none, none⟩).map fun r =>
          (s.live, payloadSize s.heap 4112, getByte s.heap 4112, r.2, getByte r.1 4112))
      = some ([(4112, 100)], 112, 7, 4112, 0) := by decide +kernel
  obtain ⟨s, hrun, hmap⟩ := Option.bind_eq_some_iff.mp heval
  obtain ⟨r, hr, hpair⟩ := Option.map_eq_some_iff.mp hmap
  simp only [Prod.mk.injEq] at hpair
  obtain ⟨hlive, hsize, hold, hptr, hnew⟩ := hpair
  refine ⟨s, r, hrun, by simp [hlive], hr, fun hpres => ?_⟩
  have hbyte := hpres.moved (by omega) 0 (by omega)
  rw [hptr, add_zero, hold, hnew] at hbyte
  omega

end CoreZ.Proofs.Mm.Kheap
