import CoreZ.Fs.Ext4.Extents

/-!
# `CoreZ.Proofs.Fs.Ext4.JournalMap`: where the journal is

`jrnl_phys` knows the first two extents of the journal, and takes each of them
for 4096 blocks long. A third extent, a tree with index nodes, and the blocks of
an extent from the 4096th on are not found. The blocks behind a shorter first
extent are looked for behind it on the volume, wherever the second one is.

`Windows` puts this as a condition on the extents. It is necessary
(`windows_of_located`) and sufficient (`located_of_windows`) for `jrnl_phys` to
find every block of the journal.
-/

set_option autoImplicit false

namespace CoreZ.Proofs.Fs.Ext4.JournalMap

open CoreZ.Fs.Ext4 (jrnlPhys)
open CoreZ.Fs.Ext4.Extents

/-- The extents of a leaf on a valid volume: each goes on with the file block
after the one before, from block `b` on. They were written, and lie on the
volume behind its first block. -/
def Chain : (b : Nat) → List Extent → Prop
  | _, [] => True
  | b, e :: es => e.eeBlock = b ∧ b + e.eeLen < 4294967296 ∧ (0 < e.eeLen ∧ e.eeLen ≤ 32768) ∧
      (0 < e.eeStart ∧ e.eeStart + e.eeLen ≤ 4294967296) ∧ Chain (b + e.eeLen) es

/-- The layout of a journal of `len` blocks on a valid volume. -/
structure Layout (t : ExtNode) (len : Nat) : Prop where
  /-- Every block of the journal has a block of the volume. -/
  mapped : ∀ j < len, ∃ p, extLookup j t = some p ∧ p ≠ 0
  chain : ∀ es, t = .leaf es → Chain 0 es

/-- `jrnl_phys` finds every block where the tree has it. -/
def Located (t : ExtNode) (len : Nat) : Prop :=
  ∀ j < len, extLookup j t = some (jrnlPhys (ext4JournalMapInit t).2 j)

/-- What `jrnl_phys` needs of the extents `e :: es` of the journal. An extent
that starts below block 4096 starts where the first extent would go on. If the
journal is longer than 4096 blocks, the first extent has at most 4096 of them
and at most 4096 come after it; and an extent that ends behind block 4096
starts where the second one would go on. -/
structure Windows (e : Extent) (es : List Extent) (len : Nat) : Prop where
  low : ∀ e' ∈ es, e'.eeBlock < len → e'.eeBlock < 4096 → e'.eeStart = e.phys e'.eeBlock
  first : 4096 < len → e.eeLen ≤ 4096
  length : 4096 < len → len ≤ e.eeLen + 4096
  high : 4096 < len → ∀ e₁ ∈ es.head?, ∀ e' ∈ es, e'.eeBlock < len →
    4096 < e'.eeBlock + e'.eeLen → e'.eeStart = e₁.phys e'.eeBlock

/-- The tree of a journal that is not empty is one leaf, and its extents are
those of the windows. -/
def InWindows (t : ExtNode) (len : Nat) : Prop :=
  0 < len → ∃ e es, t = .leaf (e :: es) ∧ Windows e es len

/-! ### Extents of a leaf -/

variable {b j len : Nat} {e e' : Extent} {es : List Extent}

/-- Of a chain, each extent is a proper one and starts at `b` or behind it. -/
theorem Chain.mem (h : Chain b es) (he : e ∈ es) :
    b ≤ e.eeBlock ∧ e.eeBlock + e.eeLen < 4294967296 ∧ (0 < e.eeLen ∧ e.eeLen ≤ 32768) ∧
      (0 < e.eeStart ∧ e.eeStart + e.eeLen ≤ 4294967296) := by
  induction es generalizing b with
  | nil => cases he
  | cons e₀ es ih =>
    obtain ⟨hb, hfit, hlen, hstart, hrest⟩ := h
    obtain rfl | he := List.mem_cons.mp he
    · exact ⟨Nat.le_of_eq hb.symm, by omega, hlen, hstart⟩
    · obtain ⟨hle, hmem⟩ := ih hrest he
      exact ⟨by omega, hmem⟩

theorem Chain.holds_iff (h : Chain b es) (he : e ∈ es) :
    e.holds j = true ↔ e.eeBlock ≤ j ∧ j < e.eeBlock + e.eeLen := by
  obtain ⟨-, hfit, hlen, -⟩ := h.mem he
  unfold Extent.holds
  rw [decide_eq_true_eq, if_neg (by omega), Nat.mod_eq_of_lt hfit]

/-- `ext_lookup` finds the one extent that holds the block. -/
theorem Chain.find (h : Chain b es) (he : e ∈ es) (hlo : e.eeBlock ≤ j)
    (hhi : j < e.eeBlock + e.eeLen) : es.find? (Extent.holds · j) = some e := by
  induction es generalizing b with
  | nil => cases he
  | cons e₀ es ih =>
    have hold : ∀ e ∈ e₀ :: es, e.holds j = true ↔ _ := fun _ he => h.holds_iff he
    obtain ⟨hb, hfit, hlen, hstart, hrest⟩ := h
    obtain rfl | he := List.mem_cons.mp he
    · exact List.find?_cons_of_pos ((hold _ List.mem_cons_self).mpr ⟨hlo, hhi⟩)
    · -- the first extent ends where the others begin
      have hle := (hrest.mem he).1
      rw [List.find?_cons_of_neg fun hfirst => ?_]
      · exact ih hrest he
      · have := ((hold _ List.mem_cons_self).mp hfirst).2
        omega

theorem Chain.lookup (h : Chain b es) (he : e ∈ es) (hlo : e.eeBlock ≤ j)
    (hhi : j < e.eeBlock + e.eeLen) : extLookup j (.leaf es) = some (e.phys j) := by
  unfold extLookup
  rw [h.find he hlo hhi]
  rfl

/-- A block that the leaf maps is in one of its extents. -/
theorem Chain.exists_mem (h : Chain b es) {p : Nat} (hp : extLookup j (.leaf es) = some p) :
    ∃ e ∈ es, e.eeBlock ≤ j ∧ j < e.eeBlock + e.eeLen := by
  unfold extLookup at hp
  obtain ⟨e, hfind, -⟩ := Option.map_eq_some_iff.mp hp
  have he := List.mem_of_find?_eq_some hfind
  have hholds : e.holds j = true := List.find?_some (p := (Extent.holds · j)) hfind
  exact ⟨e, he, (h.holds_iff he).mp hholds⟩

/-- An extent that starts where `e` would go on has its blocks where `e` would
have them. -/
theorem phys_of_start (h : e'.eeStart = e.phys e'.eeBlock) (hlo : e.eeBlock ≤ e'.eeBlock)
    (hj : e'.eeBlock ≤ j) : e'.phys j = e.phys j := by
  unfold Extent.phys at *
  omega

/-- And the other way round, from one of its blocks. -/
theorem start_of_phys (h : e'.phys j = e.phys j) (hstart : e'.eeStart < 4294967296)
    (hlo : e.eeBlock ≤ e'.eeBlock) (hj : e'.eeBlock ≤ j) : e'.eeStart = e.phys e'.eeBlock := by
  unfold Extent.phys at *
  omega

/-- The map of a leaf has its first two extents. -/
theorem jrnlPhys_leaf (h : Chain 0 (e :: es)) (j : Nat) :
    jrnlPhys (ext4JournalMapInit (.leaf (e :: es))).2 j
      = if j < 4096 then e.phys j
        else es.head?.elim 0 fun e' =>
          if e'.eeBlock ≤ j ∧ j < (e'.eeBlock + 4096) % 4294967296 then e'.phys j else 0 := by
  have hzero : e.eeBlock = 0 := h.1
  have hkeep : ∀ e' ∈ e :: es, ¬ (e'.eeLen = 0 ∨ 32768 < e'.eeLen) := by
    intro e' he'
    have := (h.mem he').2.2.1
    omega
  have he := hkeep e List.mem_cons_self
  cases es with
  | nil => simp [ext4JournalMapInit, journalMapLoop, he, hzero, jrnlPhys, Extent.phys]
  | cons e' rest =>
    have he' := hkeep e' (List.mem_cons_of_mem _ List.mem_cons_self)
    simp [ext4JournalMapInit, journalMapLoop, he, he', hzero, jrnlPhys, Extent.phys]

/-! ### The exact condition -/

/-- If every block is found, the extents are in the windows. The second window
begins where the first extent ends. -/
theorem windows_of_located (h : Layout (.leaf (e :: es)) len)
    (hlocated : Located (.leaf (e :: es)) len) : Windows e es len := by
  have hchain := h.chain _ rfl
  obtain ⟨hzero, -, -, -, hrest⟩ := id hchain
  have hmem : ∀ e' ∈ es, e' ∈ e :: es := fun e' he' => List.mem_cons_of_mem e he'
  -- a block from 4096 on is found in the second window
  have hsecond : ∀ j < len, 4096 ≤ j → ∃ e₁ ∈ es.head?, e₁.eeBlock = e.eeLen ∧ e.eeLen ≤ j ∧
      j < (e.eeLen + 4096) % 4294967296 ∧ extLookup j (.leaf (e :: es)) = some (e₁.phys j) := by
    intro j hj hhigh
    obtain ⟨p, hp, hne⟩ := h.mapped j hj
    have hat := hlocated j hj
    rw [jrnlPhys_leaf hchain, if_neg (by omega)] at hat
    rw [hp] at hat
    have hat := Option.some.inj hat
    cases es with
    | nil => exact absurd hat hne
    | cons e₁ rest =>
      have hblock : e₁.eeBlock = e.eeLen := by
        have := hrest.1
        omega
      simp only [List.head?_cons, Option.elim_some] at hat
      split at hat
      next hin =>
        rw [hblock] at hin
        exact ⟨e₁, rfl, hblock, hin.1, hin.2, by rw [hp, hat]⟩
      next => exact absurd hat hne
  refine ⟨fun e' he' hin hlow => ?_, fun hlong => ?_, fun hlong => ?_,
    fun hlong e₁ he₁ e' he' hin hend => ?_⟩
  · obtain ⟨-, -, hlen, hstart⟩ := hchain.mem (hmem e' he')
    have hat := hlocated e'.eeBlock hin
    rw [hchain.lookup (hmem e' he') (Nat.le_refl _) (by omega), jrnlPhys_leaf hchain, if_pos hlow]
      at hat
    exact start_of_phys (Option.some.inj hat) (by omega) (by omega) (Nat.le_refl _)
  · obtain ⟨e₁, -, -, hle, -⟩ := hsecond 4096 hlong (Nat.le_refl _)
    exact hle
  · obtain ⟨-, -, -, -, hlast, -⟩ := hsecond (len - 1) (by omega) (by omega)
    have := (hchain.mem List.mem_cons_self).2.2.1
    omega
  · obtain ⟨-, hfit, hlen, hstart⟩ := hchain.mem (hmem e' he')
    -- the first block of the extent that is not below 4096
    obtain ⟨e₂, he₂, hblock, -, -, hat⟩ := hsecond (max 4096 e'.eeBlock) (by omega) (by omega)
    cases he₁.symm.trans he₂
    rw [hchain.lookup (hmem e' he') (by omega) (by omega)] at hat
    have hle := (hrest.mem he').1
    exact start_of_phys (Option.some.inj hat) (by omega) (by omega) (by omega)

theorem located_of_windows (h : Layout (.leaf (e :: es)) len) (hwin : Windows e es len) :
    Located (.leaf (e :: es)) len := by
  have hchain := h.chain _ rfl
  obtain ⟨hzero, -, -, -, hrest⟩ := id hchain
  intro j hj
  obtain ⟨p, hp, -⟩ := h.mapped j hj
  obtain ⟨e', he', hlo, hhi⟩ := hchain.exists_mem hp
  rw [hchain.lookup he' hlo hhi, jrnlPhys_leaf hchain]
  by_cases hlow : j < 4096
  · rw [if_pos hlow]
    obtain rfl | he' := List.mem_cons.mp he'
    · rfl
    · have hstart := hwin.low e' he' (by omega) (by omega)
      rw [phys_of_start hstart (by omega) hlo]
  · rw [if_neg hlow]
    have hfirst := hwin.first (by omega)
    have hlength := hwin.length (by omega)
    obtain rfl | he' := List.mem_cons.mp he'
    · omega
    obtain ⟨e₁, rest, rfl⟩ : ∃ e₁ rest, es = e₁ :: rest :=
      List.exists_cons_of_ne_nil (List.ne_nil_of_mem he')
    have hblock := hrest.1
    have hstart := hwin.high (by omega) e₁ rfl e' he' (by omega) (by omega)
    have hle := (hrest.mem he').1
    rw [List.head?_cons, Option.elim_some, if_pos (by omega),
      phys_of_start hstart (by omega) hlo]

/-- On a valid volume `jrnl_phys` agrees with the extent tree exactly if the
extents of the journal are in the two windows. -/
theorem journal_located_iff (t : ExtNode) (len : Nat) (h : Layout t len) :
    Located t len ↔ InWindows t len := by
  constructor
  · intro hlocated hpos
    -- a block that is not found is taken for block 0, and the tree maps none to it
    have hfound : jrnlPhys (ext4JournalMapInit t).2 0 ≠ 0 := by
      intro hnone
      obtain ⟨p, hp, hne⟩ := h.mapped 0 hpos
      have hat := hlocated 0 hpos
      rw [hp, hnone] at hat
      exact hne (Option.some.inj hat)
    obtain es | kids := t
    · obtain _ | ⟨e, es⟩ := es
      · exact absurd rfl hfound
      · exact ⟨e, es, rfl, windows_of_located h hlocated⟩
    · exact absurd rfl hfound
  · intro hwin j hj
    obtain ⟨e, es, rfl, hext⟩ := hwin (by omega)
    exact located_of_windows h hext j hj

/-- One extent of 5000 blocks. -/
def longExtent : ExtNode := .leaf [⟨0, 5000, 100⟩]

theorem layout_longExtent {len : Nat} (hlen : len ≤ 5000) : Layout longExtent len where
  mapped j hj := by
    refine ⟨100 + j, ?_, by omega⟩
    have hin : j < 5000 := by omega
    have hmod : (100 + j) % 4294967296 = 100 + j := by omega
    simp [longExtent, extLookup, Extent.holds, Extent.phys, hin, hmod]
  chain es hes := by
    obtain rfl := ExtNode.leaf.inj hes
    simp [Chain]

/-- A journal of 4096 blocks. -/
theorem journal_located_iff_longExtent :
    Layout longExtent 4096 ∧ (Located longExtent 4096 ↔ InWindows longExtent 4096) :=
  ⟨layout_longExtent (by omega), journal_located_iff longExtent 4096 (layout_longExtent (by omega))⟩

/-- With 5000 blocks, block 4096 is not found. -/
theorem not_located_longExtent : Layout longExtent 5000 ∧ ¬ Located longExtent 5000 :=
  ⟨layout_longExtent (by omega), fun h => absurd (h 4096 (by omega)) (by decide +kernel)⟩

end CoreZ.Proofs.Fs.Ext4.JournalMap
