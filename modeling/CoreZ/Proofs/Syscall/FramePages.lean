import Mathlib.Tactic.SplitIfs
import CoreZ.Syscall.Signal

/-!
# `CoreZ.Proofs.Syscall.FramePages`: the pages of a signal frame

`deliver_signal` lets `ensure_user_page` see every page of the frame and
then copies the frame. Both can fault. `ensure_user_page` faults at a page
under a 2 MiB entry of a device (`lost`), and the copy at a page that the
kernel cannot store to; `isr_handler` ends the task if the fault is in user
space and stops the machine otherwise.

`made` is what `ensure_user_page` does to a page. `ensurePages_eq` says how
the loop ends: at the first page that faults (`firstLost`), or at its bound
with all pages made. The loop counts with 32 bits, so with a bound above the
last page it goes through all pages and always meets the I/O APIC
(`pushFrame_endless`). With an ordinary bound the copy decides, and what it
does depends on the first and the last page of the frame as they were
before the loop (`pushFrame_short`).
-/

set_option autoImplicit false

namespace CoreZ.Proofs.Syscall

open CoreZ.Mm.Cow (Pte Frame present writable isUser isCow inMemory frameOf physOf pteWx pteP pteU
  pteW pteNx cowFlag cowKeep userStart userEnd)
open CoreZ.Syscall
open Function
open BitVec (ofNat toNat_add toNat_ofNat lt_def toNat_setWidth)

/-! ### What decides about a page -/

/-- `get_a_page` can map the page: it has a free bit in the bitmap, and there
is a frame for it. -/
def Mappable (u : UserPages) (v : Nat) : Prop :=
  userStart ≤ v ∧ v - userStart < u.bits ∧ u.used v = false ∧ (u.frames v).isSome
  deriving Decidable

/-- The page is one of copy-on-write, and `page_cow_resolve` can give the
process a frame of its own for it. -/
def Resolvable (u : UserPages) (v : Nat) : Prop :=
  userStart ≤ v ∧ v < userEnd ∧ isCow (u.pte v) = true ∧ inMemory (frameOf (u.pte v)) = true ∧
    (u.owned v = true ∨ (u.frames v).isSome)
  deriving Decidable

/-- The kernel can store to the page once `ensure_user_page` has seen it. -/
def Storable (u : UserPages) (v : Nat) : Prop :=
  u.large v = true ∨
    if present (u.pte v) then writable (u.pte v) = true ∨ Resolvable u v else Mappable u v
  deriving Decidable

/-- The page is no page of the kernel. An absent page is mapped for the
user. -/
def ForUser (u : UserPages) (v : Nat) : Prop :=
  u.large v = false ∧ (present (u.pte v) = true → isUser (u.pte v) = true)
  deriving Decidable

/-- The first fault of `ensure_user_page` in the `n` pages from `p` on, which
start over behind the last one. -/
def firstLost (lost : Nat → Option Nat) : (p n : Nat) → Option Nat
  | _, 0 => none
  | p, n + 1 => (lost (p % 0x100000)).or (firstLost lost (p + 1) n)

/-! ### One page -/

variable {u w : UserPages} {v x p n : Nat}

/-- The pages after `ensure_user_page`, if it does not fault. -/
def made (u : UserPages) (v : Nat) : UserPages :=
  if present (u.pte v) then u else (getAPage u v).1

/-- A page behind a lost table: the fault ends the task. -/
theorem ensureUserPage_of_lost {vaddr : BitVec 32} {t : Nat} (hv : vaddr.toNat / pageSize = v)
    (h : u.lost v = some t) : ensureUserPage u vaddr = .error (isrHandler t) := by
  unfold ensureUserPage
  simp only [hv, h]

/-- Otherwise the page is there afterwards. -/
theorem ensureUserPage_of_none {vaddr : BitVec 32} (hv : vaddr.toNat / pageSize = v)
    (h : u.lost v = none) : ∃ b, ensureUserPage u vaddr = .ok (made u v, b) := by
  unfold ensureUserPage made
  simp only [hv, h]
  split
  · exact ⟨true, rfl⟩
  · exact ⟨_, rfl⟩

/-- What `get_a_page` and `ensure_user_page` do to page `v`. -/
theorem made_cases (u : UserPages) (v : Nat) :
    (made u v = u ∧ (present (u.pte v) = true ∨ ¬ Mappable u v)) ∨
      (present (u.pte v) = false ∧ Mappable u v ∧ ∃ f, made u v =
        { u with
          used := update u.used v true
          pte := update u.pte v (physOf f ||| pteWx u.nxUsable (pteP ||| pteU) true false) }) := by
  unfold made
  split
  next hp => exact .inl ⟨rfl, .inl hp⟩
  next hp =>
  have hp : present (u.pte v) = false := by simpa using hp
  unfold getAPage
  split
  next hout => exact .inl ⟨rfl, .inr fun h => hout ⟨h.1, h.2.1⟩⟩
  next hin =>
  split
  next hused =>
    refine .inl ⟨rfl, .inr fun h => ?_⟩
    rw [h.2.2.1] at hused
    cases hused
  next hfree =>
  obtain ⟨hlo, hhi⟩ := Decidable.not_not.mp hin
  cases hf : u.frames v with
  | none =>
    refine .inl ⟨rfl, .inr fun h => ?_⟩
    rw [Mappable, hf] at h
    cases h.2.2.2
  | some f => exact .inr ⟨hp, ⟨hlo, hhi, by simpa using hfree, by rw [hf]; rfl⟩, f, rfl⟩

/-- The spaces differ at most in their entries and bitmaps. -/
structure SameRest (u w : UserPages) : Prop where
  nx : w.nxUsable = u.nxUsable
  large : w.large = u.large
  lost : w.lost = u.lost
  bits : w.bits = u.bits
  owned : w.owned = u.owned
  frames : w.frames = u.frames

theorem SameRest.refl (u : UserPages) : SameRest u u := ⟨rfl, rfl, rfl, rfl, rfl, rfl⟩

theorem SameRest.trans {t : UserPages} (h : SameRest u w) (h' : SameRest w t) : SameRest u t :=
  ⟨h'.nx.trans h.nx, h'.large.trans h.large, h'.lost.trans h.lost, h'.bits.trans h.bits,
    h'.owned.trans h.owned, h'.frames.trans h.frames⟩

/-- Making a page touches no other one. -/
theorem made_sameRest (u : UserPages) (v : Nat) : SameRest u (made u v) := by
  obtain ⟨h, -⟩ | ⟨-, -, f, h⟩ := made_cases u v
  · rw [h]
    exact .refl u
  · rw [h]
    exact ⟨rfl, rfl, rfl, rfl, rfl, rfl⟩

/-- `ensure_user_page` leaves the other pages. -/
theorem made_other (u : UserPages) (hx : x ≠ v) :
    (made u v).pte x = u.pte x ∧ (made u v).used x = u.used x := by
  obtain ⟨h, -⟩ | ⟨-, -, f, h⟩ := made_cases u v
  · rw [h]
    exact ⟨rfl, rfl⟩
  · rw [h]
    exact ⟨update_of_ne hx _ _, update_of_ne hx _ _⟩

/-- What it does to a page depends on nothing of the other pages. -/
theorem made_pte_congr (h : SameRest u w) (hpte : w.pte v = u.pte v) (hused : w.used v = u.used v) :
    (made w v).pte v = (made u v).pte v := by
  unfold made getAPage
  rw [hpte, hused, h.bits, h.frames, h.nx]
  split
  · exact hpte
  split
  · exact hpte
  split
  · exact hpte
  cases u.frames v with
  | none => exact hpte
  | some f =>
    show update w.pte v _ v = update u.pte v _ v
    rw [update_self, update_self]

/-- A page that `get_a_page` has mapped is a user page and can be stored
to. -/
theorem newPte_bits (nx : Bool) (f : Frame) :
    present (physOf f ||| pteWx nx (pteP ||| pteU) true false) = true ∧
      isUser (physOf f ||| pteWx nx (pteP ||| pteU) true false) = true ∧
      writable (physOf f ||| pteWx nx (pteP ||| pteU) true false) = true := by
  cases nx <;> simp [present, isUser, writable, pteWx, pteP, pteU, pteW, pteNx]

/-! ### The loop -/

/-- The pages after the loop has gone through `n` pages from `p` on. -/
def makes : UserPages → (p n : Nat) → UserPages
  | u, _, 0 => u
  | u, p, n + 1 => makes (made u (p % 0x100000)) (p + 1) n

/-- How the loop ends. It goes on for `n` pages, and has met a page that
faults or is at its end then. -/
theorem ensurePages_eq (stop : BitVec 64) (n p rounds : Nat) (u : UserPages) (fp : BitVec 32)
    (hrounds : n < rounds) (hfp : fp.toNat = p % 0x100000 * pageSize)
    (hgo : ∀ k < n, (p + k) % 0x100000 * pageSize < stop.toNat)
    (hend : firstLost u.lost p n = none → stop.toNat ≤ (p + n) % 0x100000 * pageSize) :
    ensurePages rounds u fp stop =
      (firstLost u.lost p n).elim (.ok (makes u p n)) fun t => .error (isrHandler t) := by
  have hwide : (fp.setWidth 64).toNat = fp.toNat := by
    rw [toNat_setWidth]
    omega
  -- on the number of pages from `p` to the end of the frame
  induction n generalizing p rounds u fp with
  | zero =>
    obtain ⟨m, rfl⟩ : ∃ m, rounds = m + 1 := ⟨rounds - 1, by omega⟩
    have hstop : ¬ fp.setWidth 64 < stop := by
      rw [lt_def, hwide, hfp]
      exact Nat.not_lt.mpr (hend rfl)
    exact if_neg hstop
  | succ n ih =>
    obtain ⟨m, rfl⟩ : ∃ m, rounds = m + 1 := ⟨rounds - 1, by omega⟩
    have hbelow : fp.setWidth 64 < stop := by
      rw [lt_def, hwide, hfp]
      exact hgo 0 (Nat.succ_pos n)
    have hpage : fp.toNat / pageSize = p % 0x100000 := by
      rw [hfp]
      exact Nat.mul_div_cancel _ (by decide)
    unfold ensurePages
    rw [if_pos hbelow]
    simp only [firstLost] at hend ⊢
    cases hlost : u.lost (p % 0x100000) with
    | some t =>
      rw [ensureUserPage_of_lost hpage hlost]
      rfl
    | none =>
      obtain ⟨b, hmade⟩ := ensureUserPage_of_none hpage hlost
      rw [hlost] at hend
      have hrest := made_sameRest u (p % 0x100000)
      have hnext : (fp + 0x1000#32).toNat = (p + 1) % 0x100000 * pageSize := by
        rw [toNat_add, toNat_ofNat, hfp]
        unfold pageSize
        omega
      have hih := ih (p + 1) m (made u (p % 0x100000)) (fp + 0x1000#32) (by omega) hnext
        (fun k hk => by
          rw [Nat.add_right_comm, Nat.add_assoc]
          exact hgo (k + 1) (by omega))
        (fun h => by
          rw [hrest.lost] at h
          rw [Nat.add_right_comm, Nat.add_assoc]
          exact hend h)
        (by rw [toNat_setWidth]; omega)
      rw [hrest.lost] at hih
      rw [hmade]
      exact hih

/-- The I/O APIC stops a loop through all pages. -/
theorem firstLost_isSome (lost : Nat → Option Nat) {k : Nat} (hk : k < n)
    (h : (lost ((p + k) % 0x100000)).isSome) : (firstLost lost p n).isSome := by
  induction n generalizing p k with
  | zero => exact absurd hk (Nat.not_lt_zero k)
  | succ n ih =>
    unfold firstLost
    cases hp : lost (p % 0x100000) with
    | some t => rfl
    | none =>
      rw [Option.none_or]
      cases k with
      | zero =>
        rw [Nat.add_zero, hp] at h
        cases h
      | succ k => exact ih (Nat.lt_of_succ_lt_succ hk) (by rwa [Nat.add_right_comm, Nat.add_assoc])

theorem makes_sameRest (u : UserPages) (p n : Nat) : SameRest u (makes u p n) := by
  induction n generalizing u p with
  | zero => exact .refl u
  | succ n ih => exact (made_sameRest u _).trans (ih _ _)

/-- The loop leaves the pages before it. -/
theorem makes_below (u : UserPages) (hx : x < p) (hfit : p + n ≤ 0x100000) :
    (makes u p n).pte x = u.pte x ∧ (makes u p n).used x = u.used x := by
  induction n generalizing u p with
  | zero => exact ⟨rfl, rfl⟩
  | succ n ih =>
    have h := ih (made u (p % 0x100000)) (p := p + 1) (by omega) (by omega)
    have hne : x ≠ p % 0x100000 := by
      rw [Nat.mod_eq_of_lt (by omega)]
      omega
    have hother := made_other u hne
    exact ⟨h.1.trans hother.1, h.2.trans hother.2⟩

/-- The entry of each page of the loop. -/
theorem makes_pte {k : Nat} (u : UserPages) (hk : k < n) (hfit : p + n ≤ 0x100000) :
    (makes u p n).pte (p + k) = (made u (p + k)).pte (p + k) := by
  induction n generalizing u p k with
  | zero => exact absurd hk (Nat.not_lt_zero k)
  | succ n ih =>
    have hp : p % 0x100000 = p := Nat.mod_eq_of_lt (by omega)
    unfold makes
    rw [hp]
    cases k with
    | zero => exact (makes_below _ (Nat.lt_succ_self p) (by omega)).1
    | succ k =>
      rw [← Nat.add_assoc, Nat.add_right_comm, ih (made u p) (Nat.lt_of_succ_lt_succ hk) (by omega)]
      have hother := made_other u (show p + 1 + k ≠ p by omega)
      exact made_pte_congr (made_sameRest u p) hother.1 hother.2

/-! ### The copy -/

/-- The kernel can store to the page. -/
def Takes (u : UserPages) (v : Nat) : Prop :=
  u.large v = true ∨ (present (u.pte v) = true ∧ (writable (u.pte v) = true ∨ Resolvable u v))
  deriving Decidable

/-- A page that `page_cow_resolve` has changed: it stays present and keeps
its user bit, and it is writable. -/
theorem resolved_bits (e : Pte) (f : Frame) :
    (present ((e &&& ~~~cowFlag) ||| pteW) = present e ∧
      isUser ((e &&& ~~~cowFlag) ||| pteW) = isUser e ∧
      writable ((e &&& ~~~cowFlag) ||| pteW) = true) ∧
    (present (physOf f ||| (e &&& cowKeep) ||| pteW) = present e ∧
      isUser (physOf f ||| (e &&& cowKeep) ||| pteW) = isUser e ∧
      writable (physOf f ||| (e &&& cowKeep) ||| pteW) = true) := by
  simp [present, isUser, writable, physOf, pteW, cowFlag, cowKeep]

/-- What a store leaves: the other pages, and of its own page what decides
whether it is a user page. -/
structure Stored (u w : UserPages) (v : Nat) : Prop where
  rest : SameRest u w
  other : ∀ x, x ≠ v → w.pte x = u.pte x
  present : present (w.pte v) = present (u.pte v)
  isUser : isUser (w.pte v) = isUser (u.pte v)
  takes : Takes w v

/-- A store to a page that takes it. -/
theorem storePage_of_takes (h : Takes u v) : ∃ w, storePage u v = .ok w ∧ Stored u w v := by
  unfold storePage
  by_cases hnow : u.large v = true ∨ (present (u.pte v) = true ∧ writable (u.pte v) = true)
  · rw [if_pos hnow]
    exact ⟨u, rfl, .refl u, fun _ _ => rfl, rfl, rfl, h⟩
  rw [if_neg hnow]
  obtain hlarge | ⟨hp, hw | hres⟩ := h
  · exact absurd (.inl hlarge) hnow
  · exact absurd (.inr ⟨hp, hw⟩) hnow
  obtain ⟨hlo, hhi, hcow, hmem, hframe⟩ := hres
  -- any entry with these bits does
  have hset : ∀ e, Mm.Cow.present e = Mm.Cow.present (u.pte v) →
      Mm.Cow.isUser e = Mm.Cow.isUser (u.pte v) → writable e = true →
      Stored u (u.setPte v e) v := by
    intro e hpe hue hwe
    have hself : (u.setPte v e).pte v = e := by
      show update u.pte v e v = e
      exact update_self ..
    have hother : ∀ x, x ≠ v → (u.setPte v e).pte x = u.pte x := by
      intro x hx
      show update u.pte v e x = u.pte x
      exact update_of_ne hx ..
    refine ⟨⟨rfl, rfl, rfl, rfl, rfl, rfl⟩, hother, ?_, ?_, ?_⟩
    · rw [hself, hpe]
    · rw [hself, hue]
    · exact .inr ⟨by rw [hself, hpe, hp], .inl (by rw [hself, hwe])⟩
  rw [if_pos ⟨hlo, hhi, hp, hcow⟩]
  unfold pageCowResolve
  simp only [hmem, Bool.true_eq_false, if_false]
  by_cases hown : u.owned v = true
  · rw [if_pos hown]
    obtain ⟨⟨hpe, hue, hwe⟩, -⟩ := resolved_bits (u.pte v) 0
    exact ⟨_, rfl, hset _ hpe hue hwe⟩
  · rw [if_neg hown]
    obtain ⟨f, hf⟩ := Option.isSome_iff_exists.mp (hframe.resolve_left hown)
    rw [hf]
    obtain ⟨-, hpe, hue, hwe⟩ := resolved_bits (u.pte v) f
    exact ⟨_, rfl, hset _ hpe hue hwe⟩

/-- A store to any other page faults. -/
theorem storePage_of_not_takes (h : ¬ Takes u v) : storePage u v = .error (isrHandler v) := by
  unfold storePage
  split
  next hnow =>
    exact absurd (hnow.imp id fun hpw => ⟨hpw.1, .inl hpw.2⟩) h
  next hnow =>
  split
  next hcow =>
    obtain ⟨hlo, hhi, hp, hc⟩ := hcow
    simp only [pageCowResolve]
    split_ifs with hmem hown
    · rfl
    · exact absurd (.inr ⟨hp, .inr ⟨hlo, hhi, hc, by simpa using hmem, .inl hown⟩⟩) h
    cases hf : u.frames v with
    | none => rfl
    | some f =>
      have hmem : inMemory (frameOf (u.pte v)) = true := by simpa using hmem
      exact absurd (.inr ⟨hp, .inr ⟨hlo, hhi, hc, hmem, .inr (by rw [hf]; rfl)⟩⟩) h
  · rfl

/-- Storing to a page leaves what the kernel can do with the others. -/
theorem Stored.takes_iff (h : Stored u w v) (hx : x ≠ v) : Takes w x ↔ Takes u x := by
  unfold Takes Resolvable
  rw [h.other x hx, h.rest.large, h.rest.owned, h.rest.frames]

/-- A store takes no page away. -/
theorem Stored.isUserPage_iff (h : Stored u w v) (x : Nat) : w.IsUserPage x ↔ u.IsUserPage x := by
  unfold UserPages.IsUserPage
  rw [h.rest.large]
  by_cases hx : x = v
  · rw [hx, h.present, h.isUser]
  · rw [h.other x hx]

section

variable {addr : BitVec 64} {len first last : Nat} (hfirst : addr.toNat / pageSize = first)
  (hlast : (addr + ofNat 64 (len - 1)).toNat / pageSize = last)

include hfirst hlast

/-- The copy of a frame: it faults at the first of its pages that cannot be
stored to, or leaves every user page one. -/
theorem copyFrame_cases (u : UserPages) :
    (¬ Takes u first ∧ copyFrame u addr len = .error (isrHandler first)) ∨
    (Takes u first ∧ ¬ Takes u last ∧ copyFrame u addr len = .error (isrHandler last)) ∨
    (Takes u first ∧ Takes u last ∧
      ∃ w, copyFrame u addr len = .ok w ∧ ∀ v, w.IsUserPage v ↔ u.IsUserPage v) := by
  unfold copyFrame
  rw [hfirst, hlast]
  by_cases hf : ¬ Takes u first
  · rw [storePage_of_not_takes hf]
    exact .inl ⟨hf, rfl⟩
  have hf : Takes u first := Decidable.not_not.mp hf
  obtain ⟨t, ht, hstored⟩ := storePage_of_takes hf
  rw [ht]
  have htakes : Takes t last ↔ Takes u last := by
    by_cases hsame : last = first
    · rw [hsame]
      exact iff_of_true hstored.takes hf
    · exact hstored.takes_iff hsame
  by_cases hl : Takes u last
  · obtain ⟨w, hw, hstored'⟩ := storePage_of_takes (htakes.mpr hl)
    refine .inr (.inr ⟨hf, hl, w, hw, fun v => ?_⟩)
    exact (hstored'.isUserPage_iff v).trans (hstored.isUserPage_iff v)
  · exact .inr (.inl ⟨hf, hl, storePage_of_not_takes (mt htakes.mp hl)⟩)

end

section

variable (hrest : SameRest u w) (hpte : w.pte v = (made u v).pte v)

include hrest hpte

/-- Whether the kernel can store to a page that the loop has seen. -/
theorem takes_iff_storable : Takes w v ↔ Storable u v := by
  unfold Takes Storable
  rw [hrest.large]
  refine or_congr_right ?_
  obtain ⟨hmade, hcase⟩ | ⟨habsent, hmap, f, hmade⟩ := made_cases u v
  · have hres : Resolvable w v ↔ Resolvable u v := by
      unfold Resolvable
      rw [hpte, hmade, hrest.owned, hrest.frames]
    rw [hpte, hmade, hres]
    by_cases hp : present (u.pte v) = true
    · rw [if_pos hp]
      exact and_iff_right hp
    · rw [if_neg hp]
      exact iff_of_false (fun h => hp h.1) (hcase.resolve_left hp)
  · have hnew : w.pte v = physOf f ||| pteWx u.nxUsable (pteP ||| pteU) true false := by
      rw [hpte, hmade]
      exact update_self ..
    obtain ⟨hp, -, hw⟩ := newPte_bits u.nxUsable f
    rw [habsent, if_neg (by decide), hnew]
    exact iff_of_true ⟨hp, .inl hw⟩ hmap

/-- Whether it is a user page then. -/
theorem isUserPage_iff_forUser (hstorable : Storable u v) : w.IsUserPage v ↔ ForUser u v := by
  unfold UserPages.IsUserPage ForUser
  rw [hrest.large]
  refine and_congr_right fun hlarge => ?_
  obtain ⟨hmade, hcase⟩ | ⟨habsent, hmap, f, hmade⟩ := made_cases u v
  · rw [hpte, hmade]
    -- an absent page that could not be mapped could not be stored to
    have hp : present (u.pte v) = true := by
      refine hcase.elim id fun hunmapped => ?_
      obtain h | h := hstorable
      · rw [hlarge] at h
        cases h
      · by_contra hp
        rw [if_neg hp] at h
        exact hunmapped h
    exact ⟨fun h _ => h.2, fun h => ⟨hp, h hp⟩⟩
  · have hnew : w.pte v = physOf f ||| pteWx u.nxUsable (pteP ||| pteU) true false := by
      rw [hpte, hmade]
      exact update_self ..
    obtain ⟨hp, hu, -⟩ := newPte_bits u.nxUsable f
    rw [hnew, habsent]
    exact iff_of_true ⟨hp, hu⟩ fun h => absurd h (by decide)

end

/-! ### The loop and the copy -/

section

variable {addr stop : BitVec 64} {base : BitVec 32} {len : Nat}
  (hbase : base.toNat = addr.toNat / pageSize % 0x100000 * pageSize)

include hbase

/-- A bound above the last page: the loop meets a page that faults. -/
theorem pushFrame_endless (u : UserPages) (len : Nat) (hstop : 0xfffff000 < stop.toNat) :
    ∃ t, firstLost u.lost (addr.toNat / pageSize) 0x100000 = some t ∧
      pushFrame u base stop addr len = .error (isrHandler t) := by
  -- the page of the I/O APIC is at most 2^20 pages away
  have hsome := firstLost_isSome u.lost (p := addr.toNat / pageSize) (n := 0x100000)
    (k := (0x140000 - addr.toNat / pageSize % 0x100000) % 0x100000) (by omega)
    (by
      rw [show (addr.toNat / pageSize + (0x140000 - addr.toNat / pageSize % 0x100000) % 0x100000) %
        0x100000 = 0x40000 by omega, u.ioapic]
      rfl)
  obtain ⟨t, ht⟩ := Option.isSome_iff_exists.mp hsome
  refine ⟨t, ht, ?_⟩
  unfold pushFrame
  rw [ensurePages_eq stop 0x100000 (addr.toNat / pageSize) allRounds u base (by decide)
    hbase (fun k _ => by unfold pageSize; omega) (fun h => by rw [ht] at h; cases h), ht]
  rfl

variable (hlen : 0 < len) (hshort : len < pageSize) (hstop : stop.toNat = addr.toNat + len)
  (hend : stop.toNat ≤ 0xfffff000)

include hlen hshort hstop hend

/-- The loop over the pages of a frame with an ordinary end. -/
theorem ensurePages_short (u : UserPages) :
    ensurePages allRounds u base stop =
      (firstLost u.lost (addr.toNat / pageSize)
        ((stop.toNat + 0xfff) / pageSize - addr.toNat / pageSize)).elim
        (.ok (makes u (addr.toNat / pageSize)
          ((stop.toNat + 0xfff) / pageSize - addr.toNat / pageSize)))
        fun t => .error (isrHandler t) := by
  unfold pageSize at *
  exact ensurePages_eq _ _ _ _ u base (by unfold allRounds; omega) hbase
    (fun k hk => by unfold pageSize; omega) (fun _ => by unfold pageSize; omega)

/-- The copy of a frame with an ordinary end, after a loop without a fault:
the two pages that it stores to, as they were before the loop. -/
theorem pushFrame_short (u : UserPages)
    (hlost : firstLost u.lost (addr.toNat / pageSize)
      ((stop.toNat + 0xfff) / pageSize - addr.toNat / pageSize) = none) :
    (¬ Storable u (addr.toNat / pageSize) ∧
      pushFrame u base stop addr len = .error (isrHandler (addr.toNat / pageSize))) ∨
    (Storable u (addr.toNat / pageSize) ∧ ¬ Storable u ((addr.toNat + len - 1) / pageSize) ∧
      pushFrame u base stop addr len = .error (isrHandler ((addr.toNat + len - 1) / pageSize))) ∨
    (Storable u (addr.toNat / pageSize) ∧ Storable u ((addr.toNat + len - 1) / pageSize) ∧
      ∃ w, pushFrame u base stop addr len = .ok w ∧
        (w.IsUserPage (addr.toNat / pageSize) ↔ ForUser u (addr.toNat / pageSize)) ∧
        (w.IsUserPage ((addr.toNat + len - 1) / pageSize) ↔
          ForUser u ((addr.toNat + len - 1) / pageSize))) := by
  have hpush : pushFrame u base stop addr len = copyFrame (makes u (addr.toNat / pageSize)
      ((stop.toNat + 0xfff) / pageSize - addr.toNat / pageSize)) addr len := by
    unfold pushFrame
    rw [ensurePages_short hbase hlen hshort hstop hend u, hlost]
    rfl
  have hlastByte : (addr + ofNat 64 (len - 1)).toNat / pageSize =
      (addr.toNat + len - 1) / pageSize := by
    unfold pageSize at hshort
    rw [toNat_add, toNat_ofNat]
    congr 1
    omega
  have hrest := makes_sameRest u (addr.toNat / pageSize)
    ((stop.toNat + 0xfff) / pageSize - addr.toNat / pageSize)
  -- both pages are among those of the loop
  have hseen : ∀ v, addr.toNat / pageSize ≤ v → v ≤ (addr.toNat + len - 1) / pageSize →
      (makes u (addr.toNat / pageSize)
        ((stop.toNat + 0xfff) / pageSize - addr.toNat / pageSize)).pte v = (made u v).pte v := by
    intro v hlo hhi
    obtain ⟨k, rfl⟩ := Nat.exists_eq_add_of_le hlo
    unfold pageSize at *
    exact makes_pte u (by omega) (by omega)
  have hfirst := hseen (addr.toNat / pageSize) (Nat.le_refl _)
    (Nat.div_le_div_right (by omega))
  have hlast := hseen ((addr.toNat + len - 1) / pageSize) (Nat.div_le_div_right (by omega))
    (Nat.le_refl _)
  rw [hpush]
  obtain ⟨hf, h⟩ | ⟨hf, hl, h⟩ | ⟨hf, hl, w, h, huser⟩ := copyFrame_cases rfl hlastByte
    (makes u (addr.toNat / pageSize) ((stop.toNat + 0xfff) / pageSize - addr.toNat / pageSize))
  · exact .inl ⟨mt (takes_iff_storable hrest hfirst).mpr hf, h⟩
  · exact .inr (.inl ⟨(takes_iff_storable hrest hfirst).mp hf,
      mt (takes_iff_storable hrest hlast).mpr hl, h⟩)
  · have hsf := (takes_iff_storable hrest hfirst).mp hf
    have hsl := (takes_iff_storable hrest hlast).mp hl
    exact .inr (.inr ⟨hsf, hsl, w, h, (huser _).trans (isUserPage_iff_forUser hrest hfirst hsf),
      (huser _).trans (isUserPage_iff_forUser hrest hlast hsl)⟩)

end

end CoreZ.Proofs.Syscall
