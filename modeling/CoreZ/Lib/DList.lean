import Mathlib.Data.List.Nodup

/-!
# `CoreZ.Lib.DList`: doubly linked lists

A memory of nodes is a pair of functions `next` and `prev` on the
addresses, with a null address. `DList next prev null p xs head` says
that the chain from `head` runs through the nodes `xs` in order and
ends at `null`, and that each node points back to the one before it,
the first of them to `p`.

The two edits are `DList.push`, a new first node, and `DList.remove`, a
node taken out of the middle. Both are stated for any later memory that
differs from the old one as the writes of the edit say, on the nodes of
the list only: what else a memory holds does not matter here.
-/

set_option autoImplicit false

namespace CoreZ.Lib

open List

variable {α : Type*}

/-- The chain from `head` through `xs`, with back links, the first one
to `p`. -/
def DList (next prev : α → α) (null : α) : α → List α → α → Prop
  | _, [], head => head = null
  | p, a :: as, head => head = a ∧ prev a = p ∧ DList next prev null a as (next a)

namespace DList

variable {next prev next' prev' : α → α} {null p head a : α} {xs pre post : List α}

section

variable (h : DList next prev null p xs head)

include h

theorem head_eq_null_iff (hnull : null ∉ xs) : head = null ↔ xs = [] := by
  cases xs with
  | nil => exact ⟨fun _ => rfl, fun _ => h⟩
  | cons b bs =>
    refine ⟨fun heq => ?_, fun heq => absurd heq (by simp)⟩
    exact absurd (by rw [← heq, h.1]; exact mem_cons_self) hnull

theorem head_mem (hne : head ≠ null) : head ∈ xs := by
  cases xs with
  | nil => exact absurd h hne
  | cons b bs =>
    rw [h.1]
    exact mem_cons_self

/-- A list depends on the links of its nodes only. -/
theorem congr (hn : ∀ x ∈ xs, next' x = next x) (hp : ∀ x ∈ xs, prev' x = prev x) :
    DList next' prev' null p xs head := by
  induction xs generalizing p head with
  | nil => exact h
  | cons b bs ih =>
    obtain ⟨hhead, hprev, hrest⟩ := h
    refine ⟨hhead, (hp b mem_cons_self).trans hprev, ?_⟩
    rw [hn b mem_cons_self]
    exact ih hrest (fun x hx => hn x (mem_cons_of_mem _ hx))
      (fun x hx => hp x (mem_cons_of_mem _ hx))

end

/-- The part behind a node. -/
theorem tail (h : DList next prev null p (pre ++ a :: post) head) :
    DList next prev null a post (next a) := by
  induction pre generalizing p head with
  | nil => exact h.2.2
  | cons b bs ih => exact ih h.2.2

/-- The back link of a node leads to the node before it; the first node
is the head, and its back link is `p`. -/
theorem prev_eq (h : DList next prev null p (pre ++ a :: post) head) :
    (pre = [] ∧ prev a = p ∧ head = a) ∨ (pre ≠ [] ∧ prev a ∈ pre) := by
  induction pre generalizing p head with
  | nil => exact Or.inl ⟨rfl, h.2.1, h.1⟩
  | cons b bs ih =>
    refine Or.inr ⟨by simp, ?_⟩
    rcases ih h.2.2 with ⟨-, hprev, -⟩ | ⟨-, hmem⟩
    · rw [hprev]
      exact mem_cons_self
    · exact mem_cons_of_mem _ hmem

section Edits

variable [DecidableEq α]

/-- The first node gets another back link. -/
theorem setPrev {q : α} (h : DList next prev null p xs head) (hnd : xs.Nodup)
    (hn : ∀ x ∈ xs, next' x = next x) (hp : ∀ x ∈ xs, prev' x = if x = head then q else prev x) :
    DList next' prev' null q xs head := by
  cases xs with
  | nil => exact h
  | cons b bs =>
    obtain ⟨rfl, -, hrest⟩ := h
    refine ⟨rfl, by rw [hp _ mem_cons_self, if_pos rfl], ?_⟩
    rw [hn _ mem_cons_self]
    refine hrest.congr (fun x hx => hn x (mem_cons_of_mem _ hx)) fun x hx => ?_
    rw [hp x (mem_cons_of_mem _ hx), if_neg]
    rintro rfl
    exact (nodup_cons.mp hnd).1 hx

/-- A new first node. -/
theorem push (h : DList next prev null p xs head) (hnd : xs.Nodup) (ha : next' a = head)
    (hpa : prev' a = p) (hn : ∀ x ∈ xs, next' x = next x)
    (hp : ∀ x ∈ xs, prev' x = if x = head then a else prev x) :
    DList next' prev' null p (a :: xs) a := by
  refine ⟨rfl, hpa, ?_⟩
  rw [ha]
  exact h.setPrev hnd hn hp

/-- A node taken out: the node before it, or the head, gets its forward
link, and the node behind it its back link. -/
theorem remove (h : DList next prev null p (pre ++ a :: post) head)
    (hnd : (pre ++ a :: post).Nodup) (hnull : null ∉ pre ++ a :: post)
    (hn : ∀ x ∈ pre ++ post, next' x = if x ∈ pre ∧ x = prev a then next a else next x)
    (hp : ∀ x ∈ pre ++ post, prev' x = if x = next a then prev a else prev x) :
    DList next' prev' null p (pre ++ post) (if pre = [] then next a else head) := by
  induction pre generalizing p head with
  | nil =>
    obtain ⟨-, hprev, hrest⟩ := h
    rw [if_pos rfl, ← hprev]
    refine hrest.setPrev (nodup_cons.mp hnd).2 (fun x hx => ?_) hp
    rw [hn x hx, if_neg fun hmem => absurd hmem.1 not_mem_nil]
  | cons b bs ih =>
    have htail : DList next prev null a post (next a) := h.tail
    obtain ⟨hhead, hprev, hrest⟩ := h
    rw [cons_append, nodup_cons] at hnd
    rw [cons_append, mem_cons, not_or] at hnull
    have hb : b ∉ bs := fun hmem => hnd.1 (mem_append_left _ hmem)
    -- the node behind `a` is not `b`
    have hbnext : b ≠ next a := by
      intro heq
      refine hnd.1 (mem_append_right _ (mem_cons_of_mem _ ?_))
      rw [heq]
      exact htail.head_mem fun hnil => hnull.1 (by rw [← hnil, ← heq])
    have hih := ih hrest hnd.2 hnull.2
      (fun x hx => by
        have hne : x ≠ b := by
          rintro rfl
          rcases mem_append.mp hx with hx | hx
          · exact hb hx
          · exact hnd.1 (mem_append_right _ (mem_cons_of_mem _ hx))
        rw [hn x (mem_cons_of_mem _ hx)]
        simp [hne])
      (fun x hx => hp x (mem_cons_of_mem _ hx))
    refine ⟨hhead, ?_, ?_⟩
    · rw [hp b mem_cons_self, if_neg hbnext, hprev]
    · have hnb : next' b = if bs = [] then next a else next b := by
        rw [hn b mem_cons_self]
        rcases hrest.prev_eq with ⟨hbs, hpa, -⟩ | ⟨hbs, hmem⟩
        · rw [if_pos ⟨mem_cons_self, hpa.symm⟩, if_pos hbs]
        rw [if_neg hbs, if_neg]
        rintro ⟨-, heq⟩
        exact hb (heq ▸ hmem)
      rw [hnb]
      exact hih

end Edits

end DList

end CoreZ.Lib
