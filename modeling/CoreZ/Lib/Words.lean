import Mathlib.Data.List.TakeWhile

/-!
# `CoreZ.Lib.Words`: a sequence cut at a separator

`words sep l` are the parts of `l` between the separators, without the empty
ones. A scanner that skips separators, takes the next word and goes on behind
it visits the words in their order: `words_skip` and `words_singleton` are its
two steps, and `words_append_sep` cuts at a separator that it has passed.
-/

set_option autoImplicit false

namespace CoreZ.Lib

open List

variable {α : Type*} [DecidableEq α]

/-- The words of a sequence, where `w` is the part of the first word that has
been read. -/
def wordsFrom (sep : α) : List α → List α → List (List α)
  | w, [] => if w = [] then [] else [w]
  | w, x :: xs =>
    if x = sep then (if w = [] then [] else [w]) ++ wordsFrom sep [] xs
    else wordsFrom sep (w ++ [x]) xs

def words (sep : α) (l : List α) : List (List α) := wordsFrom sep [] l

variable {sep : α}

theorem wordsFrom_append_sep (l r : List α) :
    ∀ w, wordsFrom sep w (l ++ sep :: r) = wordsFrom sep w l ++ words sep r := by
  induction l with
  | nil =>
    intro w
    show (if sep = sep then _ else _) = _
    rw [if_pos rfl]
    rfl
  | cons x l ih =>
    intro w
    show (if x = sep then _ ++ wordsFrom sep [] (l ++ sep :: r)
      else wordsFrom sep (w ++ [x]) (l ++ sep :: r)) = _
    by_cases hx : x = sep
    · rw [if_pos hx, ih, ← append_assoc]
      show _ = (if x = sep then _ else _) ++ _
      rw [if_pos hx]
    · rw [if_neg hx, ih]
      show _ = (if x = sep then _ else _) ++ _
      rw [if_neg hx]

theorem words_append_sep (l r : List α) :
    words sep (l ++ sep :: r) = words sep l ++ words sep r := wordsFrom_append_sep l r []

@[simp] theorem words_nil : words sep [] = [] := rfl

@[simp] theorem words_cons_sep {r : List α} : words sep (sep :: r) = words sep r :=
  words_append_sep [] r

theorem ne_nil_of_mem_wordsFrom {l : List α} :
    ∀ {w}, ∀ v ∈ wordsFrom sep w l, v ≠ [] := by
  have hone : ∀ w : List α, ∀ v ∈ (if w = [] then [] else [w]), v ≠ [] := by
    intro w v hv
    split at hv
    · exact absurd hv not_mem_nil
    · next hw => rwa [mem_singleton.mp hv]
  induction l with
  | nil => intro w; exact hone w
  | cons x l ih =>
    intro w v hv
    rw [wordsFrom] at hv
    split at hv
    · rcases mem_append.mp hv with hv | hv
      · exact hone w v hv
      · exact ih v hv
    · exact ih v hv

/-- Separators at the end do not matter. -/
theorem words_append_seps {r : List α} (hr : ∀ x ∈ r, x = sep) :
    ∀ l, words sep (l ++ r) = words sep l := by
  induction r with
  | nil => intro l; rw [append_nil]
  | cons x r ih =>
    intro l
    have hrest : words sep r = [] := ih (fun y hy => hr y (mem_cons_of_mem x hy)) []
    rw [hr x mem_cons_self, words_append_sep, hrest, append_nil]

/-- Leading separators do not matter. -/
theorem words_skip {l : List α} :
    words sep (l.dropWhile fun x => decide (x = sep)) = words sep l := by
  induction l with
  | nil => rfl
  | cons x l ih =>
    by_cases hx : x = sep
    · rw [dropWhile_cons_of_pos (by simpa using hx), ih, hx, words_cons_sep]
    · rw [dropWhile_cons_of_neg (by simpa using hx)]

theorem wordsFrom_append {l : List α} (hl : sep ∉ l) (r : List α) :
    ∀ w, wordsFrom sep w (l ++ r) = wordsFrom sep (w ++ l) r := by
  induction l with
  | nil => intro w; simp
  | cons x l ih =>
    intro w
    have hx : x ≠ sep := fun h => hl (h ▸ mem_cons_self)
    show (if x = sep then _ else wordsFrom sep (w ++ [x]) (l ++ r)) = _
    rw [if_neg hx, ih fun h => hl (mem_cons_of_mem x h)]
    simp

theorem words_singleton {l : List α} (hl : sep ∉ l) (hne : l ≠ []) : words sep l = [l] := by
  have h := wordsFrom_append hl [] []
  rw [append_nil, nil_append] at h
  rw [words, h]
  exact if_neg hne

end CoreZ.Lib
