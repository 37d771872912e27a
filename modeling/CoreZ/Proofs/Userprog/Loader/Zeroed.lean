import CoreZ.Proofs.Userprog.Loader.Confined

/-!
# `CoreZ.Proofs.Userprog.Loader.Zeroed`: the bytes that no file covers

A page that the loader maps is filled with zeroes. If no page that the image
can get is there and writable before, then every page that the loader takes is
one that it has mapped itself, and what is not file data is zero. `Zeroed W R P`
says this of the pages `P` that were taken; `R` are the bytes of the file. It
is one of the families that the segments keep (`zeroed_kept`): a page that is
mapped joins `P` with nothing but zeroes, a read from the file stores inside
`R` only, and a change of the access rights takes no page away.
-/

set_option autoImplicit false

namespace CoreZ.Proofs.Userprog.Loader

open CoreZ.Lib (blit_in blit_out)
open CoreZ.Userprog.Exec

/-- The bytes of the pages `P`, and of the pages of `W` that are there and
writable, are zero outside `R`. -/
def Zeroed (W R P : Nat → Prop) (s : Caller) : Prop :=
  ∀ a, ¬ R a → P (a / pageSize) ∨ W (a / pageSize) ∧ s.space.present (a / pageSize) = true ∧
    s.space.writable (a / pageSize) = true → s.space.mem a = 0

variable {W P R : Nat → Prop} {s : Caller} {v : Nat}

theorem Zeroed.mono {R' P' : Nat → Prop} (h : Zeroed W R P s) (hR : ∀ a, R a → R' a)
    (hP : ∀ v, P' v → P v) : Zeroed W R' P' s :=
  fun a hr hpage => h a (fun hra => hr (hR a hra)) (hpage.imp_left (hP _))

/-- No page of `W` is there and writable. -/
theorem zeroed_of_vacant (h : ∀ v, W v → s.space.present v = true → s.space.writable v = false) :
    Zeroed W R nothing s := by
  rintro a - (hv | ⟨hv, hp, hw⟩)
  · exact hv.elim
  · exact absurd ((h _ hv hp).symm.trans hw) (by decide)

/-- The new page is full of zeroes, and the others are as before. -/
theorem Zeroed.map (h : Zeroed W R P s) : Zeroed W R (adding P v) (mapPage v s) := by
  intro a hr hpage
  show CoreZ.Lib.blit s.space.mem (v * pageSize) pageSize (fun _ => 0) a = 0
  by_cases heq : a / pageSize = v
  · refine blit_in ?_
    unfold pageSize at *
    omega
  have hout : a < v * pageSize ∨ v * pageSize + pageSize ≤ a := by
    unfold pageSize at *
    omega
  refine (blit_out hout).trans (h a hr ?_)
  rcases hpage with hv | ⟨hv, hp, hw⟩
  · exact .inl (hv.resolve_left heq)
  · refine .inr ⟨hv, ?_, ?_⟩
    · rw [← hp]
      exact (if_neg heq).symm
    · rw [← hw]
      exact (if_neg heq).symm

/-- A page that is gone or protected is one less to look at. -/
theorem Zeroed.fewer {t : Caller} (h : Zeroed W R P s) (hmem : t.space.mem = s.space.mem)
    (hp : ∀ v, t.space.present v = true → s.space.present v = true)
    (hw : ∀ v, t.space.writable v = true → s.space.writable v = true) : Zeroed W R P t := by
  intro a hr hpage
  rw [hmem]
  exact h a hr (hpage.imp_right fun ⟨hv, hp', hw'⟩ => ⟨hv, hp _ hp', hw _ hw'⟩)

theorem setBit_false_le {p : Nat → Bool} {w : Nat} (h : setBit p v false w = true) :
    p w = true := by
  unfold setBit at h
  split at h
  · cases h
  · exact h

/-- The zeroes are kept while segments are loaded with the file data `R`. -/
theorem zeroed_kept (hW : ∀ v, W v → ImagePage v) : Kept W R (Zeroed W R) where
  window := hW
  mono h hP := h.mono (fun _ hr => hr) hP
  read _ _ _ _ _ h := h
  map _ h := h.map
  free h := h.fewer rfl (fun _ hp => setBit_false_le hp) fun _ hw => hw
  found {P s v} hv hp hw h := by
    rintro a hr (hpage | hpage)
    · rcases hpage with heq | hpage
      · exact h a hr (.inr (heq ▸ ⟨hv, hp, hw⟩))
      · exact h a hr (.inl hpage)
    · exact h a hr (.inr hpage)
  store {P s a k b} hin h := by
    intro x hr hpage
    refine (blit_out ?_).trans (h x hr hpage)
    by_cases hlo : x < a
    · exact .inl hlo
    refine .inr (Nat.le_of_not_lt fun hhi => hr ?_)
    have hmem := (hin (x - a) (by omega)).2
    rwa [Nat.add_sub_cancel' (Nat.le_of_not_lt hlo)] at hmem
  protect _ h := h.fewer rfl (fun _ hp => hp) fun _ hw => setBit_false_le hw

end CoreZ.Proofs.Userprog.Loader
