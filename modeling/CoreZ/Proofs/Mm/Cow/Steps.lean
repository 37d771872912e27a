import CoreZ.Proofs.Mm.Cow.Entries

/-!
# `CoreZ.Proofs.Mm.Cow.Steps`: what each function can do

Every function that works on one page either leaves the state as it is
or does one thing to it; the lemmas named `_rule` say which, for an
invariant of the state. The two loops, `share_user_space_cow` and
`space_release_ex`, get an induction rule each, so that an invariant needs
a proof for one page only.

`Tame` marks the steps that give no write access: every entry is as before or
not writable. `fork`, a release and a freed page are such steps.
-/

set_option autoImplicit false

namespace CoreZ.Proofs.Mm.Cow

open CoreZ.Mm.Cow
open Function
open List

/-! ### The pool -/

variable {g : Frame} {a b v : Nat} {s t : Vm}

/-- The frame that is granted comes from the pool. -/
theorem poolAllocPage_eq_some {grant : Option Frame} (h : poolAllocPage s grant = some (t, g)) :
    0 < s.pool g ∧ t = { s with pool := update s.pool g (s.pool g - 1) } := by
  cases grant with
  | none => cases h
  | some f =>
    simp only [poolAllocPage] at h
    split at h
    · next hpos =>
        cases h
        exact ⟨hpos, rfl⟩
    · cases h

/-! ### Sharing -/

section Share

variable {a b v : Nat} {s : Vm}

theorem pageCowShare_eq (s : Vm) (f : Frame) :
    pageCowShare s f = { s with owner := (pageCowShare s f).owner } := by
  rw [pageCowShare]
  split <;> rfl

theorem markChildBitmap_eq (s : Vm) (b v : Nat) :
    markChildBitmap s b v = { s with used := (markChildBitmap s b v).used } := by
  rw [markChildBitmap]
  split <;> rfl

/-- The pages that `fork` shares are those of a space alone. -/
theorem forkPage_spec (h : forkPage v = true) : v < userEnd ∧ sharedPage v = false := by
  rw [forkPage, cowVaddrOk, Bool.and_eq_true, decide_eq_true_eq, Bool.not_eq_true'] at h
  exact ⟨h.1.2.2, h.2⟩

/-- A page that is not present, or that `fork` skips, is not shared. -/
theorem sharePage_of_not (h : ¬ (present (s.pte a v) = true ∧ forkPage v = true)) :
    sharePage a b s v = s := by
  rw [sharePage, if_neg h]

/-- The tables behind the loop body: the page is copy-on-write in both
spaces, and every other page is as before. -/
theorem sharePage_pte (hab : a ≠ b) (hpres : present (s.pte a v) = true)
    (hok : forkPage v = true) :
    (sharePage a b s v).pte a v = (s.pte a v &&& ~~~pteW) ||| cowFlag ∧
      (sharePage a b s v).pte b v
        = physOf (frameOf (s.pte a v)) ||| (s.pte a v &&& cowKeep) ||| cowFlag ∧
      (∀ x, x ≠ (a, v) → x ≠ (b, v) → (sharePage a b s v).pte x.1 x.2 = s.pte x.1 x.2) ∧
      (sharePage a b s v).owner = (pageCowShare s (frameOf (s.pte a v))).owner ∧
      (sharePage a b s v).pool = s.pool ∧ (sharePage a b s v).live = s.live := by
  have hcond : present (s.pte a v) = true ∧ forkPage v = true := ⟨hpres, hok⟩
  have hv := (forkPage_spec hok).2
  -- the writes to the counts and the bitmap leave the tables alone
  rw [sharePage, if_pos hcond]
  dsimp only
  rw [markChildBitmap_eq, pageCowShare_eq]
  refine ⟨?_, setPte_self, ?_, rfl, rfl, rfl⟩
  · rw [setPte_of_ne hv fun h => hab (Prod.mk.inj h).1]
    exact setPte_self
  · intro x hca hcb
    rw [setPte_of_ne hv hcb]
    exact setPte_of_ne hv hca

/-- One more entry refers to the frame of the parent's page. -/
theorem sharePage_of_present {f : Frame} (hab : a ≠ b) (hf : slots s (a, v) = some f)
    (hok : forkPage v = true) :
    slots (sharePage a b s v) = update (slots s) (b, v) (some f) ∧
      (sharePage a b s v).owner = (pageCowShare s f).owner ∧
      (sharePage a b s v).pool = s.pool ∧ (sharePage a b s v).live = s.live ∧
      writable ((sharePage a b s v).pte a v) = false ∧
      writable ((sharePage a b s v).pte b v) = false ∧
      ∀ x, x ≠ (a, v) → x ≠ (b, v) → (sharePage a b s v).pte x.1 x.2 = s.pte x.1 x.2 := by
  obtain ⟨hpres, rfl⟩ := slots_present hf
  obtain ⟨ha, hb, hother, howner, hpool, hlive⟩ := sharePage_pte hab hpres hok
  refine ⟨?_, howner, hpool, hlive, by rw [ha, writable_cowParent], by rw [hb, writable_cowChild],
    hother⟩
  funext x
  by_cases hxb : x = (b, v)
  · rw [hxb, update_self, slots, hb, entry_keep (by decide) (by decide), if_pos hpres]
  rw [update_of_ne hxb]
  by_cases hxa : x = (a, v)
  · rw [hxa, slots, slots, ha, entry_flags _ (by decide) (by decide) (by decide) (by decide)]
  · rw [slots, slots, hother x hxa hxb]

end Share

/-- The child's bitmap has the page, if it is large enough. -/
theorem sharePage_bitmap {a b : Nat} {s : Vm} {v : Nat} :
    (sharePage a b s v).bits = s.bits ∧
      (∀ c w, s.used c w = true → (sharePage a b s v).used c w = true) ∧
      (present (s.pte a v) = true → forkPage v = true → inBitmap s b v = true →
        (sharePage a b s v).used b v = true) := by
  by_cases hcond : present (s.pte a v) = true ∧ forkPage v = true
  · rw [sharePage, if_pos hcond]
    rw [pageCowShare_eq]
    simp only [markChildBitmap]
    split
    · refine ⟨rfl, ?_, fun _ _ _ => if_pos ⟨rfl, rfl⟩⟩
      intro c w hw
      simp only [Vm.setPte, Vm.setUsed]
      split
      · rfl
      · exact hw
    · next hno => exact ⟨rfl, fun _ _ h => h, fun _ _ hb => absurd hb hno⟩
  · rw [sharePage_of_not hcond]
    exact ⟨rfl, fun _ _ h => h, fun h1 h2 => absurd ⟨h1, h2⟩ hcond⟩

/-- An invariant of `share_user_space_cow`: what the step for one shared
page keeps, the loops keep. The child's space is empty at the start, the
parent maps every frame once, and no frame has 255 owners. -/
theorem share_induct (hab : a ≠ b) {I : Vm → Prop}
    (hstep : ∀ s v f, I s → slots s (a, v) = some f → slots s (b, v) = none →
      (∀ w, slots s (b, w) ≠ some f) → s.owner f ≠ 255 → forkPage v = true →
      I (sharePage a b s v)) (h0 : I s) (hempty : ∀ w, slots s (b, w) = none)
    (halone : ∀ v w f, slots s (a, v) = some f → slots s (a, w) = some f → v = w)
    (hcount : ∀ v f, slots s (a, v) = some f → forkPage v = true → s.owner f ≠ 255) :
    I (shareUserSpaceCow s a b) := by
  -- pages already visited are shared, the others are as at the start
  have key : ∀ (ws : List Nat) (t : Vm), ws.Nodup → I t →
      (∀ w, slots t (a, w) = slots s (a, w)) → (∀ w ∈ ws, slots t (b, w) = none) →
      (∀ w f, slots t (b, w) = some f → slots s (a, w) = some f) →
      (∀ w ∈ ws, ∀ f, slots s (a, w) = some f → t.owner f = s.owner f) →
      I (ws.foldl (sharePage a b) t) := by
    intro ws
    induction ws with
    | nil => intro t _ hI _ _ _ _; exact hI
    | cons v ws ih =>
      intro t hnd hI hA hB hsub hown
      obtain ⟨hv, hnd⟩ := nodup_cons.mp hnd
      rw [foldl_cons]
      by_cases hcond : present (t.pte a v) = true ∧ forkPage v = true
      · have hf := slots_of_present hcond.1
        generalize frameOf (t.pte a v) = f at hf
        have hfs : slots s (a, v) = some f := by rw [← hA]; exact hf
        have hbv := hB v mem_cons_self
        have hbf : ∀ w, slots t (b, w) ≠ some f := by
          intro w hw
          have := halone w v f (hsub w f hw) hfs
          rw [this, hbv] at hw
          cases hw
        have hofs : t.owner f ≠ 255 := by
          rw [hown v mem_cons_self f hfs]
          exact hcount v f hfs hcond.2
        obtain ⟨hsl, ho, -, -, -, -, -⟩ := sharePage_of_present hab hf hcond.2
        refine ih _ hnd (hstep t v f hI hf hbv hbf hofs hcond.2) ?_ ?_ ?_ ?_
        · intro w
          rw [hsl, update_of_ne fun h => hab (Prod.mk.inj h).1]
          exact hA w
        · intro w hw
          have hwv : w ≠ v := fun h => hv (h ▸ hw)
          rw [hsl, update_of_ne fun h => hwv (Prod.mk.inj h).2]
          exact hB w (mem_cons_of_mem _ hw)
        · intro w g hg
          by_cases hwv : w = v
          · rw [hwv] at hg ⊢
            rw [hsl, update_self] at hg
            rw [hfs, hg]
          · rw [hsl, update_of_ne fun h => hwv (Prod.mk.inj h).2] at hg
            exact hsub w g hg
        · intro w hw g hg
          have hgf : g ≠ f := by
            rintro rfl
            exact hv (halone w v g hg hfs ▸ hw)
          rw [ho, pageCowShare]
          split
          · rw [← hown w (mem_cons_of_mem _ hw) g hg]
            exact update_of_ne hgf _ _
          · exact hown w (mem_cons_of_mem _ hw) g hg
      · rw [sharePage_of_not hcond]
        exact ih t hnd hI hA (fun w hw => hB w (mem_cons_of_mem _ hw)) hsub
          fun w hw => hown w (mem_cons_of_mem _ hw)
  refine key (range userEnd) s nodup_range h0 (fun _ => rfl) (fun w _ => hempty w) ?_
    fun _ _ _ _ => rfl
  intro w f hw
  rw [hempty w] at hw
  cases hw

/-- The pages of the parent are all in the child behind `fork`. -/
theorem shareUserSpaceCow_pte (hab : a ≠ b) (hpres : present (s.pte a v) = true)
    (hok : forkPage v = true) :
    (shareUserSpaceCow s a b).pte a v = (s.pte a v &&& ~~~pteW) ||| cowFlag ∧
      (shareUserSpaceCow s a b).pte b v
        = physOf (frameOf (s.pte a v)) ||| (s.pte a v &&& cowKeep) ||| cowFlag ∧
      (shareUserSpaceCow s a b).pool = s.pool ∧ (shareUserSpaceCow s a b).live = s.live := by
  -- other pages do not touch the two entries
  have hother : ∀ (ws : List Nat) (t : Vm), v ∉ ws →
      (∀ c, (ws.foldl (sharePage a b) t).pte c v = t.pte c v) ∧
        (ws.foldl (sharePage a b) t).pool = t.pool ∧
          (ws.foldl (sharePage a b) t).live = t.live := by
    intro ws
    induction ws with
    | nil => intro t _; exact ⟨fun _ => rfl, rfl, rfl⟩
    | cons w ws ih =>
      intro t hv
      rw [mem_cons, not_or] at hv
      obtain ⟨hvw, hv⟩ := hv
      obtain ⟨h1, h2, h3⟩ := ih (sharePage a b t w) hv
      rw [foldl_cons]
      by_cases hcond : present (t.pte a w) = true ∧ forkPage w = true
      · obtain ⟨-, -, hpte, -, hpool, hlive⟩ := sharePage_pte hab hcond.1 hcond.2
        refine ⟨fun c => ?_, h2.trans hpool, h3.trans hlive⟩
        rw [h1 c]
        exact hpte (c, v) (fun h => hvw (Prod.mk.inj h).2) fun h => hvw (Prod.mk.inj h).2
      · rw [sharePage_of_not hcond] at h1 h2 h3 ⊢
        exact ⟨h1, h2, h3⟩
  have hv := (forkPage_spec hok).1
  -- the pages before `v`, the page `v`, the pages behind it
  obtain ⟨before, after, hsplit⟩ := append_of_mem (mem_range.mpr hv)
  have hnd : (before ++ v :: after).Nodup := hsplit ▸ nodup_range
  obtain ⟨-, hnd2, hdisj⟩ := nodup_append.mp hnd
  have hbefore : v ∉ before := fun h => hdisj v h v mem_cons_self rfl
  have hafter : v ∉ after := (nodup_cons.mp hnd2).1
  obtain ⟨h1, h2, h3⟩ := hother before s hbefore
  rw [shareUserSpaceCow, hsplit, foldl_append, foldl_cons]
  generalize before.foldl (sharePage a b) s = t at h1 h2 h3
  have hpt : present (t.pte a v) = true := by rw [h1]; exact hpres
  obtain ⟨ha, hb, -, -, hpool, hlive⟩ := sharePage_pte hab hpt hok
  obtain ⟨h4, h5, h6⟩ := hother after (sharePage a b t v) hafter
  rw [h4, h4, h5, h6, ha, hb, hpool, hlive, h1]
  exact ⟨rfl, rfl, h2, h3⟩

/-- The same for `sys_fork`. The state is named, since it is too large to
be looked at. -/
theorem exists_sysFork (hab : a ≠ b) (hpres : present ((createSpace s b).pte a v) = true)
    (hok : forkPage v = true) :
    ∃ t, sysFork s a b true = t ∧
      t.pte a v = ((createSpace s b).pte a v &&& ~~~pteW) ||| cowFlag ∧
      t.pte b v = physOf (frameOf ((createSpace s b).pte a v)) |||
        ((createSpace s b).pte a v &&& cowKeep) ||| cowFlag ∧
      t.pool = s.pool ∧ t.live = (createSpace s b).live := by
  refine ⟨_, rfl, ?_⟩
  rw [sysFork, if_pos rfl]
  exact shareUserSpaceCow_pte hab hpres hok

/-! ### Release -/

section Release

variable {a v : Nat} {s : Vm}

/-- `page_free_or_decref` changes counts and pool only. -/
theorem pageFreeOrDecref_frame {s : Vm} {f : Frame} :
    (pageFreeOrDecref s f).pte = s.pte ∧ (pageFreeOrDecref s f).live = s.live ∧
      (pageFreeOrDecref s f).used = s.used ∧ (pageFreeOrDecref s f).bits = s.bits := by
  rw [pageFreeOrDecref]
  split
  · split <;> exact ⟨rfl, rfl, rfl, rfl⟩
  · exact ⟨rfl, rfl, rfl, rfl⟩

/-- What it does to them depends on nothing else. -/
theorem pageFreeOrDecref_congr {s t : Vm} (f : Frame) (ho : t.owner = s.owner)
    (hp : t.pool = s.pool) :
    (pageFreeOrDecref t f).owner = (pageFreeOrDecref s f).owner ∧
      (pageFreeOrDecref t f).pool = (pageFreeOrDecref s f).pool := by
  rw [pageFreeOrDecref, pageFreeOrDecref, ho]
  split
  · split
    · exact ⟨by simp only [Vm.setOwner, ho], hp⟩
    · exact ⟨by simp only [poolFreePage, Vm.setOwner, ho], by
        simp only [poolFreePage, Vm.setOwner, hp]⟩
  · exact ⟨ho, hp⟩

/-- Which frames are mapped depends on the entries. -/
theorem slots_congr {s : Vm} (h : t.pte = s.pte) : slots t = slots s := by
  funext x
  rw [slots, slots, h]

/-- An invariant of the loops of `space_release_ex`. -/
theorem release_induct {I : Vm → Prop}
    (hstep : ∀ s v f, I s → slots s (a, v) = some f → I ((pageFreeOrDecref s f).setPte a v 0))
    {vs : List Nat} (h0 : I s) : I (vs.foldl (releasePage a) s) := by
  induction vs generalizing s with
  | nil => exact h0
  | cons v vs ih =>
    refine ih ?_
    rw [releasePage]
    split
    · next h => exact hstep s v _ h0 (slots_of_present h.1)
    · exact h0

/-- A space with all its pages in the bitmap is released as a whole. -/
theorem release_slots {vs : List Nat}
    (h : ∀ v f, slots s (a, v) = some f → sharedPage v = false ∧
      userStart ≤ v ∧ inBitmap s a v = true ∧ s.used a v = true) :
    ∀ x, slots (vs.foldl (releasePage a) s) x
      = if x.1 = a ∧ x.2 ∈ vs then none else slots s x := by
  induction vs generalizing s with
  | nil =>
    intro x
    rw [if_neg (by simp)]
    rfl
  | cons v vs ih =>
    intro x
    -- the page is gone, and the bitmap is not touched
    have hpage : slots (releasePage a s v) = update (slots s) (a, v) none ∧
        (releasePage a s v).used = s.used ∧ (releasePage a s v).bits = s.bits := by
      by_cases hpres : present (s.pte a v) = true
      · obtain ⟨hv, hlow, hbit, hused⟩ := h v _ (slots_of_present hpres)
        obtain ⟨h1, -, h3, h4⟩ := pageFreeOrDecref_frame
        rw [releasePage, if_pos ⟨hpres, hlow, hbit, hused⟩, slots_setPte _ _ hv, entry_zero,
          slots_congr h1]
        exact ⟨rfl, h3, h4⟩
      · have hnone : slots s (a, v) = none := entry_of_not_present (Bool.eq_false_iff.mpr hpres)
        rw [releasePage, if_neg fun hc => hpres hc.1, ← hnone, update_eq_self]
        exact ⟨rfl, rfl, rfl⟩
    obtain ⟨hs, hused, hbits⟩ := hpage
    rw [foldl_cons, ih ?_, hs]
    · by_cases hx : x = (a, v)
      · rw [hx, update_self, ite_self, if_pos ⟨rfl, mem_cons_self⟩]
      rw [update_of_ne hx]
      refine if_congr ?_ rfl rfl
      refine and_congr_right fun hxa => ?_
      rw [mem_cons]
      refine ⟨.inr, fun hor => hor.resolve_left fun hxv => hx (Prod.ext hxa hxv)⟩
    · intro w f hw
      rw [hs] at hw
      by_cases hwv : (a, w) = (a, v)
      · rw [hwv, update_self] at hw
        cases hw
      rw [update_of_ne hwv] at hw
      rw [inBitmap, hused, hbits]
      exact h w f hw

/-- Nothing is released where no page is in the bitmap. -/
theorem release_none (vs : List Nat)
    (h : ∀ v, ¬ (present (s.pte a v) = true ∧ inBitmap s a v = true)) :
    vs.foldl (releasePage a) s = s := by
  induction vs with
  | nil => rfl
  | cons v vs ih =>
    rw [foldl_cons, releasePage, if_neg fun hc => h v ⟨hc.1, hc.2.2.1⟩]
    exact ih

end Release

/-! ### Single pages -/

/-- A bit is set to what it is. -/
theorem setUsed_self {u : Bool} (h : s.used a v = u) : s.setUsed a v u = s := by
  have : (fun b w => if b = a ∧ w = v then u else s.used b w) = s.used := by
    funext b w
    split
    · next hbw => rw [hbw.1, hbw.2, h]
    · rfl
  rw [Vm.setUsed, this]

/-- The later of two stores to a bit counts. -/
theorem setUsed_setUsed (s : Vm) (a v : Nat) (u u' : Bool) :
    (s.setUsed a v u).setUsed a v u' = s.setUsed a v u' := by
  have : (fun b w => if b = a ∧ w = v then u' else (s.setUsed a v u).used b w)
      = fun b w => if b = a ∧ w = v then u' else s.used b w := by
    funext b w
    simp only [Vm.setUsed]
    split <;> rfl
  rw [Vm.setUsed, this]
  rfl

/-- The pool after it has given out a frame. -/
def takeFrame (s : Vm) (g : Frame) : Vm :=
  { s with pool := Function.update s.pool g (s.pool g - 1) }

/-- A frame that was taken is given back. -/
theorem poolFreePage_takeFrame (h : 0 < s.pool g) : poolFreePage (takeFrame s g) g = s := by
  rw [poolFreePage, takeFrame]
  dsimp only
  rw [update_self, update_idem, Nat.sub_add_cancel h, update_eq_self]

section

variable {I : Vm → Prop} (hs : I s)

include hs

/-- `get_a_page` keeps what a new mapping keeps, whichever of its exits it takes. -/
theorem getAPage_rule (hmap : ∀ g, 0 < s.pool g → inBitmap s a v = true → s.used a v = false →
      I (addPage (takeFrame (s.setUsed a v true) g) a v g)) (grant : Option Frame) (tables : Bool) :
    I (getAPage s a v grant tables) := by
  simp only [getAPage]
  split
  · exact hs
  next hbit =>
  split
  · exact hs
  next hused =>
  rw [Bool.not_eq_true] at hused
  cases halloc : poolAllocPage (s.setUsed a v true) grant with
  | none =>
    rw [setUsed_setUsed, setUsed_self hused]
    exact hs
  | some r =>
    obtain ⟨t, g⟩ := r
    obtain ⟨hg, rfl⟩ := poolAllocPage_eq_some halloc
    simp only
    split
    · exact hmap g hg (not_not.mp hbit) hused
    -- the frame goes back to the pool, the bit is cleared
    have h1 : (takeFrame (s.setUsed a v true) g).setUsed a v false = takeFrame s g := by
      have := setUsed_setUsed (takeFrame s g) a v true false
      rw [setUsed_self (s := takeFrame s g) hused] at this
      exact this
    show I (poolFreePage ((takeFrame (s.setUsed a v true) g).setUsed a v false) g)
    rw [h1, poolFreePage_takeFrame (s := s) hg]
    exact hs

/-- `map_reserved_page` keeps what a new mapping keeps. -/
theorem mapReservedPage_rule (hmap : ∀ g, 0 < s.pool g → I (addPage (takeFrame s g) a v g))
    (grant : Option Frame) (tables : Bool) : I (mapReservedPage s a v grant tables) := by
  rw [mapReservedPage]
  split
  · exact hs
  cases halloc : poolAllocPage s grant with
  | none => exact hs
  | some r =>
    obtain ⟨t, g⟩ := r
    obtain ⟨hg, rfl⟩ := poolAllocPage_eq_some halloc
    simp only
    split
    · exact hmap g hg
    · show I (poolFreePage (takeFrame s g) g)
      rwa [poolFreePage_takeFrame hg]

/-- `page_cow_resolve` does nothing, or makes a copy, or claims a page
that it takes for unshared. -/
theorem pageCowResolve_rule {val : Pte}
    (hdo : present (s.pte a v) = true → isCow (s.pte a v) = true →
      (∀ g, 0 < s.pool g → s.owner (frameOf val) > 1 →
        I ((((takeFrame s g).setMem g (s.mem (frameOf val))).setOwner (frameOf val)
          (s.owner (frameOf val) - 1)).setPte a v (physOf g ||| (val &&& cowKeep) ||| pteW))) ∧
      (s.owner (frameOf val) ≤ 1 → I (s.setPte a v ((s.pte a v &&& ~~~cowFlag) ||| pteW))))
    (grant : Option Frame) : I (pageCowResolve s a v val grant).1 := by
  simp only [pageCowResolve]
  split
  · exact hs
  split
  · exact hs
  next hpres =>
  split
  · exact hs
  next hcow =>
  obtain ⟨hcopy, hclaim⟩ := hdo (not_not.mp hpres) (not_not.mp hcow)
  split
  · next hown =>
      cases halloc : poolAllocPage s grant with
      | none => exact hs
      | some r =>
        obtain ⟨t, g⟩ := r
        obtain ⟨hg, rfl⟩ := poolAllocPage_eq_some halloc
        exact hcopy g hg hown
  · exact hclaim (by omega)

/-- `free_user_page` keeps what the drop of one reference keeps. -/
theorem freeUserPage_rule (hdrop : ∀ f t, slots s (a, v) = some f → t.pte = (s.setPte a v 0).pte →
      t.live = s.live → t.owner = s.owner → t.pool = s.pool → t.bits = s.bits →
      (∀ b w, (b, w) ≠ (a, v) → t.used b w = s.used b w) → I (pageFreeOrDecref t f)) :
    I (freeUserPage s a v) := by
  simp only [freeUserPage]
  split
  · next hpres =>
    split
    · refine hdrop _ _ (slots_of_present hpres) rfl rfl rfl rfl rfl ?_
      intro b w h
      exact if_neg fun hbw => h (Prod.ext hbw.1 hbw.2)
    · exact hdrop _ _ (slots_of_present hpres) rfl rfl rfl rfl rfl fun _ _ _ => rfl
  · exact hs

end

section

variable (s : Vm) (a v : Nat)

variable {v} (hv : sharedPage v = false)

include hv

/-- The frame of the new entry. -/
theorem slots_addPage (g : Frame) : slots (addPage s a v g) = update (slots s) (a, v) (some g) := by
  rw [← entry_fresh, ← slots_setPte _ _ hv]
  rfl

/-- The entries behind the copy. -/
theorem slots_cowCopy {val : Pte} (hval : present val = true) (g : Frame) (n : Nat)
    (m : Nat → Nat) :
    slots ((((takeFrame s g).setMem g m).setOwner (frameOf val) n).setPte a v
      (physOf g ||| (val &&& cowKeep) ||| pteW)) = update (slots s) (a, v) (some g) := by
  rw [slots_setPte _ _ hv, entry_keep (by decide) (by decide), if_pos hval]
  rfl

end

/-! ### Steps that give no write access -/

/-- Every entry is as before, or not writable. -/
structure Tame (s t : Vm) : Prop where
  nx : t.nxUsable = s.nxUsable
  pte : ∀ a v, t.pte a v = s.pte a v ∨ writable (t.pte a v) = false

section Tame

variable {s t u : Vm}

/-- Entries that do not change are tame. -/
theorem tame_of_pte (hpte : t.pte = s.pte) (hnx : t.nxUsable = s.nxUsable) : Tame s t :=
  ⟨hnx, fun a v => .inl (by rw [hpte])⟩

/-- Tame changes compose. -/
theorem Tame.trans (h : Tame s t) (h' : Tame t u) : Tame s u := by
  refine ⟨h'.nx.trans h.nx, fun a v => ?_⟩
  rcases h'.pte a v with heq | hw
  · rw [heq]
    exact h.pte a v
  · exact .inr hw

/-- An entry that is not writable is tame. -/
theorem Tame.setPte (h : Tame s t) (a v : Nat) {e : Pte} (he : writable e = false) :
    Tame s (t.setPte a v e) := by
  refine h.trans ⟨rfl, fun b w => ?_⟩
  rw [pte_setPte]
  split
  · exact .inr he
  · exact .inl rfl

/-- The entries of one space go. -/
theorem tame_of_clear (a : Nat) (hnx : t.nxUsable = s.nxUsable)
    (hown : t.own = fun b w => if b = a then 0 else s.own b w) (hcommon : t.common = s.common) :
    Tame s t := by
  refine ⟨hnx, fun b w => ?_⟩
  rw [pte_clear hown hcommon]
  split
  · exact .inr (by decide)
  · exact .inl rfl

variable (s)

/-- Dropping a reference changes no entry. -/
theorem tame_pageFreeOrDecref (f : Frame) : Tame s (pageFreeOrDecref s f) := by
  rw [pageFreeOrDecref]
  split
  · split <;> exact tame_of_pte rfl rfl
  · exact tame_of_pte rfl rfl

/-- An entry that goes is tame. -/
theorem tame_freeUserPage (a v : Nat) : Tame s (freeUserPage s a v) := by
  rw [freeUserPage]
  split
  · refine Tame.trans ?_ (tame_pageFreeOrDecref _ _)
    have hclear := (tame_of_pte (s := s) rfl rfl).setPte a v (e := 0) (by decide)
    split
    · exact hclear.trans (tame_of_pte rfl rfl)
    · exact hclear
  · exact tame_of_pte rfl rfl

/-- Sharing takes rights away. -/
theorem tame_sharePage (a b v : Nat) : Tame s (sharePage a b s v) := by
  rw [sharePage]
  split
  · dsimp only
    rw [markChildBitmap_eq, pageCowShare_eq]
    have hcount : Tame s { s with owner := (pageCowShare s (frameOf (s.pte a v))).owner } :=
      tame_of_pte rfl rfl
    have hparent := hcount.setPte a v (writable_cowParent (s.pte a v))
    refine Tame.setPte ?_ b v (writable_cowChild _ _)
    exact hparent.trans (tame_of_pte rfl rfl)
  · exact tame_of_pte rfl rfl

/-- A new space has no entries of its own. -/
theorem tame_createSpace (a : Nat) : Tame s (createSpace s a) := tame_of_clear a rfl rfl rfl

theorem tame_freePml4 (a : Nat) : Tame s (freePml4 s a) := tame_of_clear a rfl rfl rfl

/-- `fork` gives no write access. -/
theorem tame_sysFork (a b : Nat) (tables : Bool) : Tame s (sysFork s a b tables) := by
  rw [sysFork]
  split
  · exact foldlRecOn (motive := Tame s) (range userEnd) _ (tame_createSpace s b)
      fun t ht v _ => ht.trans (tame_sharePage t a b v)
  · exact tame_of_pte rfl rfl

theorem tame_taskReleaseSpace (a : Nat) : Tame s (taskReleaseSpace s a) := by
  have h0 : Tame s { s with bits := fun b => if b = a then 0 else s.bits b } := tame_of_pte rfl rfl
  refine (release_induct ?_ h0).trans (tame_freePml4 _ a)
  intro t v f ht _
  exact (ht.trans (tame_pageFreeOrDecref t f)).setPte a v (by decide)

/-- A store to a page changes no entry. -/
theorem tame_store (a v off x : Nat) : Tame s (store s a v off x) := by
  rw [store]
  split <;> exact tame_of_pte rfl rfl

end Tame

end CoreZ.Proofs.Mm.Cow
