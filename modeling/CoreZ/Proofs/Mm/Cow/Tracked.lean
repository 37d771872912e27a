import CoreZ.Proofs.Mm.Cow.Steps

/-!
# `CoreZ.Proofs.Mm.Cow.Tracked`: what keeps the counts right

`Tracked R s` says that every entry refers to a frame that is not in the
pool, and that the number of entries of a frame and its `frame_owner`
are related by `R`. Four edits of one entry keep it, for every counting
discipline `R`: a fresh frame is mapped, an entry is dropped, an entry is
shared, an entry is moved to a copy. Each is stated for any state with
the slots, counts and pool that the edit leads to, since the functions of
the source also write the bitmap and the contents of frames.

No page of the second gigabyte is mapped where the counts are right: its
entry is one for all spaces, and an edit of it is an edit of every space.
-/

set_option autoImplicit false

namespace CoreZ.Proofs.Mm.Cow

open CoreZ.Lib.RefCount
open CoreZ.Mm.Cow
open Function

structure Tracked (R : Nat → Nat → Prop) (s : Vm) : Prop where
  fin : FiniteRefs (slots s)
  alive : ∀ a v f, slots s (a, v) = some f → s.live a = true
  alone : ∀ a v w f, slots s (a, v) = some f → slots s (a, w) = some f → v = w
  apart : ∀ a v f, slots s (a, v) = some f → sharedPage v = false
  byte : ∀ f, s.owner f < 256
  poolMem : ∀ f, 0 < s.pool f → inMemory f = true
  poolOne : ∀ f, s.pool f ≤ 1
  home : ∀ x f, slots s x = some f → inMemory f = true ∧ s.pool f = 0
  counted : ∀ f, R (refs s f) (s.owner f)

/-- The parts of the state that `Tracked` reads. -/
structure Agree (s s' : Vm) : Prop where
  live : ∀ a, s.live a = true → s'.live a = true
  slots : slots s' = slots s
  owner : s'.owner = s.owner
  pool : s'.pool = s.pool

variable {f g : Frame} {a v : Nat} {x : Nat × Nat}

section

variable {R : Nat → Nat → Prop} {s s' : Vm}

/-- A frame of the pool has no entry. -/
theorem Tracked.refs_eq_zero (h : Tracked R s) (hg : 0 < s.pool g) : refs s g = 0 := by
  refine (count_eq_zero_iff h.fin).mpr ?_
  intro x hx
  have := (h.home x g hx).2
  omega

/-- A frame that is mapped has a reference. -/
theorem Tracked.refs_pos (h : Tracked R s) (hx : slots s x = some f) :
    0 < refs s f := count_pos h.fin hx

variable {y : Nat × Nat} {o : Option Frame}

/-- The entries behind one write. -/
theorem slots_update_cases (hs : slots s' = update (slots s) x o) (hy : slots s' y = some f) :
    y = x ∧ o = some f ∨ y ≠ x ∧ slots s y = some f := by
  rw [hs] at hy
  by_cases hyx : y = x
  · subst hyx
    rw [update_self] at hy
    exact .inl ⟨rfl, hy⟩
  · rw [update_of_ne hyx] at hy
    exact .inr ⟨hyx, hy⟩

/-- How one write to an entry changes the number of references. -/
theorem Tracked.refs_update (h : Tracked R s) (hs : slots s' = update (slots s) x o) (f : Frame) :
    refs s' f + (if slots s x = some f then 1 else 0) =
      refs s f + (if o = some f then 1 else 0) := by
  rw [refs, refs, hs]
  exact count_update h.fin x o f

/-- The entries behind one that is dropped. -/
theorem slots_of_update_none (hs : slots s' = update (slots s) x none) (hy : slots s' y = some f) :
    slots s y = some f := by
  rcases slots_update_cases hs hy with ⟨-, hno⟩ | ⟨-, hy⟩
  · cases hno
  · exact hy

section

variable (h : Tracked R s)

include h

/-- The references after a new entry. -/
theorem Tracked.refs_add (hold : slots s x = none) (hs : slots s' = update (slots s) x (some g))
    (f : Frame) : refs s' f = refs s f + if f = g then 1 else 0 := by
  simpa [hold, eq_comm] using h.refs_update hs f

/-- The references after an entry is gone. -/
theorem Tracked.refs_drop (hx : slots s x = some f) (hs : slots s' = update (slots s) x none)
    (g : Frame) : refs s' g + (if g = f then 1 else 0) = refs s g := by
  simpa [hx, eq_comm] using h.refs_update hs g

/-- An entry comes, to a frame that has no other entry in its space. -/
theorem Tracked.add (hv : sharedPage v = false) (hnone : ∀ w, slots s (a, w) ≠ some g)
    (hlive : s.live a = true)
    (hs : slots s' = update (slots s) (a, v) (some g)) (hl : s'.live = s.live)
    (hbyte : ∀ f, s'.owner f < 256) (hpool : ∀ f, s'.pool f ≤ s.pool f)
    (hhome : inMemory g = true ∧ s'.pool g = 0) (hcount : ∀ f, R (refs s' f) (s'.owner f)) :
    Tracked R s' := by
  have hcases : ∀ x f, slots s' x = some f → x = (a, v) ∧ f = g ∨ x ≠ (a, v) ∧
      slots s x = some f := by
    intro x f hx
    rcases slots_update_cases hs hx with ⟨hxa, hf⟩ | hx
    · exact .inl ⟨hxa, (Option.some.inj hf).symm⟩
    · exact .inr hx
  refine ⟨by rw [hs]; exact h.fin.update _ _, ?_, ?_, ?_, hbyte, ?_, ?_, ?_, hcount⟩
  · intro b w f hf
    rw [hl]
    rcases hcases _ f hf with ⟨hbw, -⟩ | ⟨-, hf⟩
    · rw [(Prod.mk.inj hbw).1]
      exact hlive
    · exact h.alive b w f hf
  · intro b w w' f hw hw'
    rcases hcases _ f hw with ⟨hbw, rfl⟩ | ⟨-, hf⟩
    · rcases hcases _ _ hw' with ⟨hbw', -⟩ | ⟨-, hf'⟩
      · rw [(Prod.mk.inj hbw).2, (Prod.mk.inj hbw').2]
      · rw [(Prod.mk.inj hbw).1] at hf'
        exact absurd hf' (hnone w')
    rcases hcases _ _ hw' with ⟨hbw', rfl⟩ | ⟨-, hf'⟩
    · rw [(Prod.mk.inj hbw').1] at hf
      exact absurd hf (hnone w)
    · exact h.alone b w w' f hf hf'
  · intro b w f hf
    rcases hcases _ f hf with ⟨hbw, -⟩ | ⟨-, hf⟩
    · rw [(Prod.mk.inj hbw).2]
      exact hv
    · exact h.apart b w f hf
  · exact fun f hf => h.poolMem f (lt_of_lt_of_le hf (hpool f))
  · exact fun f => le_trans (hpool f) (h.poolOne f)
  · intro x f hx
    rcases hcases x f hx with ⟨-, rfl⟩ | ⟨-, hx⟩
    · exact hhome
    have := hpool f
    have hold := h.home x f hx
    exact ⟨hold.1, by omega⟩

/-- A frame of the pool is mapped where nothing was. -/
theorem Tracked.fresh (hD : Discipline R) (hv : sharedPage v = false) (hg : 0 < s.pool g)
    (hold : slots s (a, v) = none)
    (hlive : s.live a = true) (hs : slots s' = update (slots s) (a, v) (some g))
    (hl : s'.live = s.live) (ho : s'.owner = s.owner)
    (hp : s'.pool = update s.pool g (s.pool g - 1)) : Tracked R s' := by
  have hnone : ∀ x, slots s x ≠ some g := (count_eq_zero_iff h.fin).mp (h.refs_eq_zero hg)
  refine h.add hv (fun w => hnone (a, w)) hlive hs hl (fun f => ho ▸ h.byte f) ?_ ?_ ?_
  · intro f
    rw [hp, update_apply]
    split
    · next hfg =>
        rw [hfg]
        exact Nat.sub_le _ _
    · exact le_rfl
  · have := h.poolOne g
    rw [hp, update_self]
    exact ⟨h.poolMem g hg, by omega⟩
  · intro f
    have hR := h.counted f
    rw [h.refs_add hold hs, ho]
    split
    · next hfg =>
        subst hfg
        rw [h.refs_eq_zero hg] at hR ⊢
        exact hD.first _ hR
    · exact hR

/-- Entries are taken away, and the counts and the pool keep track. -/
theorem Tracked.shrink (hsub : ∀ x f, slots s' x = some f → slots s x = some f)
    (hl : ∀ a v f, slots s' (a, v) = some f → s'.live a = s.live a) (hbyte : ∀ f, s'.owner f < 256)
    (hpool : ∀ f, s'.pool f = s.pool f ∨ s'.pool f = s.pool f + 1 ∧ inMemory f = true ∧
      s.pool f = 0 ∧ ∀ x, slots s' x ≠ some f) (hcount : ∀ f, R (refs s' f) (s'.owner f)) :
    Tracked R s' := by
  refine ⟨h.fin.mono hsub, ?_, ?_, ?_, hbyte, ?_, ?_, ?_, hcount⟩
  · intro a v f hf
    rw [hl a v f hf]
    exact h.alive a v f (hsub _ f hf)
  · intro a v w f hv hw
    exact h.alone a v w f (hsub _ f hv) (hsub _ f hw)
  · exact fun a v f hf => h.apart a v f (hsub _ f hf)
  · intro f hf
    rcases hpool f with heq | ⟨-, hmem, -, -⟩
    · rw [heq] at hf
      exact h.poolMem f hf
    · exact hmem
  · intro f
    have h1 := h.poolOne f
    rcases hpool f with heq | ⟨heq, -, h0, -⟩ <;> omega
  · intro x f hx
    have hx' := h.home x f (hsub x f hx)
    rcases hpool f with heq | ⟨-, -, -, hnone⟩
    · rw [heq]
      exact hx'
    · exact absurd hx (hnone x)

/-- The invariant depends on entries, owners, pool and spaces. -/
theorem Tracked.congr (hs : Agree s s') : Tracked R s' := by
  have hsub : ∀ x f, slots s' x = some f → slots s x = some f := fun x f hx => hs.slots ▸ hx
  refine h.shrink hsub ?_ (fun f => ?_) (fun f => .inl (by rw [hs.pool])) fun f => ?_
  · intro a v f hf
    have hlive := h.alive a v f (hsub _ f hf)
    rw [hlive, hs.live a hlive]
  · rw [hs.owner]
    exact h.byte f
  · rw [refs, hs.slots, hs.owner]
    exact h.counted f

/-- An entry is dropped, and `c` is the new count of its frame. -/
theorem Tracked.dropTo {c : Nat} (hx : slots s x = some f)
    (hs : slots s' = update (slots s) x none) (hl : s'.live = s.live)
    (ho : s'.owner = update s.owner f c) (hbyte : c < 256)
    (hpool : ∀ g, s'.pool g = s.pool g ∨ s'.pool g = s.pool g + 1 ∧ inMemory g = true ∧
      s.pool g = 0 ∧ ∀ x, slots s' x ≠ some g) (hR : R (refs s' f) c) :
    Tracked R s' := by
  refine h.shrink (fun _ _ hy => slots_of_update_none hs hy) (fun _ _ _ _ => by rw [hl]) ?_
    hpool ?_
  · intro g
    rw [ho, update_apply]
    split
    · exact hbyte
    · exact h.byte g
  · intro g
    by_cases hg : g = f
    · rw [hg, ho, update_self]
      exact hR
    · have hrefs := h.refs_drop hx hs g
      rw [if_neg hg, add_zero] at hrefs
      rw [hrefs, ho, update_of_ne hg]
      exact h.counted g

/-- An entry is dropped, and its frame counted down or returned. -/
theorem Tracked.drop (hD : Discipline R) (hx : slots s x = some f)
    (hs : slots s' = update (slots s) x none) (hl : s'.live = s.live)
    (ho : s'.owner = (pageFreeOrDecref s f).owner) (hp : s'.pool = (pageFreeOrDecref s f).pool) :
    Tracked R s' := by
  obtain ⟨hmem, hpool0⟩ := h.home x f hx
  have hR := h.counted f
  have hrefs := h.refs_drop hx hs f
  rw [if_pos rfl] at hrefs
  rw [← hrefs] at hR
  rw [pageFreeOrDecref, if_pos hmem] at ho hp
  by_cases hown : s.owner f > 1
  · -- other entries are left: the count goes down
    rw [if_pos hown] at ho hp
    have hbyte := h.byte f
    exact h.dropTo hx hs hl ho (by omega) (fun g => .inl (by rw [hp]; rfl))
      (hD.decref _ _ hR hown)
  · -- the last entry of the frame is gone, and the frame goes back to the pool
    rw [if_neg hown] at ho hp
    have hp' : s'.pool = update s.pool f (s.pool f + 1) := hp
    have hlast : refs s' f = 0 := hD.last _ _ hR (by omega)
    refine h.dropTo hx hs hl ho (by decide) (fun g => ?_) (hlast ▸ hD.zero)
    by_cases hg : g = f
    · subst hg
      refine .inr ⟨by rw [hp', update_self], hmem, hpool0, ?_⟩
      exact (count_eq_zero_iff (h.fin.mono fun _ _ hy => slots_of_update_none hs hy)).mp hlast
    · exact .inl (by rw [hp', update_of_ne hg])

/-- One more entry refers to a frame, and the frame is shared. -/
theorem Tracked.share (hD : Discipline R) (hv : sharedPage v = false) {b : Nat}
    (hx : slots s x = some f)
    (hbv : slots s (b, v) = none) (hb : ∀ w, slots s (b, w) ≠ some f) (hlive : s.live b = true)
    (hown : s.owner f ≠ 255) (hs : slots s' = update (slots s) (b, v) (some f))
    (hl : s'.live = s.live) (ho : s'.owner = (pageCowShare s f).owner) (hp : s'.pool = s.pool) :
    Tracked R s' := by
  obtain ⟨hmem, hpool0⟩ := h.home x f hx
  have hbyte := h.byte f
  have ho' : s'.owner = update s.owner f (if s.owner f = 0 then 2 else s.owner f + 1) := by
    rw [ho, pageCowShare, if_pos hmem, Nat.mod_eq_of_lt (by omega)]
    rfl
  refine h.add hv hb hlive hs hl ?_ (fun g => by rw [hp]) (by rw [hp]; exact ⟨hmem, hpool0⟩) ?_
  · intro g
    have h1 := h.byte g
    rw [ho', update_apply]
    split
    · split <;> omega
    · exact h1
  · intro g
    have hR := h.counted g
    rw [h.refs_add hbv hs, ho', update_apply]
    split
    · next hg =>
        subst hg
        obtain ⟨n, hn⟩ := Nat.exists_eq_add_of_lt (h.refs_pos hx)
        rw [zero_add] at hn
        rw [hn] at hR ⊢
        exact hD.share n _ hR hown
    · exact hR

/-- A space that does not exist has no entries. -/
theorem Tracked.slots_of_dead (ha : s.live a = false) (v : Nat) : slots s (a, v) = none := by
  cases hf : slots s (a, v) with
  | none => rfl
  | some f =>
    have := h.alive a v f hf
    rw [ha] at this
    cases this

theorem Tracked.slots_createSpace (ha : s.live a = false) : slots (createSpace s a) = slots s := by
  funext ⟨b, w⟩
  have hpte := pte_clear (s := s) (t := Mm.Cow.createSpace s a) (a := a) rfl rfl b w
  rw [slots, hpte]
  split
  · next hcut => rw [entry_zero, hcut.1, h.slots_of_dead ha w]
  · rfl

/-- A new space maps nothing. -/
theorem Tracked.createSpace (ha : s.live a = false) : Tracked R (createSpace s a) := by
  refine h.congr ⟨?_, h.slots_createSpace ha, rfl, rfl⟩
  intro b hb
  simp only [CoreZ.Mm.Cow.createSpace]
  split
  · rfl
  · exact hb

/-- The pages of a space are shared with a new one, one by one. -/
theorem Tracked.fork_induct {b : Nat} (hab : a ≠ b) (hdead : s.live b = false) {tables : Bool}
    {I : Vm → Prop} (hstep : ∀ t v f, I t → t.live b = true → t.bits b = bitmapBits →
      slots t (a, v) = some f → slots t (b, v) = none → (∀ w, slots t (b, w) ≠ some f) →
      t.owner f ≠ 255 → forkPage v = true → I (sharePage a b t v))
    (hs : I s) (h0 : I (Mm.Cow.createSpace s b))
    (hcount : ∀ v, present (s.pte a v) = true → forkPage v = true →
      s.owner (frameOf (s.pte a v)) ≠ 255) : I (sysFork s a b tables) := by
  have hcs := h.slots_createSpace hdead
  rw [sysFork]
  split
  case isFalse => exact hs
  refine (share_induct (I := fun t => I t ∧ t.live b = true ∧ t.bits b = bitmapBits) hab ?_
    ⟨h0, if_pos rfl, if_pos rfl⟩ ?_ ?_ ?_).1
  · rintro t v f ⟨ht, hlive, hbits⟩ hf hbv hb hown hok
    refine ⟨hstep t v f ht hlive hbits hf hbv hb hown hok, ?_, ?_⟩
    · rw [(sharePage_of_present hab hf hok).2.2.2.1]
      exact hlive
    · rw [sharePage_bitmap.1]
      exact hbits
  · intro w
    rw [hcs]
    exact h.slots_of_dead hdead w
  · rw [hcs]
    exact h.alone a
  · intro v f hf hok
    rw [hcs] at hf
    obtain ⟨hpres, rfl⟩ := slots_present hf
    exact hcount v hpres hok

/-- An entry is moved to a frame of the pool, and its old frame counted
down. -/
theorem Tracked.move (hD : Discipline R) (hf : slots s (a, v) = some f) (hown : s.owner f > 1)
    (hg : 0 < s.pool g) (hs : slots s' = update (slots s) (a, v) (some g)) (hl : s'.live = s.live)
    (ho : s'.owner = update s.owner f (s.owner f - 1))
    (hp : s'.pool = update s.pool g (s.pool g - 1)) : Tracked R s' := by
  have hdec : pageFreeOrDecref s f = s.setOwner f (s.owner f - 1) := by
    rw [pageFreeOrDecref, if_pos (h.home _ f hf).1, if_pos hown]
  -- first the old entry goes, then the new one comes
  let t := (s.setOwner f (s.owner f - 1)).setPte a v 0
  have hv := h.apart a v f hf
  have hts : slots t = update (slots s) (a, v) none := by
    rw [slots_setPte _ _ hv, entry_zero]
    rfl
  have ht : Tracked R t := h.drop hD hf hts rfl (by rw [hdec]; rfl) (by rw [hdec]; rfl)
  refine ht.fresh hD hv hg ?_ (h.alive a v f hf) ?_ hl ho hp
  · rw [hts, update_self]
  · rw [hs, hts, update_idem]

end

/-- Entries may get lost where counts may be too high. -/
theorem Tracked.lose (h : Tracked AtMost s) (hsub : ∀ x f, slots s' x = some f → slots s x = some f)
    (hl : ∀ a v f, slots s' (a, v) = some f → s'.live a = s.live a) (ho : s'.owner = s.owner)
    (hp : s'.pool = s.pool) : Tracked AtMost s' := by
  refine h.shrink hsub hl ?_ (fun f => .inl (by rw [hp])) ?_
  · intro f
    rw [ho]
    exact h.byte f
  · intro f
    rw [ho]
    exact (h.counted f).mono (count_mono h.fin fun x hx => hsub x f hx)

/-- A frame of the pool is mapped, whatever was there before. -/
theorem Tracked.clobber (h : Tracked AtMost s) (hv : sharedPage v = false) (hg : 0 < s.pool g)
    (hlive : s.live a = true)
    (hs : slots s' = update (slots s) (a, v) (some g)) (hl : s'.live = s.live)
    (ho : s'.owner = s.owner) (hp : s'.pool = update s.pool g (s.pool g - 1)) :
    Tracked AtMost s' := by
  have hts : slots (s.setPte a v 0) = update (slots s) (a, v) none := by
    rw [slots_setPte _ _ hv, entry_zero]
  have ht : Tracked AtMost (s.setPte a v 0) := by
    exact h.lose (fun _ _ hx => slots_of_update_none hts hx) (fun _ _ _ _ => rfl) rfl rfl
  refine ht.fresh atMost_discipline hv hg ?_ hlive ?_ hl ho hp
  · rw [hts, update_self]
  · rw [hs, hts, update_idem]

end

/-- The spaces of a `fork` that is possible. -/
theorem fork_spaces {b : Nat} {s : Vm} (h : (s.live a && !s.live b) = true) :
    a ≠ b ∧ s.live b = false := by
  rw [Bool.and_eq_true_iff, Bool.not_eq_true'] at h
  refine ⟨?_, h.2⟩
  rintro rfl
  exact absurd (h.1.symm.trans h.2) (by simp)

/-! ### The start -/

/-- The frames that the pool is built from. -/
def stock (avail : Frame → Bool) (f : Frame) : Nat := if inMemory f && avail f then 1 else 0

/-- No space, and a pool with the frames of `avail`. -/
def start (nx : Bool) (avail : Frame → Bool) (mem : Frame → Nat → Nat) : Vm where
  nxUsable := nx
  live := fun _ => false
  own := fun _ _ => 0
  common := fun _ => 0
  bits := fun _ => 0
  used := fun _ _ => false
  owner := fun _ => 0
  pool := stock avail
  mem := mem

section

variable (nx : Bool) (avail : Frame → Bool) (mem : Frame → Nat → Nat)

theorem start_pte (a v : Nat) : (start nx avail mem).pte a v = 0 := ite_self 0

theorem slots_start (x : Nat × Nat) : slots (start nx avail mem) x = none := by
  rw [slots, start_pte, entry_zero]

theorem finiteRefs_start : FiniteRefs (slots (start nx avail mem)) := by
  intro f
  refine Set.finite_empty.subset ?_
  intro x hx
  exact absurd ((slots_start nx avail mem x).symm.trans hx) (by simp)

theorem refs_start (f : Frame) : refs (start nx avail mem) f = 0 := by
  refine (count_eq_zero_iff (finiteRefs_start nx avail mem)).mpr ?_
  intro x hx
  rw [slots_start] at hx
  cases hx

end

/-- The invariant holds at the start. -/
theorem tracked_start {R : Nat → Nat → Prop} (hD : Discipline R) {nx : Bool}
    {avail : Frame → Bool} {mem : Frame → Nat → Nat} : Tracked R (start nx avail mem) := by
  have hnone : ∀ {x f} {P : Prop}, slots (start nx avail mem) x = some f → P := by
    intro x f P hf
    rw [slots_start] at hf
    cases hf
  refine ⟨finiteRefs_start nx avail mem, fun _ _ _ hf => hnone hf, fun _ _ _ _ hf => hnone hf,
    fun _ _ _ hf => hnone hf, fun _ => Nat.zero_lt_succ 255, ?_, ?_, fun _ _ hf => hnone hf, ?_⟩
  · intro f hf
    simp only [start, stock] at hf
    split at hf
    · next hm => exact (Bool.and_eq_true_iff.mp hm).1
    · omega
  · intro f
    simp only [start, stock]
    split <;> omega
  · intro f
    rw [refs_start]
    exact hD.zero

/-- A process without pages. -/
def oneSpace : Vm := createSpace (start true (fun _ => true) fun _ _ => 0) 1

/-- A process with one page. -/
def onePage : Vm :=
  getAPage (createSpace (start true (fun _ => true) fun _ _ => 0) 1) 1 0x8048 (some 0x100) true

/-- It has no other. -/
theorem onePage_pte {a v : Nat} (h : ¬ (a = 1 ∧ v = 0x8048)) : onePage.pte a v = 0 := by
  have hpte : onePage.pte a v = oneSpace.pte a v := setPte_of_ne (by decide) fun heq =>
    h ⟨(Prod.mk.inj heq).1, (Prod.mk.inj heq).2⟩
  have hempty : oneSpace.pte a v = 0 := by
    simp [oneSpace, createSpace, start, Vm.pte]
  rw [hpte, hempty]

end CoreZ.Proofs.Mm.Cow
