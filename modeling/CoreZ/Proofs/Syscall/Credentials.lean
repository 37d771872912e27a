import CoreZ.Syscall.Credentials

/-!
# `CoreZ.Proofs.Syscall.Credentials`: an unprivileged process keeps to its ids

A process whose three user ids are not zero never gets an id that it did not
have among them. The admission test of each call keeps the new ids within the
old ones, so that zero cannot come in and the privileged branch of
`lc_setuid` is never taken.
-/

set_option autoImplicit false

namespace CoreZ.Proofs.Syscall.Credentials

open CoreZ.Lib CoreZ.Syscall.Credentials

/-- The id is one of the three. -/
def Has (c : Ids) (i : UInt32) : Prop := i = c.uid ∨ i = c.euid ∨ i = c.suid

/-- The ids of `c` are ids of `c₀`. -/
structure Within (c₀ c : Ids) : Prop where
  uid : Has c₀ c.uid
  euid : Has c₀ c.euid
  suid : Has c₀ c.suid

/-- The id is what an argument asks for, if it asks for one. -/
def Asked (a : UInt64) (i : UInt32) : Prop := a ≠ keep → i = a.toUInt32

/-- The assignments that a call asks for are made in the ids. -/
def Assigned (c : Ids) : Call → Prop
  | .setuid a => c.euid = a.toUInt32
  | .setreuid a b => Asked a c.uid ∧ Asked b c.euid
  | .setresuid a b s => Asked a c.uid ∧ Asked b c.euid ∧ Asked s c.suid

/-- The ids stay within the first ones, and the call changes nothing or does
all that it was asked. -/
def Contained (c₀ c : Ids) (k : Call) : Prop :=
  Within c₀ (call c k).2 ∧
    (call c k = (-eperm, c) ∨ (call c k).1 = 0 ∧ Assigned (call c k).2 k)

variable {c₀ c : Ids}

theorem within_self : Within c c := ⟨.inl rfl, .inr (.inl rfl), .inr (.inr rfl)⟩

theorem Within.has {i : UInt32} (h : Within c₀ c) (hi : Has c i) : Has c₀ i := by
  rcases hi with rfl | rfl | rfl
  · exact h.uid
  · exact h.euid
  · exact h.suid

theorem Within.trans {c' : Ids} (h : Within c₀ c) (h' : Within c c') : Within c₀ c' :=
  ⟨h.has h'.uid, h.has h'.euid, h.has h'.suid⟩

theorem asked_pick (a : UInt64) (i : UInt32) : Asked a (pick a i) := fun h => if_neg h

/-- What the admission tests of the calls establish. -/
theorem has_of_not_all_ne {i : UInt32} (h : ¬ (i ≠ c.uid ∧ i ≠ c.euid ∧ i ≠ c.suid)) : Has c i := by
  unfold Has
  grind

/-- One call of a process whose effective id is not zero. -/
theorem contained_call (h : c.euid ≠ 0) (k : Call) : Contained c c k := by
  cases k with
  | setuid a =>
    rw [Contained, call, lcSetuid, if_neg h]
    split
    case isTrue hv =>
      -- The real and saved ids stay, and the new effective id is one of them.
      refine ⟨⟨.inl rfl, ?_, .inr (.inr rfl)⟩, .inr ⟨rfl, rfl⟩⟩
      exact hv.imp_right .inr
    case isFalse => exact ⟨within_self, .inl rfl⟩
  | setreuid a b =>
    rw [Contained, call, lcSetreuid]
    split
    case isTrue => exact ⟨within_self, .inl rfl⟩
    case isFalse hno =>
      obtain ⟨hru, heu⟩ := not_or.mp fun hbad => hno ⟨h, hbad⟩
      have heu := has_of_not_all_ne heu
      refine ⟨⟨has_of_not_all_ne fun hne => hru ⟨hne.1, hne.2.2⟩, heu, ?_⟩,
        .inr ⟨rfl, asked_pick a _, asked_pick b _⟩⟩
      split
      · exact heu
      · exact .inr (.inr rfl)
  | setresuid a b s =>
    rw [Contained, call, lcSetresuid]
    split
    case isTrue => exact ⟨within_self, .inl rfl⟩
    case isFalse hno =>
      obtain ⟨hru, hrest⟩ := not_or.mp fun hbad => hno ⟨h, hbad⟩
      obtain ⟨heu, hsu⟩ := not_or.mp hrest
      exact ⟨⟨has_of_not_all_ne hru, has_of_not_all_ne heu, has_of_not_all_ne hsu⟩,
        .inr ⟨rfl, asked_pick a _, asked_pick b _, asked_pick s _⟩⟩

/-- Every call of an unprivileged process keeps to the three ids it began
with, and fails without change or makes the assignments it is asked for. -/
theorem user_ids_contained (hu : c₀.uid ≠ 0) (he : c₀.euid ≠ 0) (hs : c₀.suid ≠ 0)
    (calls : List Call) : Along step (Contained c₀) c₀ calls := by
  have hzero : ∀ i, Has c₀ i → i ≠ 0 := by
    rintro i (rfl | rfl | rfl) <;> assumption
  have hcall : ∀ c k, Within c₀ c → Contained c₀ c k := fun c k h =>
    (contained_call (hzero _ h.euid) k).imp_left h.trans
  refine Along.of_invariant (I := Within c₀) ?_ (fun c k h _ => hcall c k h) calls c₀ within_self
    (along_true _ _)
  rintro c k c' h - ⟨⟩
  exact (hcall c k h).1

/-- The saved id comes back as effective id, and an id from outside is
refused. -/
theorem user_ids_contained_dropped : Along step (Contained ⟨1000, 1000, 500⟩) ⟨1000, 1000, 500⟩
    [.setreuid keep 500, .setuid 1000, .setresuid 0 0 0] :=
  user_ids_contained (by decide) (by decide) (by decide) _

end CoreZ.Proofs.Syscall.Credentials
