import CoreZ.Syscall.UserAccess

/-!
# `CoreZ.Proofs.Syscall.UserAccess`: what the checks of user addresses give

A check that is answered with yes is about a range of the user part of the
32-bit space (`accessAnswer_inUser`), and it lets the program use that range
(`checked_keeps`). It says nothing about a pointer with an upper half: the
range that was checked is the one of the low half.

The copying functions test each page before they copy it, so they keep the
log guarded for every pointer (`copyStrFromUser_keeps`, `copyUser_keeps`).
-/

set_option autoImplicit false

namespace CoreZ.Syscall

open CoreZ.Lib
open CoreZ.Mm.Cow (present isUser writable)

variable {α : Type} {rs : List Range} {u : UserSpace} {d : Dir} {p : BitVec 64} {n : Nat}

/-- The bytes `[a, a + n)` are in the user part of the space. -/
def InUser (a n : Nat) : Prop := userVaddrStart ≤ a ∧ a + n ≤ userSpaceEnd
  deriving Decidable

/-- User space ends with the 32-bit space. -/
theorem InUser.below {a n : Nat} (h : InUser a n) : a + n ≤ 4294967296 := by
  obtain ⟨-, hend⟩ := h
  unfold userSpaceEnd at hend
  omega

/-- Only a range of the user part is accepted. -/
theorem accessAnswer_inUser {a : Nat} (h : accessAnswer u d a n = true) : n = 0 ∨ InUser a n := by
  unfold accessAnswer at h
  split at h
  next hn => exact .inl hn
  next hn =>
    split at h
    next => exact absurd h Bool.false_ne_true
    next hout =>
      refine .inr ⟨?_, ?_⟩
      · omega
      · omega

/-- The pointer leads to the range that its low half names. -/
theorem lo_of_lt (h : p.toNat < 4294967296) : lo p = p.toNat := Nat.mod_eq_of_lt h

/-! ### Rules -/

/-- A range that is accepted can be used. -/
theorem accepted_bind {c : Range} {f : Unit → Call α} (h : Keeps (Granted (c :: rs)) (f ())) :
    Keeps (Granted rs) (Call.accept c >>= f) := by
  refine Triple.bind accept_granted fun _ => ?_
  exact h.weaken (fun _ h => h) (fun _ _ h => h.tail) fun _ _ h => h.tail

/-- After a check that is answered with yes, the range can be used. -/
theorem accessOk_bind {f : Bool → Call α}
    (hyes : accessAnswer u d (lo p) n = true → Keeps (Granted (⟨lo p, n, d⟩ :: rs)) (f true))
    (hno : Keeps (Granted rs) (f false)) :
    Keeps (Granted rs) (accessOk u d p n >>= f) := by
  by_cases hans : accessAnswer u d (lo p) n = true
  · have hok : accessOk u d p n = (do Call.accept ⟨lo p, n, d⟩; return true) := if_pos hans
    rw [hok, bind_assoc]
    exact accepted_bind (hyes hans)
  · have hok : accessOk u d p n = return false := if_neg hans
    rw [hok, pure_bind]
    exact hno

/-- The part of a checked buffer that starts at `o`, through the whole
pointer: the pointer has no upper half, or there is nothing to touch. -/
theorem buffer_keeps {d' : Dir} {m : Nat} (o : Nat) (hp : n = 0 ∨ p.toNat < 4294967296)
    (hm : o + m ≤ n) (hd : d = .write ∨ d' = .read) :
    Keeps (Granted (⟨lo p, n, d⟩ :: rs)) (Call.touch ⟨p.toNat + o, m, d'⟩) := by
  rcases hp with hn | hp
  · exact touch_keeps_empty (show m = 0 by omega)
  refine touch_keeps (List.mem_cons_self) ⟨?_, ?_, hd⟩
  · show lo p ≤ p.toNat + o
    rw [lo_of_lt hp]
    omega
  · show p.toNat + o + m ≤ lo p + n
    rw [lo_of_lt hp]
    omega

/-- A value is read from memory with one access. -/
theorem peek_keeps {c r : Range} {f : List Act → α} (hc : c ∈ rs) (h : c.Holds r) :
    Keeps (Granted rs) (do
      let acts ← get
      Call.touch r
      return f acts) := by
  refine .get_bind fun acts => ?_
  refine .bind (Q := fun _ => Granted rs) ((touch_keeps hc h).pre fun _ hlog => hlog.2) fun _ => ?_
  exact .pure fun _ hlog => hlog

/-- A byte of a checked range. -/
theorem readByte_keeps {c : Range} {x : Nat} (hc : c ∈ rs) (h : c.Holds ⟨x, 1, .read⟩) :
    Keeps (Granted rs) (readByte u x) := peek_keeps hc h

theorem readLe_keeps {c : Range} {width x : Nat} (hc : c ∈ rs) (h : c.Holds ⟨x, width, .read⟩) :
    Keeps (Granted rs) (readLe u width x) := peek_keeps hc h

/-! ### Copying -/

/-- By induction on the bytes of the page. -/
theorem scanPage_keeps {c : Range} (hc : c ∈ rs) :
    ∀ (n va : Nat), c.Holds ⟨va, n, .read⟩ → Keeps (Granted rs) (scanPage u n va) := by
  intro n
  induction n with
  | zero => intro va _; exact .pure
  | succ n ih =>
    intro va hold
    obtain ⟨hbase, hend, hdir⟩ := hold
    refine .bind (readByte_keeps hc ⟨hbase, ?_, hdir⟩) fun b => ?_
    · show va + 1 ≤ c.base + c.len
      have : va + (n + 1) ≤ c.base + c.len := hend
      omega
    · refine .ite .pure (ih (va + 1) ⟨?_, ?_, hdir⟩)
      · exact Nat.le_succ_of_le hbase
      · show va + 1 + n ≤ c.base + c.len
        have : va + (n + 1) ≤ c.base + c.len := hend
        omega

/-- By induction on the pages; each one is checked before it is read. -/
theorem spanPages_keeps :
    ∀ (rounds va left : Nat), Keeps (Granted rs) (spanPages u rounds va left) := by
  intro rounds
  induction rounds generalizing rs with
  | zero => intro va left; exact .pure
  | succ rounds ih =>
    intro va left
    refine .ite .pure (.ite .pure ?_)
    -- the page has been tested: its bytes may be read, and the rest is the next round's
    refine accepted_bind (.bind ?_ fun found => .ite .pure (ih _ _))
    exact scanPage_keeps List.mem_cons_self _ va (Range.Holds.refl _)

theorem copyStrFromUser_keeps {src : BitVec 64} {max : Nat} :
    Keeps (Granted rs) (copyStrFromUser u src max) :=
  .ite .pure (.ite .pure (spanPages_keeps _ _ _))

/-- The same for a copy. -/
theorem copyPages_keeps :
    ∀ (rounds va left : Nat), Keeps (Granted rs) (copyPages u d rounds va left) := by
  intro rounds
  induction rounds generalizing rs with
  | zero => intro va left; exact .pure
  | succ rounds ih =>
    intro va left
    refine .ite .pure (.ite .pure ?_)
    refine accepted_bind (.bind ?_ fun _ => ih _ _)
    exact touch_keeps List.mem_cons_self (Range.Holds.refl _)

theorem copyUser_keeps {q : BitVec 64} {len : Nat} : Keeps (Granted rs) (copyUser u d q len) :=
  .ite .pure (.ite .pure (copyPages_keeps _ _ _))

/-! ### A space in which nothing is refused -/

/-- Every user page is there and can be written. -/
def openSpace (mem : Nat → Buf) : UserSpace where
  pde _ := some 7
  pte _ := 7
  cowResolve _ := false
  mem := mem

theorem pageOk_open (mem : Nat → Buf) (d : Dir) (v : Nat) : pageOk (openSpace mem) d v = true := by
  cases d <;> simp [pageOk, openSpace, present, isLarge, isUser, writable]

/-- Where all pages are there, a range of user space is granted. -/
theorem accessAnswer_open {mem : Nat → Buf} {a : Nat} (h : InUser a n) :
    accessAnswer (openSpace mem) d a n = true := by
  obtain ⟨hlo, hhi⟩ := h
  unfold accessAnswer
  split
  next => rfl
  next hn =>
    rw [if_neg (by unfold userSpaceEnd at hhi ⊢; omega), userRangeWalk,
      if_neg (by unfold userSpaceEnd userVaddrStart at *; omega)]
    simp [pageOk_open]

end CoreZ.Syscall
