import CoreZ.Lib.Run

/-!
# `CoreZ.Syscall.Credentials`: the user ids of a process

The model of `lc_setuid`, `lc_setreuid` and `lc_setresuid` in
`kernel/syscall/linux_compat_proc.c`. A call returns its result and the ids
after it. The calls read and write the ids of the current process only.
-/

set_option autoImplicit false

namespace CoreZ.Syscall.Credentials

/-- The user ids of a `struct TASK`. -/
structure Ids where
  uid : UInt32
  euid : UInt32
  suid : UInt32
  deriving DecidableEq

/-- `LINUX_EPERM`. -/
def eperm : Int := 1

/-- `(uint64_t)-1`, the argument that leaves an id as it is. -/
def keep : UInt64 := 0xFFFFFFFFFFFFFFFF

/-- The id an argument stands for, cut to 32 bits. -/
def pick (a : UInt64) (old : UInt32) : UInt32 := if a = keep then old else a.toUInt32

def lcSetuid (c : Ids) (a : UInt64) : Int × Ids :=
  let v := a.toUInt32
  if c.euid = 0 then (0, ⟨v, v, v⟩)
  else if v = c.uid ∨ v = c.suid then (0, { c with euid := v })
  else (-eperm, c)

def lcSetreuid (c : Ids) (a b : UInt64) : Int × Ids :=
  let ru := pick a c.uid
  let eu := pick b c.euid
  if c.euid ≠ 0 ∧ ((ru ≠ c.uid ∧ ru ≠ c.suid) ∨ (eu ≠ c.uid ∧ eu ≠ c.euid ∧ eu ≠ c.suid)) then
    (-eperm, c)
  else
    -- The real and effective id are stored before the saved one is decided.
    (0, ⟨ru, eu, if eu ≠ 0 ∨ (b ≠ keep ∧ eu ≠ ru) then eu else c.suid⟩)

def lcSetresuid (c : Ids) (a b s : UInt64) : Int × Ids :=
  let ru := pick a c.uid
  let eu := pick b c.euid
  let su := pick s c.suid
  if c.euid ≠ 0 ∧
      ((ru ≠ c.uid ∧ ru ≠ c.euid ∧ ru ≠ c.suid) ∨ (eu ≠ c.uid ∧ eu ≠ c.euid ∧ eu ≠ c.suid) ∨
        (su ≠ c.uid ∧ su ≠ c.euid ∧ su ≠ c.suid)) then
    (-eperm, c)
  else (0, ⟨ru, eu, su⟩)

inductive Call where
  | setuid (a : UInt64)
  | setreuid (a b : UInt64)
  | setresuid (a b s : UInt64)

def call (c : Ids) : Call → Int × Ids
  | .setuid a => lcSetuid c a
  | .setreuid a b => lcSetreuid c a b
  | .setresuid a b s => lcSetresuid c a b s

def step (c : Ids) (k : Call) : Option Ids := some (call c k).2

end CoreZ.Syscall.Credentials
