import CoreZ.Lib.Guard
import CoreZ.Syscall.Signal

/-!
# `CoreZ.Syscall.UserAccess`: the checks of user addresses

`access_ok` and the copying functions of `kernel/mm/access.c`. A pointer has
64 bits; the checks look at its low half, where all user pages are.

The page tables are those of the current task as the walk sees them: the
directory entry and the page entry of a page, and whether `page_cow_resolve`
would give the page a frame of its own.

The programs log what they check and what they touch. A page test that
succeeds is logged as a check of the bytes of the page that are used next.
User memory is `mem`: `mem t` is what it holds after `t` acts of the call, so
every store of the call itself and of other threads of the process is in it.
What the kernel copies into its own buffers is left out.
-/

set_option autoImplicit false

namespace CoreZ.Syscall

open CoreZ.Lib (Buf Dir Call)
open CoreZ.Mm.Cow (Pte present writable isUser isCow)

/-- `PTE_PS`: the directory entry maps a large page. -/
def isLarge (e : Pte) : Bool := e.getLsbD 7

/-- The page tables and the memory that user addresses lead to. -/
structure UserSpace where
  /-- The directory entry of a page, if there is a directory. -/
  pde : Nat → Option Pte
  pte : Nat → Pte
  /-- `page_cow_resolve` succeeds for the page. -/
  cowResolve : Nat → Bool
  mem : Nat → Buf

/-- `(uint32_t)p`. -/
def lo (p : BitVec 64) : Nat := p.toNat % 4294967296

/-- `(int32_t)p`. -/
def sint (p : BitVec 64) : Int := (p.setWidth 32).toInt

variable (u : UserSpace)

/-- The test of one page, as `user_page_readable`, `user_page_writable` and
`user_range_walk` make it. -/
def pageOk (d : Dir) (v : Nat) : Bool :=
  match u.pde v with
  | none => false
  | some e =>
    if present e = false then false
    else if isLarge e then
      match d with
      | .read => isUser e
      | .write => isUser e && writable e
    else
      present (u.pte v) && isUser (u.pte v) &&
        match d with
        | .read => true
        | .write => writable (u.pte v) || (isCow (u.pte v) && u.cowResolve v)

/-- `user_range_walk`. The pages are below `USER_SPACE_END`, so the page
address of the loop does not start over. -/
def userRangeWalk (d : Dir) (addr len : Nat) : Bool :=
  if addr < userVaddrStart ∨ len = 0 ∨ userSpaceEnd - userVaddrStart < len ∨
      userSpaceEnd - len < addr then false
  else
    let first := addr / pageSize
    let last := (addr + len - 1) / pageSize
    (List.range (last + 1 - first)).all fun k => pageOk u d (first + k)

/-- The answer of `access_ok` for the low half `a` of a pointer. -/
def accessAnswer (d : Dir) (a n : Nat) : Bool :=
  if n = 0 then true
  else if a < userVaddrStart ∨ userSpaceEnd ≤ a ∨ userSpaceEnd - a < n then false
  else userRangeWalk u d a n

/-- `access_ok`. -/
def accessOk (d : Dir) (p : BitVec 64) (n : Nat) : Call Bool :=
  if accessAnswer u d (lo p) n then do
    Call.accept ⟨lo p, n, d⟩
    return true
  else return false

/-- A byte of user memory is read. -/
def readByte (x : Nat) : Call UInt8 := do
  let acts ← get
  Call.touch ⟨x, 1, .read⟩
  return u.mem acts.length x

/-- The loop over the bytes of one page in `user_str_span`: whether it
meets the end of the string. -/
def scanPage (u : UserSpace) : (n va : Nat) → Call Bool
  | 0, _ => return false
  | n + 1, va => do
      let c ← readByte u va
      if c = 0 then return true else scanPage u n (va + 1)

/-- The bytes of the page from `va` on, at most `left`. -/
def pageRoom (va left : Nat) : Nat := min (pageSize - va % pageSize) left

/-- The loop over the pages in `user_str_span`. Every round uses at least
one byte, so `rounds` is enough when it is `left`. Nothing keeps the address
below `USER_SPACE_END`, and it starts over at `2 ^ 32`. -/
def spanPages (u : UserSpace) : (rounds va left : Nat) → Call Bool
  | 0, _, _ => return false
  | rounds + 1, va, left => do
      if left = 0 then return false
      else if pageOk u .read (va / pageSize) = false then return false
      else do
        let n := pageRoom va left
        Call.accept ⟨va, n, .read⟩
        let found ← scanPage u n va
        if found then return true else spanPages u rounds ((va + n) % 4294967296) (left - n)

/-- `copy_str_from_user`, and whether it returns 0. -/
def copyStrFromUser (src : BitVec 64) (max : Nat) : Call Bool :=
  if src = 0 ∨ max = 0 then return false
  else if lo src < userVaddrStart ∨ userSpaceEnd ≤ lo src then return false
  else spanPages u max (lo src) max

/-- The loop of `copy_from_user` and `copy_to_user`: a page is tested and
then copied. -/
def copyPages (u : UserSpace) (d : Dir) : (rounds va left : Nat) → Call Bool
  | 0, _, _ => return true
  | rounds + 1, va, left => do
      if left = 0 then return true
      else if pageOk u d (va / pageSize) = false then return false
      else do
        let n := pageRoom va left
        Call.accept ⟨va, n, d⟩
        Call.touch ⟨va, n, d⟩
        copyPages u d rounds (va + n) (left - n)

/-- `copy_from_user` (reading) and `copy_to_user` (writing), and whether
they return 0. -/
def copyUser (d : Dir) (p : BitVec 64) (len : Nat) : Call Bool :=
  if len = 0 then return true
  else if lo p < userVaddrStart ∨ userSpaceEnd ≤ lo p ∨ userSpaceEnd - lo p < len then return false
  else copyPages u d len (lo p) len

/-- `copy_to_user`. -/
def copyToUser (udst : BitVec 64) (len : Nat) : Call Bool :=
  copyUser u .write udst len

/-- A little-endian number of user memory is read with one access. -/
def readLe (width x : Nat) : Call Nat := do
  let acts ← get
  Call.touch ⟨x, width, .read⟩
  return CoreZ.Lib.leNat (u.mem acts.length) width x

end CoreZ.Syscall
