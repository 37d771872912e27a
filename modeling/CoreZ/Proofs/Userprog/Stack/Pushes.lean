import Mathlib.Data.List.Forall2
import Mathlib.Order.Nat
import CoreZ.Lib.Layout
import CoreZ.Proofs.Userprog.Loader.Inside
import CoreZ.Userprog.Execve

/-!
# `CoreZ.Proofs.Userprog.Stack.Pushes`: what `sys_execve` puts on the stack

The stack is filled from the top downwards. Each push stores below the stack
pointer only, so what was pushed before stays (`Wrote`), and the regions of
the pushes are stacked upon each other (`Pushed`). `buildStack_ok` adds the
pushes up for the whole stack.
-/

set_option autoImplicit false

namespace CoreZ.Proofs.Userprog.Stack

open CoreZ.Lib
open CoreZ.Userprog.Exec
open CoreZ.Proofs.Userprog.Loader (storableBytes_le)
open List

/-! ### Stores -/

/-- A store of bytes between `lo` and `hi`. -/
def StoreIn (lo hi : Nat) : Touch → Prop
  | .store a n => lo ≤ a ∧ a + n ≤ hi
  | _ => False

/-- `t` is `s` after stores between `lo` and `hi`. -/
structure Wrote (lo hi : Nat) (s t : Caller) : Prop where
  pages : t.space.present = s.space.present
  ids : t.uid = s.uid ∧ t.euid = s.euid ∧ t.gid = s.gid ∧ t.egid = s.egid
  bytes : Within lo hi s.space.mem t.space.mem
  stores : ∃ new, t.trace = new ++ s.trace ∧ ∀ x ∈ new, StoreIn lo hi x

variable {lo hi lo' : Nat} {path : List UInt8} {argv envs : List (Nat × List UInt8)} {e : Entry}

/-- A store in a part of a range. -/
theorem StoreIn.mono {hi' : Nat} {x : Touch} (h : StoreIn lo hi x) (hlo : lo' ≤ lo)
    (hhi : hi ≤ hi') :
    StoreIn lo' hi' x := by
  cases x with
  | store a n => exact ⟨le_trans hlo h.1, le_trans h.2 hhi⟩
  | map v => exact h
  | free v => exact h
  | protect v => exact h
  | ids => exact h

namespace Wrote

variable {lo hi lo' hi' : Nat} {s t u : Caller}

theorem refl (lo hi : Nat) (s : Caller) : Wrote lo hi s s where
  pages := rfl
  ids := ⟨rfl, rfl, rfl, rfl⟩
  bytes := Within.refl lo hi _
  stores := ⟨[], rfl, fun _ hx => absurd hx not_mem_nil⟩

/-- A wider range. -/
theorem mono (h : Wrote lo hi s t) (hlo : lo' ≤ lo) (hhi : hi ≤ hi') : Wrote lo' hi' s t where
  pages := h.pages
  ids := h.ids
  bytes := h.bytes.mono hlo hhi
  stores := by
    obtain ⟨new, hnew, hin⟩ := h.stores
    exact ⟨new, hnew, fun x hx => (hin x hx).mono hlo hhi⟩

/-- Two programs in a row. -/
theorem trans (h : Wrote lo hi s t) (h' : Wrote lo hi t u) : Wrote lo hi s u where
  pages := h'.pages.trans h.pages
  ids := by
    obtain ⟨h1, h2, h3, h4⟩ := h.ids
    obtain ⟨h1', h2', h3', h4'⟩ := h'.ids
    exact ⟨h1'.trans h1, h2'.trans h2, h3'.trans h3, h4'.trans h4⟩
  bytes := h.bytes.trans h'.bytes
  stores := by
    obtain ⟨new, hnew, hin⟩ := h.stores
    obtain ⟨new', hnew', hin'⟩ := h'.stores
    refine ⟨new' ++ new, by rw [hnew', hnew, append_assoc], fun x hx => ?_⟩
    rcases mem_append.mp hx with hx | hx
    · exact hin' x hx
    · exact hin x hx

/-- Stores below what has been stored. -/
theorem below (h : Wrote lo hi s t) (h' : Wrote lo' lo t u) (hlo : lo' ≤ lo) (hhi : lo ≤ hi) :
    Wrote lo' hi s u :=
  (h.mono hlo le_rfl).trans (h'.mono le_rfl hhi)

end Wrote

variable {b : Buf} {s t : Caller} {env : Env} {img : Image} {strs : List (Nat × List UInt8)}
  {ws : List Nat} {a argc aw r sp : Nat} {u : Unit}

/-- A store that ends has stored all its bytes. -/
theorem storeBytes_ok {n : Nat} (h : storeBytes env a n b s = .ok u t) :
    Wrote a (a + n) s t ∧ ∀ i < n, t.space.mem (a + i) = b i := by
  obtain ⟨s₁, s₂, hget, h⟩ := bind_eq_ok h
  cases hget
  obtain ⟨_, s₃, hset, h⟩ := bind_eq_ok h
  cases hset
  have hall : storableBytes env s a n = n := by
    refine Nat.le_antisymm (storableBytes_le env s a n) (Nat.le_of_not_lt fun hlt => ?_)
    rw [if_pos hlt] at h
    cases h
  rw [if_neg (by rw [hall]; exact Nat.lt_irrefl n)] at h
  cases h
  rw [hall]
  refine ⟨⟨rfl, ⟨rfl, rfl, rfl, rfl⟩, Within.blit _ a n b, [.store a n], rfl, fun x hx => ?_⟩,
    fun i hi => blit_add hi⟩
  rw [mem_singleton.mp hx]
  exact ⟨le_rfl, le_rfl⟩

/-- A difference that does not wrap. -/
theorem sub32_eq {b : Nat} (hb : b ≤ a) (ha : a < 0x100000000) : sub32 a b = a - b := by
  unfold sub32 u32
  omega

/-- The test was true. -/
theorem require_ok {c : Bool} (h : require c s = .ok u t) : c = true ∧ t = s := by
  cases c with
  | true =>
    cases h
    exact ⟨rfl, rfl⟩
  | false => cases h

/-! ### Strings -/

/-- The bytes at `a` are the first ones of the string, and zeroes. -/
def Copied (mem : Buf) (a : Nat) (p : Nat × List UInt8) : Prop :=
  ∀ i < p.1, mem (a + i) = stringBuf p.2 i

/-- A string is pushed: the new pointer is aligned, and the bytes stand there. -/
theorem pushBytes_ok {len : Nat} (haw : 0 < aw) (hsp : sp ≤ userStackTop) (hlen : len ≤ sp)
    (h : pushBytes env aw len b sp s = .ok r t) :
    r = (sp - len) / aw * aw ∧ userStackBottom ≤ r ∧ r + len ≤ sp ∧ sp < r + len + aw ∧
      Wrote r sp s t ∧ ∀ i < len, t.space.mem (r + i) = b i := by
  unfold pushBytes at h
  have htop : userStackTop = 0xc0000000 := rfl
  rw [sub32_eq hlen (by omega)] at h
  obtain ⟨_, s₁, hreq, h₁⟩ := bind_eq_ok h
  obtain ⟨hbottom, rfl⟩ := require_ok hreq
  obtain ⟨_, s₂, hstore, h₂⟩ := bind_eq_ok h₁
  cases h₂
  obtain ⟨hwrote, hbytes⟩ := storeBytes_ok hstore
  have hdiv := Nat.div_add_mod (sp - len) aw
  have hmod := Nat.mod_lt (sp - len) haw
  rw [mul_comm] at hdiv
  have hend : (sp - len) / aw * aw + len ≤ sp := by omega
  exact ⟨rfl, of_decide_eq_true hbottom, hend, by omega, hwrote.mono le_rfl hend, hbytes⟩

/-- How far pushing the strings lowers the stack pointer, at most: words
have up to 8 bytes. -/
def room : List (Nat × List UInt8) → Nat
  | [] => 0
  | p :: strs => p.1 + 8 + room strs

/-- The strings have been pushed from `sp` down to `sp'`, to the addresses
`addrs`. -/
structure Pushed (aw : Nat) (strs : List (Nat × List UInt8)) (sp sp' : Nat) (addrs : List Nat)
    (s t : Caller) : Prop where
  bottom : userStackBottom ≤ sp'
  drop : sp ≤ sp' + room strs
  aligned : aw ∣ sp → aw ∣ sp'
  wrote : Wrote sp' sp s t
  regions : Stacked sp' (addrs.zip (strs.map Prod.fst)) sp
  copied : List.Forall₂ (Copied t.space.mem) addrs strs

/-- What was pushed stays when more is pushed below it. -/
theorem copied_of_within {mem mem' : Buf} {addrs : List Nat}
    (h : List.Forall₂ (Copied mem) addrs strs)
    (hstack : Stacked lo (addrs.zip (strs.map Prod.fst)) hi) (hw : Within lo' lo mem mem') :
    List.Forall₂ (Copied mem') addrs strs := by
  induction h generalizing lo with
  | nil => exact List.Forall₂.nil
  | cons hhead _ ih =>
    refine List.Forall₂.cons (fun i hi => ?_) (ih hstack.2 (hw.mono le_rfl ?_))
    · exact (hw _ (.inr (le_trans hstack.1 (Nat.le_add_right _ _)))).trans (hhead i hi)
    · exact le_trans hstack.1 (Nat.le_add_right _ _)

/-- By induction on the strings; each one starts below the one before. -/
theorem pushStrings_ok (haw : 0 < aw) (haw8 : aw ≤ 8) {r : Nat × List Nat}
    (hlo : userStackBottom ≤ sp) (hhi : sp ≤ userStackTop)
    (hlen : ∀ p ∈ strs, p.1 ≤ userStackBottom) (h : pushStrings env aw strs sp s = .ok r t) :
    Pushed aw strs sp r.1 r.2 s t := by
  induction strs generalizing r t with
  | nil =>
    cases h
    exact ⟨hlo, le_rfl, id, Wrote.refl _ _ _, le_rfl, List.Forall₂.nil⟩
  | cons p strs ih =>
    -- the strings behind this one are pushed first
    obtain ⟨r₁, s₁, hrest, h⟩ := bind_eq_ok h
    obtain ⟨a, s₂, hpush, h⟩ := bind_eq_ok h
    cases h
    have hr := ih (fun q hq => hlen q (mem_cons_of_mem _ hq)) hrest
    have hle : r₁.1 ≤ sp := hr.regions.le
    have hp : p.1 ≤ r₁.1 := le_trans (hlen p mem_cons_self) hr.bottom
    obtain ⟨ha, hbottom, hend, hdrop, hwrote, hbytes⟩ :=
      pushBytes_ok haw (le_trans hle hhi) hp hpush
    have hle' : a ≤ r₁.1 := le_trans (Nat.le_add_right _ _) hend
    have hroom : room (p :: strs) = p.1 + 8 + room strs := rfl
    refine ⟨hbottom, ?_, fun _ => ?_, hr.wrote.below hwrote hle' hle, ⟨le_rfl, ?_⟩,
      List.Forall₂.cons hbytes (copied_of_within hr.copied hr.regions hwrote.bytes)⟩
    · have := hr.drop
      omega
    · rw [ha]
      exact Nat.dvd_mul_left _ _
    · exact hr.regions.lower hend

/-! ### Words -/

/-- A row of words begins with its first word. -/
theorem words_cons {width n o w : Nat} (hw : leNat b width o = w)
    (hws : row b width n (o + width) = ws) : row b width (n + 1) o = w :: ws := by
  rw [← hw, ← hws]
  rfl

/-- The bytes of a word give the word back, as wide as it is. -/
theorem leNat_stored {mem : Buf} {w : Nat} (h : ∀ i < aw, mem (a + i) = leBytes w i) :
    leNat mem aw a = w % 256 ^ aw := by
  rw [← leNat_leBytes]
  refine leNat_congr fun k hk => ?_
  rw [zero_add]
  exact h k hk

/-- Words are pushed, the last one first. -/
theorem pushWords_ok {sp' : Nat} (hsp : sp ≤ userStackTop) (hroom : aw * ws.length ≤ sp)
    (h : pushWords env aw ws sp s = .ok sp' t) :
    sp' = sp - aw * ws.length ∧ Wrote sp' sp s t ∧
      row t.space.mem aw ws.length sp' = ws.map (· % 256 ^ aw) := by
  induction ws generalizing sp' t with
  | nil =>
    cases h
    exact ⟨rfl, Wrote.refl _ _ _, rfl⟩
  | cons w ws ih =>
    obtain ⟨sp₁, s₁, hrest, h⟩ := bind_eq_ok h
    have hmul : aw * (w :: ws).length = aw * ws.length + aw := Nat.mul_succ aw ws.length
    have htop : userStackTop = 0xc0000000 := rfl
    obtain ⟨hsp₁, hwrote₁, hwords⟩ := ih (by omega) hrest
    rw [sub32_eq (by omega) (by omega)] at h
    obtain ⟨_, s₂, hstore, h⟩ := bind_eq_ok h
    cases h
    obtain ⟨hwrote, hbytes⟩ := storeBytes_ok hstore
    have hend : sp₁ - aw + aw = sp₁ := by omega
    rw [hend] at hwrote
    refine ⟨by omega, hwrote₁.below hwrote (by omega) (by omega),
      words_cons (leNat_stored hbytes) ?_⟩
    -- the words above are not touched by the last store
    rw [hend, row_of_within hwrote.bytes (.inr le_rfl), hwords]

/-- Words are stored in their order. -/
theorem storeWords_ok (h : storeWords env aw ws a s = .ok u t) :
    Wrote a (a + aw * ws.length) s t ∧ row t.space.mem aw ws.length a = ws.map (· % 256 ^ aw) := by
  induction ws generalizing a s with
  | nil =>
    cases h
    exact ⟨Wrote.refl _ _ _, rfl⟩
  | cons w ws ih =>
    obtain ⟨_, s₁, hstore, h⟩ := bind_eq_ok h
    obtain ⟨hwrote, hbytes⟩ := storeBytes_ok hstore
    obtain ⟨hwrote₁, hwords⟩ := ih h
    have hmul : aw * (w :: ws).length = aw * ws.length + aw := Nat.mul_succ aw ws.length
    refine ⟨(hwrote.mono le_rfl (by omega)).trans (hwrote₁.mono (by omega) (by omega)),
      words_cons (leNat_stored fun i hi => ?_) hwords⟩
    rw [hwrote₁.bytes (a + i) (.inl (by omega))]
    exact hbytes i hi

/-! ### The stack -/

/-- A random number is no store to the stack. -/
theorem rand64_ok (h : rand64 env s = .ok r t) {lo hi : Nat} : Wrote lo hi s t := by
  cases h
  exact ⟨rfl, ⟨rfl, rfl, rfl, rfl⟩, Within.refl _ _ _, [], rfl, fun _ hx => absurd hx not_mem_nil⟩

theorem rand32_ok (h : rand32 env s = .ok r t) {lo hi : Nat} : Wrote lo hi s t := by
  obtain ⟨_, _, hdraw, h₁⟩ := bind_eq_ok h
  cases h₁
  exact rand64_ok hdraw

/-- The size of a word. -/
def wordSize (img : Image) : Nat := if img.is64 then 8 else 4

/-- The words from the entry stack pointer on. -/
def entryWords (argc : Nat) (argv envp aux : List Nat) : List Nat :=
  [argc] ++ argv ++ [0] ++ envp ++ [0] ++ aux

/-- The strings leave room on the stack: at least three pages are below
any random top. -/
def Roomy (path : List UInt8) (argv envs : List (Nat × List UInt8)) : Prop :=
  room argv + room envs + path.length + 8 * (argv.length + envs.length) + 400 ≤ 12296

/-- The stack from `sp` on: the words, the environment, the path, the
arguments and the random bytes, at these addresses. -/
structure Built (img : Image) (path : List UInt8) (argc : Nat) (argv envs : List (Nat × List UInt8))
    (s t : Caller) (sp random execfn : Nat) (args envp : List Nat) : Prop where
  bottom : userStackBottom ≤ sp
  wrote : Wrote sp userStackTop s t
  words : row t.space.mem (wordSize img)
      (entryWords argc args envp (auxv t img execfn random)).length sp =
    (entryWords argc args envp (auxv t img execfn random)).map (· % 256 ^ wordSize img)
  regions : Stacked sp
    ((sp, wordSize img * (entryWords argc args envp (auxv t img execfn random)).length) ::
      (envp.zip (envs.map Prod.fst) ++ (execfn, path.length + 1) ::
        (args.zip (argv.map Prod.fst) ++ [(random, 16)]))) userStackTop
  args : List.Forall₂ (Copied t.space.mem) args argv
  envp : List.Forall₂ (Copied t.space.mem) envp envs
  name : Copied t.space.mem execfn (path.length + 1, path)
  aligned : img.is64 = true → argc = argv.length → sp % 16 = 0

/-- The room for all strings is enough for each one. -/
theorem le_room {p : Nat × List UInt8} (hp : p ∈ strs) : p.1 ≤ room strs := by
  induction strs with
  | nil => exact absurd hp not_mem_nil
  | cons q strs ih =>
    have hroom : room (q :: strs) = q.1 + 8 + room strs := rfl
    rcases mem_cons.mp hp with rfl | hp
    · omega
    · have := ih hp
      omega

/-- The auxiliary vector depends on the ids of the task. -/
theorem auxv_congr (h : t.uid = s.uid ∧ t.euid = s.euid ∧ t.gid = s.gid ∧
    t.egid = s.egid) {img : Image} {execfn random : Nat} :
    auxv t img execfn random = auxv s img execfn random := by
  unfold auxv
  rw [h.1, h.2.1, h.2.2.1, h.2.2.2]

/-- The random top of the stack. -/
def stackTop (below sub : Nat) : Nat :=
  userStackTop - below % (userStackPages - 3) * pageSize - sub % (pageSize / 8) * 8

/-- The random start of the stack leaves three pages below it. -/
theorem stackTop_bounds {below sub : Nat} :
    userStackBottom + 12296 ≤ stackTop below sub ∧ stackTop below sub ≤ userStackTop ∧
      stackTop below sub % 8 = 0 := by
  unfold stackTop userStackTop userStackBottom
  rw [show userStackPages - 3 = 13 from rfl, show pageSize / 8 = 512 from rfl,
    show pageSize = 4096 from rfl]
  omega

theorem wordSize_eq (img : Image) : wordSize img = 8 ∨ wordSize img = 4 := by
  unfold wordSize
  split
  · exact .inl rfl
  · exact .inr rfl

/-- The padding below the strings, for `n` words. -/
def padded (img : Image) (n sp : Nat) : Nat :=
  if img.is64 ∧ sub32 sp (u32 (u32 n * 8)) % 16 ≠ 0 then sub32 sp 8 else sp

/-- Where the auxiliary vector goes, below the strings that end at `sp`. -/
def auxStart (img : Image) (naux nenv argc sp : Nat) : Nat :=
  sub32 (padded img (naux + nenv + argc + 3) (sp / wordSize img * wordSize img))
    (naux * wordSize img)

/-- The padding takes at most eight bytes. -/
theorem padded_bounds {img : Image} {n : Nat} (hlo : 8 ≤ sp) (hhi : sp ≤ userStackTop) :
    padded img n sp ≤ sp ∧ sp ≤ padded img n sp + 8 := by
  unfold userStackTop at hhi
  unfold padded
  split
  · rw [sub32_eq hlo (by omega)]
    omega
  · omega

/-- The auxiliary vector ends at the strings, up to an alignment. -/
theorem auxStart_bounds {img : Image} {nenv argc : Nat} {naux : Nat} (hnaux : naux ≤ 34)
    (hlo : userStackBottom ≤ sp) (hhi : sp ≤ userStackTop) :
    auxStart img naux nenv argc sp + wordSize img * naux ≤ sp ∧
      sp ≤ auxStart img naux nenv argc sp + wordSize img * naux + 16 := by
  have hword := wordSize_eq img
  have hround : sp / wordSize img * wordSize img ≤ sp ∧
      sp < sp / wordSize img * wordSize img + wordSize img := by
    rcases hword with h | h
    all_goals
      rw [h]
      omega
  obtain ⟨hpad, hpad'⟩ : padded img (naux + nenv + argc + 3) (sp / wordSize img * wordSize img) ≤
      sp / wordSize img * wordSize img ∧ _ :=
    padded_bounds (by unfold userStackBottom at hlo; omega) (by omega)
  have hnaux' : naux * wordSize img ≤ 272 := by
    rcases hword with h | h
    all_goals
      rw [h]
      omega
  unfold userStackBottom at hlo
  unfold userStackTop at hhi
  unfold auxStart
  rw [sub32_eq (by omega) (by omega), mul_comm (wordSize img)]
  omega

/-- The padding makes the entry stack pointer a multiple of 16. -/
theorem auxStart_aligned (h64 : img.is64 = true) {naux nenv : Nat} (hn : naux + nenv + argc ≤ 10000)
    (hlo : userStackBottom ≤ sp) (hhi : sp ≤ userStackTop) :
    (auxStart img naux nenv argc sp - 8 * (nenv + argc + 3)) % 16 = 0 := by
  unfold userStackBottom at hlo
  unfold userStackTop at hhi
  have hwords : u32 (u32 (naux + nenv + argc + 3) * 8) = (naux + nenv + argc + 3) * 8 := by
    unfold u32
    omega
  unfold auxStart padded wordSize
  rw [if_pos h64, hwords, sub32_eq (b := (naux + nenv + argc + 3) * 8) (by omega) (by omega)]
  split
  · rw [sub32_eq (b := 8) (by omega) (by omega), sub32_eq (by omega) (by omega)]
    omega
  next hpad =>
    have hzero := Decidable.not_not.mp fun hne => hpad ⟨h64, hne⟩
    rw [sub32_eq (by omega) (by omega)]
    omega

/-- The stages of a stack that is built. -/
theorem buildStack_stages (h : buildStack env img path argc argv envs s = .ok e t) :
    ∃ below sub args execfn envp sp s₀ s₁ s₂ s₃ s₄ u,
      Wrote (stackTop below sub - 16) (stackTop below sub - 16 + 16) s s₀ ∧
      pushStrings env (wordSize img) argv (stackTop below sub - 16) s₀ = .ok args s₁ ∧
      pushBytes env (wordSize img) (path.length + 1) (stringBuf path) args.1 s₁ = .ok execfn s₂ ∧
      pushStrings env (wordSize img) envs execfn s₂ = .ok envp s₃ ∧
      storeWords env (wordSize img) (auxv s₃ img execfn (stackTop below sub - 16))
        (auxStart img (auxv s₃ img execfn (stackTop below sub - 16)).length envs.length argc envp.1)
        s₃ = .ok u s₄ ∧
      pushWords env (wordSize img) ([argc] ++ args.2 ++ [0] ++ envp.2 ++ [0])
        (auxStart img (auxv s₃ img execfn (stackTop below sub - 16)).length envs.length argc envp.1)
        s₄ = .ok sp t ∧
      e.is64 = img.is64 ∧ e.argc = argc ∧
      e.rsp = if img.isPe = true ∧ sp % 16 = 0 then sub32 sp 8 else sp := by
  obtain ⟨below, s₁, hbelow, h₁⟩ := bind_eq_ok h
  obtain ⟨sub, s₂, hsub, h₂⟩ := bind_eq_ok h₁
  obtain ⟨r₀, s₃, hr₀, h₃⟩ := bind_eq_ok h₂
  obtain ⟨r₁, s₄, hr₁, h₄⟩ := bind_eq_ok h₃
  obtain ⟨_, s₅, hlow, h₅⟩ := bind_eq_ok h₄
  obtain ⟨_, s₆, hhigh, h₆⟩ := bind_eq_ok h₅
  obtain ⟨args, s₇, hargs, h₇⟩ := bind_eq_ok h₆
  obtain ⟨execfn, s₈, hname, h₈⟩ := bind_eq_ok h₇
  obtain ⟨envp, s₉, henvs, h₉⟩ := bind_eq_ok h₈
  obtain ⟨s', _, hget, h₁₀⟩ := bind_eq_ok h₉
  cases hget
  obtain ⟨_, s₁₁, hreq, h₁₁⟩ := bind_eq_ok h₁₀
  obtain ⟨-, rfl⟩ := require_ok hreq
  obtain ⟨u, s₁₂, haux, h₁₂⟩ := bind_eq_ok h₁₁
  obtain ⟨sp, s₁₃, hwords, h₁₃⟩ := bind_eq_ok h₁₂
  cases h₁₃
  -- the sixteen random bytes are stored in two halves
  have hrandom : Wrote (stackTop below sub - 16) (stackTop below sub - 16 + 16) s s₆ := by
    refine (rand32_ok hbelow).trans ((rand32_ok hsub).trans ((rand64_ok hr₀).trans
      ((rand64_ok hr₁).trans (Wrote.trans (t := s₅) ?_ ?_))))
    · exact (storeBytes_ok hlow).1.mono le_rfl (by unfold stackTop; omega)
    · exact (storeBytes_ok hhigh).1.mono (by unfold stackTop; omega) (by unfold stackTop; omega)
  exact ⟨below, sub, args, execfn, envp, sp, s₆, s₇, s₈, s₁₁, s₁₂, u, hrandom, hargs, hname, henvs,
    haux, hwords, rfl, rfl, rfl⟩

/-- The auxiliary vector and the words below it. -/
theorem pushEntry_ok {aux : List Nat} {nenv sp₃ : Nat} {s₄ : Caller} (hnaux : aux.length ≤ 34)
    (hlo : userStackBottom + 300 + 8 * ws.length ≤ sp₃) (hhi : sp₃ ≤ userStackTop)
    (haux : storeWords env (wordSize img) aux (auxStart img aux.length nenv argc sp₃) s = .ok u s₄)
    (hwords : pushWords env (wordSize img) ws (auxStart img aux.length nenv argc sp₃) s₄ =
      .ok sp t) :
    userStackBottom ≤ sp ∧ sp + wordSize img * (ws ++ aux).length ≤ sp₃ ∧ Wrote sp sp₃ s t ∧
      row t.space.mem (wordSize img) (ws ++ aux).length sp =
        (ws ++ aux).map (· % 256 ^ wordSize img) ∧
      (img.is64 = true → ws.length = nenv + argc + 3 → sp % 16 = 0) := by
  have hlo₃ : userStackBottom ≤ sp₃ := by
    rw [add_assoc] at hlo
    exact le_trans (Nat.le_add_right _ _) hlo
  obtain ⟨hstart, hstart'⟩ := auxStart_bounds hnaux hlo₃ hhi
  have haligned : img.is64 = true → aux.length + nenv + argc ≤ 10000 →
      (auxStart img aux.length nenv argc sp₃ - 8 * (nenv + argc + 3)) % 16 = 0 :=
    fun h64 hn => auxStart_aligned h64 hn hlo₃ hhi
  obtain ⟨hwrote_aux, hwords_aux⟩ := storeWords_ok haux
  generalize auxStart img aux.length nenv argc sp₃ = start at *
  have haw := wordSize_eq img
  have hword_mul : ∀ n, wordSize img * n ≤ 8 * n := fun n => Nat.mul_le_mul_right n (by omega)
  have hmul_aux := hword_mul aux.length
  have hmul_words := hword_mul ws.length
  unfold userStackBottom at hlo
  unfold userStackTop at hhi
  obtain ⟨hsp, hwrote_words, hwords_words⟩ :=
    pushWords_ok (by unfold userStackTop; omega) (by omega) hwords
  have hend : sp + wordSize img * ws.length = start := by omega
  refine ⟨by unfold userStackBottom; omega, ?_, ?_, ?_, fun h64 hlen => ?_⟩
  · rw [length_append, Nat.mul_add, ← add_assoc, hend]
    exact hstart
  · exact (hwrote_aux.mono le_rfl hstart).below hwrote_words (by omega) (by omega)
  · -- the words end where the auxiliary vector starts
    rw [length_append, row_add, hwords_words, hend,
      row_of_within hwrote_words.bytes (.inr le_rfl), hwords_aux, map_append]
  · have h16 := haligned h64 (by omega)
    rw [hsp, hlen, wordSize, if_pos h64]
    exact h16

/-- What is on a stack that is built. -/
theorem buildStack_ok (hroom : Roomy path argv envs)
    (h : buildStack env img path argc argv envs s = .ok e t) :
    ∃ sp random execfn args envp, Built img path argc argv envs s t sp random execfn args envp ∧
      e.is64 = img.is64 ∧ e.argc = argc ∧
      e.rsp = if img.isPe = true ∧ sp % 16 = 0 then sub32 sp 8 else sp := by
  obtain ⟨below, sub, args, execfn, envp, sp, s₀, s₁, s₂, s₃, s₄, u, hrandom, hargs, hname, henvs,
    haux, hwords, he64, heargc, hersp⟩ := buildStack_stages h
  obtain ⟨htop, htop', -⟩ := stackTop_bounds
  generalize stackTop below sub = top at *
  unfold Roomy at hroom
  unfold userStackBottom at htop
  unfold userStackTop at htop'
  have hw := wordSize_eq img
  have haw : 0 < wordSize img ∧ wordSize img ≤ 8 := by omega
  -- the strings, from the top down
  have pargs := pushStrings_ok haw.1 haw.2 (by unfold userStackBottom; omega)
    (by unfold userStackTop; omega)
    (fun p hp => le_trans (le_room hp) (by unfold userStackBottom; omega)) hargs
  have hargs_le := pargs.regions.le
  have hargs_drop := pargs.drop
  obtain ⟨-, hname_lo, hname_end, hname_drop, hname_wrote, hname_bytes⟩ :=
    pushBytes_ok haw.1 (by unfold userStackTop; omega) (by omega) hname
  have penvs := pushStrings_ok haw.1 haw.2 hname_lo (by unfold userStackTop; omega)
    (fun p hp => le_trans (le_room hp) (by unfold userStackBottom; omega)) henvs
  have henvs_le := penvs.regions.le
  have henvs_drop := penvs.drop
  -- the words
  have hlen_aux : (auxv s₃ img execfn (top - 16)).length ≤ 34 := by
    unfold auxv
    cases img.is64 <;> simp
  have hlen_words : ([argc] ++ args.2 ++ [0] ++ envp.2 ++ [0]).length =
      envs.length + argv.length + 3 := by
    simp only [length_append, length_singleton, pargs.copied.length_eq, penvs.copied.length_eq]
    omega
  obtain ⟨hbottom, hend, hbelow_envs, hwords_eq, haligned⟩ := pushEntry_ok hlen_aux
    (by rw [hlen_words]; unfold userStackBottom; omega) (by unfold userStackTop; omega) haux hwords
  -- what is stored after each of the strings is below it
  have hsp : sp ≤ envp.1 := le_trans (Nat.le_add_right _ _) hend
  have hbelow_name : Wrote sp execfn s₂ t := penvs.wrote.below hbelow_envs hsp henvs_le
  have hbelow_args : Wrote sp args.1 s₁ t := hname_wrote.below hbelow_name (by omega) (by omega)
  have hall : Wrote sp userStackTop s t :=
    (hrandom.mono le_rfl (by unfold userStackTop; omega)).below
      (pargs.wrote.below hbelow_args (by omega) hargs_le) (by omega) (by unfold userStackTop; omega)
  rw [← auxv_congr hbelow_envs.ids] at hwords_eq hend
  refine ⟨sp, top - 16, execfn, args.2, envp.2, ?_, he64, heargc, hersp⟩
  refine ⟨hbottom, hall, hwords_eq, ⟨le_refl sp, ?_⟩, ?_, ?_, ?_, fun h64 hargc => ?_⟩
  · exact (penvs.regions.lower hend).append ⟨le_rfl, (pargs.regions.lower hname_end).append
      ⟨le_rfl, by show top - 16 + 16 ≤ userStackTop; unfold userStackTop; omega⟩⟩
  · exact copied_of_within pargs.copied pargs.regions hbelow_args.bytes
  · exact copied_of_within penvs.copied penvs.regions hbelow_envs.bytes
  · intro i hi
    exact (hbelow_name.bytes _ (.inr (Nat.le_add_right _ _))).trans (hname_bytes i hi)
  · exact haligned h64 (by rw [hlen_words, hargc])

end CoreZ.Proofs.Userprog.Stack
