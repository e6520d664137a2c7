import TCoreSbi.Platform

/-!
# The memory functions of `libs/string.c`: `memset`, `memcpy`, `memmove` and `memcmp`

Each function is a loop over `n` that moves one or two pointers a byte at a time.  Memory is
flat, `Nat → UInt8`, and a pointer is its address; the pointer comparisons of `memmove`
(`s < d && s + n > d`) are comparisons of addresses.  A call is modelled whole, as the memory
after it (or, for `memcmp`, as its result): nothing else runs while it runs in the firmware's
uses of it, and where another hart does run alongside (the mailbox copy of `test_ipi`),
`TCoreSbi.System` models the copy a byte a step and shows that it computes the same bytes.

## Design notes

* **One loop per direction.**  `memcpy`'s loop and `memmove`'s forward loop are the same
  `while (n-- > 0) *d++ = *s++`, so both are `copyUp`; `memmove`'s backward loop, which starts
  past the ends of both blocks and predecrements, is `copyDown`.  Each loop recurses on the
  count `n` that the C loop decrements.
* **What a copy means.**  Every copy theorem says the same thing of the memory after it: at an
  address `a` inside the destination `[dst, dst + n)` it holds the byte that stood at
  `src + (a - dst)` before the call, and everywhere else it holds what it held.  A forward copy
  means that exactly when no byte of the source is overwritten before it is read, which is
  `dst ≤ src ∨ src + n ≤ dst` (`copyUp_apply`); a backward copy exactly when
  `src ≤ dst ∨ dst + n ≤ src` (`copyDown_apply`).  `memmove` tests for the one case the
  forward loop gets wrong and takes the backward loop there, so it means a copy for every
  overlap (`memmove_spec`).
* **`memcmp`'s result** is `(int)((unsigned char)*s1 - (unsigned char)*s2)` at the first byte
  that differs, an `Int` between `-255` and `255`; `memcmp_spec` says it is `0` exactly when
  the blocks agree, and otherwise that difference.
-/

namespace TCoreSbi

/-! ## The loops -/

/-- `memset`'s loop `while (n-- > 0) *p++ = c`, with `p` at `p` and `n` bytes left. -/
def memsetLoop (mem : Nat → UInt8) (c : UInt8) (p : Nat) : Nat → Nat → UInt8
  | 0 => mem
  | n + 1 => memsetLoop (Function.update mem p c) c (p + 1) n

/-- The loop `while (n-- > 0) *d++ = *s++` of `memcpy` and of `memmove`'s forward copy. -/
def copyUp (mem : Nat → UInt8) (d s : Nat) : Nat → Nat → UInt8
  | 0 => mem
  | n + 1 => copyUp (Function.update mem d (mem s)) (d + 1) (s + 1) n

/-- The loop `while (n-- > 0) *--d = *--s` of `memmove`'s backward copy, with `d` and `s` past
the ends of the blocks. -/
def copyDown (mem : Nat → UInt8) (d s : Nat) : Nat → Nat → UInt8
  | 0 => mem
  | n + 1 => copyDown (Function.update mem (d - 1) (mem (s - 1))) (d - 1) (s - 1) n

/-! ## The functions -/

/-- **`memset(s, c, n)`**: the memory after the call. -/
def memset (mem : Nat → UInt8) (s : Nat) (c : UInt8) (n : Nat) : Nat → UInt8 :=
  memsetLoop mem c s n

/-- **`memcpy(dst, src, n)`**: the memory after the call. -/
def memcpy (mem : Nat → UInt8) (dst src n : Nat) : Nat → UInt8 :=
  copyUp mem dst src n

/-- **`memmove(dst, src, n)`**: backwards when the source starts below the destination and
reaches into it, forwards otherwise. -/
def memmove (mem : Nat → UInt8) (dst src n : Nat) : Nat → UInt8 :=
  if src < dst ∧ src + n > dst then copyDown mem (dst + n) (src + n) n
  else copyUp mem dst src n

/-- **`memcmp(v1, v2, n)`**: the difference of the first pair of bytes that differ, as
unsigned chars promoted to `int`; `0` if none does. -/
def memcmp (mem : Nat → UInt8) (s1 s2 : Nat) : Nat → Int
  | 0 => 0
  | n + 1 =>
    if mem s1 ≠ mem s2 then ((mem s1).toNat : Int) - (mem s2).toNat
    else memcmp mem (s1 + 1) (s2 + 1) n

/-! ## What the loops compute -/

/-- **`memset` fills its block**: inside `[s, s + n)` every byte is `c`, outside it nothing
changes. -/
theorem memset_spec (mem : Nat → UInt8) (s : Nat) (c : UInt8) (n a : Nat) :
    memset mem s c n a = if s ≤ a ∧ a < s + n then c else mem a := by
  unfold memset
  induction n generalizing mem s with
  | zero => rw [if_neg (by omega)]; rfl
  | succ n ih =>
    rw [memsetLoop, ih, Function.update_apply]
    split_ifs <;> first | rfl | omega

/-- The forward loop copies when no byte of the source is overwritten before it is read. -/
theorem copyUp_apply {mem : Nat → UInt8} {d s n : Nat} (safe : d ≤ s ∨ s + n ≤ d) (a : Nat) :
    copyUp mem d s n a = if d ≤ a ∧ a < d + n then mem (s + (a - d)) else mem a := by
  induction n generalizing mem d s with
  | zero => rw [if_neg (by omega)]; rfl
  | succ n ih =>
    rw [copyUp, ih (by omega), Function.update_apply, Function.update_apply]
    split_ifs <;> first | rfl | omega | congr 1; omega

/-- The backward loop copies when no byte of the source is overwritten before it is read. -/
theorem copyDown_apply {mem : Nat → UInt8} {d s n : Nat} (safe : s ≤ d ∨ d + n ≤ s) (a : Nat) :
    copyDown mem (d + n) (s + n) n a = if d ≤ a ∧ a < d + n then mem (s + (a - d)) else mem a := by
  induction n generalizing mem with
  | zero => rw [if_neg (by omega)]; rfl
  | succ n ih =>
    rw [copyDown, Nat.add_succ_sub_one, Nat.add_succ_sub_one, ih (by omega),
      Function.update_apply, Function.update_apply]
    split_ifs <;> first | rfl | omega | congr 1; omega

/-- **`memmove` copies for every overlap**: after `memmove(dst, src, n)`, each byte of
`[dst, dst + n)` holds the byte that stood at the same offset of `[src, src + n)` before the
call, and every other byte is unchanged. -/
theorem memmove_spec (mem : Nat → UInt8) (dst src n a : Nat) :
    memmove mem dst src n a = if dst ≤ a ∧ a < dst + n then mem (src + (a - dst)) else mem a := by
  by_cases back : src < dst ∧ src + n > dst
  · rw [memmove, if_pos back]; exact copyDown_apply (.inl back.1.le) a
  · rw [memmove, if_neg back]; exact copyUp_apply (by omega) a

/-- The bytes `0, 1, 2, 3` with the first three moved up by one: the overlap `memmove` copies
backwards. -/
example : (List.range 4).map (memmove (fun a => a.toUInt8) 1 0 3) = [0, 0, 1, 2] := by decide

/-- `memcpy` copies when the blocks do not overlap, or the destination starts at or below the
source. -/
theorem memcpy_apply {mem : Nat → UInt8} {dst src n : Nat} (safe : dst ≤ src ∨ src + n ≤ dst)
    (a : Nat) :
    memcpy mem dst src n a = if dst ≤ a ∧ a < dst + n then mem (src + (a - dst)) else mem a :=
  copyUp_apply safe a

/-- Without that, the forward loop reads bytes it has already written: `memcpy` on the same
overlap repeats the first byte. -/
example : (List.range 4).map (memcpy (fun a => a.toUInt8) 1 0 3) = [0, 0, 0, 0] := by decide

/-- **`memcmp` compares at the first difference**: either the two blocks agree and the result
is `0`, or at the first offset `i` where they differ the result is the difference of the two
bytes there (so it is not `0`, and its sign orders the blocks). -/
theorem memcmp_spec (mem : Nat → UInt8) (s1 s2 n : Nat) :
    ((∀ i < n, mem (s1 + i) = mem (s2 + i)) ∧ memcmp mem s1 s2 n = 0) ∨
      ∃ i < n, (∀ j < i, mem (s1 + j) = mem (s2 + j)) ∧ mem (s1 + i) ≠ mem (s2 + i) ∧
        memcmp mem s1 s2 n = ((mem (s1 + i)).toNat : Int) - (mem (s2 + i)).toNat := by
  induction n generalizing s1 s2 with
  | zero => exact .inl ⟨nofun, rfl⟩
  | succ n ih =>
    rw [memcmp]
    by_cases first : mem s1 = mem s2
    · rw [if_neg (not_not.mpr first)]
      -- The first bytes agree: the rest is the comparison from the next pair on.
      have shift : ∀ p i : Nat, p + 1 + i = p + (i + 1) := fun _ _ => by omega
      rcases ih (s1 + 1) (s2 + 1) with ⟨same, zero⟩ | ⟨i, hi, before, differ, result⟩
      · refine .inl ⟨fun i hi => ?_, zero⟩
        cases i with
        | zero => exact first
        | succ i => simpa only [shift] using same i (by omega)
      · refine .inr ⟨i + 1, by omega, fun j hj => ?_, by simpa only [shift] using differ,
          by simpa only [shift] using result⟩
        cases j with
        | zero => exact first
        | succ j => simpa only [shift] using before j (by omega)
    · rw [if_pos first]
      exact .inr ⟨0, by omega, nofun, first, rfl⟩

end TCoreSbi
