import Mathlib

/-!
# The platform: CLINT software-interrupt words and the UART receive register

The SBI firmware signals between harts through a single device, the core-local interruptor.
Hart `h`'s 32-bit `msip` word sits at `CLINT_SOFT(CLINT_CTRL_ADDR, h)`, and the CLINT drives
the `MSIP` bit of that hart's `mip` CSR from it.  The barrier of `include/smp.h`, the helpers of
`devices/clint/clint.c` and `wait_ipi` of `main.c` are all stores into, and loads from, these
words; this module fixes their model once.

## Design notes

* **Words by hart.**  The msip array is `Fin N → UInt32`, indexed by hart.  The address
  arithmetic survives where the code branches on it: both loops of `smp_resume` step `reg1`
  through the array and stop on `blt reg1, CLINT_END_HART_IPI`, which is `nextHart` below.
  An array is faithful because, for the firmware's `MAX_HARTS`, the harts' msip words, their
  timer-compare registers and `mtime` are pairwise disjoint (the example after
  `clintMtimeAddr`).
* **One base.**  `clint_init` stores `CLINT_CTRL_ADDR` into the shared `clint_base` on every
  hart before that hart's first CLINT access, and every hart stores the same value, so the
  base is the constant `CLINT_CTRL_ADDR` throughout.
* **`mip` from `msip`.**  The code stores only `0` and `1` into an msip word, so the `MSIP`
  bit of `mip` is set exactly when the word is non-zero (`mip`).  No other interrupt source is
  modelled: after `smp_pause` writes `mie := MIP_MSIP`, no other `mip` bit is enabled.
* **Fences.**  `__io_bw` / `__io_ar` order device accesses against ordinary memory.  The
  models interleave whole accesses of the harts, so every access is already ordered.
-/

namespace TCoreSbi

/-! ## Constants of `include/mem.h`, `include/smp.h` and `devices/clint/clint.h` -/

/-- `MAX_HARTS` of `include/smp.h`.  The models take the hart count as a parameter `N`;
this is the count the firmware is built with. -/
def MAX_HARTS : Nat := 5

instance : NeZero MAX_HARTS := ⟨by decide⟩

/-- `CLINT_CTRL_ADDR` of `include/mem.h`. -/
def CLINT_CTRL_ADDR : Nat := 0x2000000

/-- `CLINT_MSIP_OFFSET` of `devices/clint/clint.h`. -/
def CLINT_MSIP_OFFSET : Nat := 0x0000

/-- `CLINT_MSIP_SIZE` of `devices/clint/clint.h`: one 32-bit word per hart. -/
def CLINT_MSIP_SIZE : Nat := 0x4

/-- `CLINT_SOFT(base, hartid)`: the address of hart `hartid`'s msip word. -/
def CLINT_SOFT (base hartid : Nat) : Nat :=
  base + hartid * CLINT_MSIP_SIZE + CLINT_MSIP_OFFSET

/-- `CLINT_END_HART_IPI` of `include/smp.h`, for `N = MAX_HARTS` harts: the end of the msip
array. -/
def CLINT_END_HART_IPI (N : Nat) : Nat := CLINT_CTRL_ADDR + N * CLINT_MSIP_SIZE

/-- `CLINT_CTRL_SIZE` of `include/mem.h`. -/
def CLINT_CTRL_SIZE : Nat := 0x10000

/-- `CLINT_MTIMECMP_OFFSET` of `devices/clint/clint.h`. -/
def CLINT_MTIMECMP_OFFSET : Nat := 0x4000

/-- `CLINT_MTIMECMP_SIZE` of `devices/clint/clint.h`: one 64-bit register per hart. -/
def CLINT_MTIMECMP_SIZE : Nat := 0x8

/-- `CLINT_MTIME_OFFSET` of `devices/clint/clint.h`. -/
def CLINT_MTIME_OFFSET : Nat := 0xbff8

/-- The address `clint_set_timecmp(hartid, time)` stores its 64-bit value to:
`clint_base + hartid * CLINT_MTIMECMP_SIZE + CLINT_MTIMECMP_OFFSET`. -/
def clintTimecmpAddr (base hartid : Nat) : Nat :=
  base + hartid * CLINT_MTIMECMP_SIZE + CLINT_MTIMECMP_OFFSET

/-- The address `clint_get_mtime()` loads its 64-bit value from. -/
def clintMtimeAddr (base : Nat) : Nat := base + CLINT_MTIME_OFFSET

/-- `SMP_ADDR` of `include/mem.h`: the mailbox region. -/
def SMP_ADDR : Nat := 0x80100000

/-- `SMP_SIZE` of `include/mem.h`. -/
def SMP_SIZE : Nat := 0x1000

/-- `MIP_MSIP = BIT(IRQ_M_SOFT)` of `include/riscv.h`, as a 64-bit CSR value. -/
def MIP_MSIP : UInt64 := (1 : UInt64) <<< 3

@[simp] theorem MIP_MSIP_or_self : MIP_MSIP ||| MIP_MSIP = MIP_MSIP := by decide

@[simp] theorem MIP_MSIP_and_self_ne_zero : MIP_MSIP &&& MIP_MSIP ≠ 0 := by decide

/-- `ZERO_HART` of `include/smp.h`: the hart that broadcasts. -/
def ZERO_HART {N : Nat} [NeZero N] : Fin N := ⟨0, Nat.pos_of_neZero N⟩

@[simp] theorem ZERO_HART_val {N : Nat} [NeZero N] : (ZERO_HART : Fin N).val = 0 := rfl

/-- The word at `CLINT_CTRL_ADDR`, hart `0`'s: where both loops of `smp_resume` start. -/
def firstWord {N : Nat} [NeZero N] : Fin N := ⟨0, Nat.pos_of_neZero N⟩

@[simp] theorem firstWord_val {N : Nat} [NeZero N] : (firstWord : Fin N).val = 0 := rfl

/-! ## The loop test of `smp_resume` -/

/-- Both loops of `smp_resume` end in `addi reg1, reg1, 4; li reg2, CLINT_END_HART_IPI;
blt reg1, reg2, 41b`.  With `reg1` at hart `i`'s word, the loop goes on with hart `i + 1`
exactly while that hart's word lies below the end of the array. -/
def nextHart {N : Nat} (i : Fin N) : Option (Fin N) :=
  if below : CLINT_SOFT CLINT_CTRL_ADDR (i.val + 1) < CLINT_END_HART_IPI N then
    some ⟨i.val + 1, by
      simp only [CLINT_SOFT, CLINT_END_HART_IPI, CLINT_MSIP_SIZE, CLINT_MSIP_OFFSET] at below
      omega⟩
  else none

theorem nextHart_eq_some {N : Nat} {i j : Fin N} : nextHart i = some j ↔ j.val = i.val + 1 := by
  unfold nextHart
  split
  · simp only [Option.some.injEq]
    exact ⟨fun h => by rw [← h], fun h => Fin.ext h.symm⟩
  · rename_i above
    simp only [CLINT_SOFT, CLINT_END_HART_IPI, CLINT_MSIP_SIZE, CLINT_MSIP_OFFSET] at above
    simp only [reduceCtorEq, false_iff]
    omega

theorem nextHart_eq_none {N : Nat} {i : Fin N} : nextHart i = none ↔ i.val + 1 = N := by
  unfold nextHart
  split
  · rename_i below
    simp only [CLINT_SOFT, CLINT_END_HART_IPI, CLINT_MSIP_SIZE, CLINT_MSIP_OFFSET] at below
    simp only [reduceCtorEq, false_iff]
    omega
  · rename_i above
    simp only [CLINT_SOFT, CLINT_END_HART_IPI, CLINT_MSIP_SIZE, CLINT_MSIP_OFFSET] at above
    simp only [true_iff]
    omega

/-! ## The msip words -/

variable {N : Nat}

/-- A store of `v` into hart `hartid`'s msip word: `writew(v, CLINT_SOFT(clint_base, hartid))`
in C, `sw` in `smp_resume`. -/
def writeMsip (msip : Fin N → UInt32) (hartid : Fin N) (v : UInt32) : Fin N → UInt32 :=
  Function.update msip hartid v

/-- `clint_send_soft(hartid)`: raise hart `hartid`'s software interrupt. -/
def clintSendSoft (msip : Fin N → UInt32) (hartid : Fin N) : Fin N → UInt32 :=
  writeMsip msip hartid 1

/-- `clint_clear_soft(hartid)`: clear hart `hartid`'s software interrupt. -/
def clintClearSoft (msip : Fin N → UInt32) (hartid : Fin N) : Fin N → UInt32 :=
  writeMsip msip hartid 0

/-- `read_csr(mip)` on hart `h`, as far as the firmware reads it: the `MSIP` bit, which the
CLINT drives from `h`'s msip word. -/
def mip (msip : Fin N → UInt32) (h : Fin N) : UInt64 :=
  if msip h = 0 then 0 else MIP_MSIP

@[simp] theorem writeMsip_same (msip : Fin N → UInt32) (h : Fin N) (v : UInt32) :
    writeMsip msip h v h = v :=
  Function.update_same _ _ _

@[simp] theorem writeMsip_ne (msip : Fin N → UInt32) {h j : Fin N} (v : UInt32) (hne : j ≠ h) :
    writeMsip msip h v j = msip j :=
  Function.update_noteq hne _ _

theorem writeMsip_apply (msip : Fin N → UInt32) (h j : Fin N) (v : UInt32) :
    writeMsip msip h v j = if j = h then v else msip j :=
  Function.update_apply _ _ _ _

/-- The `MSIP` bit a hart reads in `mip` is set exactly when its msip word is non-zero. -/
@[simp] theorem mip_and_MIP_MSIP_eq_zero (msip : Fin N → UInt32) (h : Fin N) :
    mip msip h &&& MIP_MSIP = 0 ↔ msip h = 0 := by
  unfold mip
  split <;> simp_all [show (0 : UInt64) &&& MIP_MSIP = 0 by decide]

/-- Under `mie = MIP_MSIP`, the wake-up condition `(mip & mie) != 0` of `wfi` is the same
test. -/
@[simp] theorem mip_and_mie_ne_zero (msip : Fin N → UInt32) (h : Fin N) :
    mip msip h &&& MIP_MSIP ≠ 0 ↔ msip h ≠ 0 :=
  not_congr (mip_and_MIP_MSIP_eq_zero msip h)

/-! ## The CLINT's register layout -/

/-- **The CLINT's registers do not overlap** on the firmware's five harts, with `clint_base` at
`CLINT_CTRL_ADDR`: every 4-byte msip word lies below every 8-byte timer-compare register, which
lie below the 8-byte `mtime`, which ends inside the CLINT's region; and two harts' msip words,
or timer-compare registers, are disjoint.  A store to one hart's word is seen by no other
register. -/
example : ∀ h j : Fin MAX_HARTS,
    (CLINT_CTRL_ADDR ≤ CLINT_SOFT CLINT_CTRL_ADDR h ∧
      CLINT_SOFT CLINT_CTRL_ADDR h + CLINT_MSIP_SIZE ≤ clintTimecmpAddr CLINT_CTRL_ADDR j ∧
      clintTimecmpAddr CLINT_CTRL_ADDR j + CLINT_MTIMECMP_SIZE ≤ clintMtimeAddr CLINT_CTRL_ADDR ∧
      clintMtimeAddr CLINT_CTRL_ADDR + 8 ≤ CLINT_CTRL_ADDR + CLINT_CTRL_SIZE) ∧
    (h ≠ j →
      (CLINT_SOFT CLINT_CTRL_ADDR h + CLINT_MSIP_SIZE ≤ CLINT_SOFT CLINT_CTRL_ADDR j ∨
        CLINT_SOFT CLINT_CTRL_ADDR j + CLINT_MSIP_SIZE ≤ CLINT_SOFT CLINT_CTRL_ADDR h) ∧
      (clintTimecmpAddr CLINT_CTRL_ADDR h + CLINT_MTIMECMP_SIZE ≤
          clintTimecmpAddr CLINT_CTRL_ADDR j ∨
        clintTimecmpAddr CLINT_CTRL_ADDR j + CLINT_MTIMECMP_SIZE ≤
          clintTimecmpAddr CLINT_CTRL_ADDR h)) := by
  decide

/-- The per-hart offsets `CLINT_MSIP0_OFFSET` to `CLINT_MSIP4_OFFSET` and
`CLINT_MTIMECMP0_OFFSET` to `CLINT_MTIMECMP4_OFFSET` of `devices/clint/clint.h` are the strides
of `CLINT_SOFT` and `clint_set_timecmp`. -/
example : (List.range MAX_HARTS).map (CLINT_SOFT 0) = [0x0000, 0x0004, 0x0008, 0x000c, 0x0010] ∧
    (List.range MAX_HARTS).map (clintTimecmpAddr 0) = [0x4000, 0x4008, 0x4010, 0x4018, 0x4020] := by
  decide

/-! ## The UART receive register -/

/-- `UART_RXDATA_EMPTY` of `devices/uart/uart.h`. -/
def UART_RXDATA_EMPTY : UInt32 := 0x80000000

/-- `UART_RXDATA_MASK` of `devices/uart/uart.h`. -/
def UART_RXDATA_MASK : UInt32 := 0x000000ff

/-- `uart_getc`, given the value `reg` its one read of the RXDATA register returns: the low
byte when the `EMPTY` bit is clear, `-1` otherwise. -/
def uartGetc (reg : UInt32) : Int :=
  if reg &&& UART_RXDATA_EMPTY = 0 then ((reg &&& UART_RXDATA_MASK).toNat : Int) else -1

/-- **`uart_getc` delivers a byte or `-1`.** -/
theorem uartGetc_range (reg : UInt32) :
    uartGetc reg = -1 ∨ (0 ≤ uartGetc reg ∧ uartGetc reg ≤ 255) := by
  unfold uartGetc
  split
  · refine Or.inr ⟨Int.ofNat_nonneg _, ?_⟩
    have masked : (reg &&& UART_RXDATA_MASK).toNat ≤ 255 := by
      rw [UInt32.and_toNat]
      exact Nat.and_le_right
    omega
  · exact Or.inl rfl

end TCoreSbi
