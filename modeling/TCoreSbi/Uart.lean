import TCoreSbi.Platform

/-!
# The UART's output and configuration: `uart_put_hex` and `uart_init`

`devices/uart/uart.c` writes the UART through `set_reg`, one 32-bit register store each.  This
module models what two of its functions store.

* **`uart_put_hex(hex)`** puts `"0x"` and then `sizeof(hex) * 2 = 8` digits, from the nibble at
  `idx = 7` down to `idx = 0`, each `c = (hex >> (idx * 4)) & 0xf` as `'0' + c` or
  `'a' + c - 0xa`.  `uartPutHex` is the list of bytes it stores to TXDATA.
* **`uart_init(base, in_freq, baudrate)`** programs the clock divisor only for a nonzero input
  clock, to `uart_min_clk_divisor(in_freq, baudrate)`, and then the interrupt enable and the
  transmit and receive controls.  `uartInit` is the list of its register stores, as
  (register, value) pairs.

## Design notes

* **Output is a list of bytes.**  `uart_putc` spins while the transmit FIFO is full and then
  stores the byte; what reaches the line is the order of the stores, which is all `uartPutHex`
  keeps.  The spin depends on the device and is not modelled.
* **Reading the digits back.**  `hexValue` is our statement of what the eight digits mean: the
  number they denote in base 16, most significant first.  `uartPutHex_spec` says that the
  output is `"0x"` and eight lowercase hexadecimal digits whose value is `hex` itself, so the
  print is a faithful encoding of every `uint32_t`.
* **The divisor in `Nat`.**  `uart_min_clk_divisor` computes in `uint64_t` on arguments that
  `uart_init` passes as `uint32_t`, so nothing wraps; `uartMinClkDivisor_spec` states the result
  in `Nat`: the least `d` whose rate `in_freq / (d + 1)` does not exceed `baudrate`.
-/

namespace TCoreSbi

/-! ## `uart_put_hex` -/

/-- The digit `uart_put_hex` puts for the nibble `c`: `c < 0xa ? ('0' + c) : ('a' + c - 0xa)`,
with `'0'` = 48 and `'a'` = 97. -/
def hexDigit (c : UInt8) : UInt8 :=
  if c < 0xa then 48 + c else 97 + c - 0xa

/-- The loop `for (int idx = num - 1; idx >= 0; idx--)` of `uart_put_hex` with `idx + 1`
digits left: the nibble `(hex >> (idx * 4)) & 0xf` as a `char`, then the rest. -/
def putHexLoop (hex : UInt32) : Nat → List UInt8
  | 0 => []
  | idx + 1 => hexDigit ((hex >>> (idx * 4).toUInt32) &&& 0xf).toUInt8 :: putHexLoop hex idx

/-- **`uart_put_hex(hex)`**: the bytes it stores to TXDATA, those of `uart_puts("0x")` (48 and
120) and then `num = sizeof(hex) * 2` digits. -/
def uartPutHex (hex : UInt32) : List UInt8 :=
  [48, 120] ++ putHexLoop hex (4 * 2)

/-- A lowercase hexadecimal digit: `'0'` to `'9'` (48 to 57) or `'a'` to `'f'` (97 to 102). -/
def isHexDigit (d : UInt8) : Bool :=
  (48 ≤ d.toNat && d.toNat ≤ 57) || (97 ≤ d.toNat && d.toNat ≤ 102)

/-- The value of a hexadecimal digit. -/
def digitValue (d : UInt8) : Nat :=
  if d.toNat ≤ 57 then d.toNat - 48 else d.toNat - 87

/-- The number the digits denote in base 16, most significant first, after the value `acc` of
the digits before them. -/
def hexValue (acc : Nat) : List UInt8 → Nat
  | [] => acc
  | d :: ds => hexValue (16 * acc + digitValue d) ds

/-- The digit of a nibble is a hexadecimal digit, of the nibble's value. -/
theorem hexDigit_spec {c : UInt8} (hc : c.toNat < 16) :
    isHexDigit (hexDigit c) ∧ digitValue (hexDigit c) = c.toNat := by
  have digit : (hexDigit c).toNat = if c.toNat < 10 then 48 + c.toNat else 87 + c.toNat := by
    unfold hexDigit
    by_cases lt : c.toNat < 10
    · rw [if_pos (show c < 0xa from lt), if_pos lt, UInt8.toNat_add]
      show (48 + c.toNat) % 256 = _
      omega
    · rw [if_neg (show ¬ c < 0xa from lt), if_neg lt, UInt8.toNat_sub, UInt8.toNat_add]
      show (256 - 10 + (97 + c.toNat) % 256) % 256 = _
      omega
  unfold isHexDigit digitValue
  rw [digit]
  split_ifs <;> simp only [Bool.or_eq_true, Bool.and_eq_true, decide_eq_true_eq] <;> omega

/-- The nibble `(hex >> (idx * 4)) & 0xf` is the base-16 digit `idx` of `hex`. -/
theorem nibble_toNat (hex : UInt32) {idx : Nat} (hidx : idx < 8) :
    ((hex >>> (idx * 4).toUInt32) &&& 0xf).toUInt8.toNat = hex.toNat / 16 ^ idx % 16 := by
  have shift : (hex >>> (idx * 4).toUInt32).toNat = hex.toNat / 16 ^ idx := by
    show (hex.toBitVec >>> (UInt32.mod (idx * 4).toUInt32 32).toBitVec.toNat).toNat = _
    rw [BitVec.toNat_ushiftRight, Nat.shiftRight_eq_div_pow]
    have : (UInt32.mod (idx * 4).toUInt32 32).toBitVec.toNat = idx * 4 :=
      (UInt32.toNat_mod _ _).trans (by
        rw [Nat.toUInt32, UInt32.toNat_ofNat_of_lt (by unfold UInt32.size; omega)]; show _ % 32 = _
        omega)
    rw [this, pow_mul', show 2 ^ 4 = 16 by rfl]
    rfl
  have masked : ((hex >>> (idx * 4).toUInt32) &&& 0xf).toNat = hex.toNat / 16 ^ idx % 16 := by
    rw [UInt32.and_toNat, shift, show (0xf : UInt32).toNat = 2 ^ 4 - 1 by rfl,
      Nat.and_pow_two_sub_one_eq_mod]
  rw [UInt32.toUInt8, Nat.toUInt8, UInt8.toNat_ofNat_of_lt (by unfold UInt8.size; omega), masked]

/-- The loop puts the low `n` nibbles of `hex` as digits, most significant first. -/
theorem hexValue_putHexLoop (hex : UInt32) {n : Nat} (hn : n ≤ 8) (acc : Nat) :
    hexValue acc (putHexLoop hex n) = 16 ^ n * acc + hex.toNat % 16 ^ n := by
  induction n generalizing acc with
  | zero => simp [putHexLoop, hexValue, Nat.mod_one]
  | succ n ih =>
    have nibble := nibble_toNat hex (show n < 8 by omega)
    have small : (hex.toNat / 16 ^ n % 16) < 16 := Nat.mod_lt _ (by norm_num)
    rw [putHexLoop, hexValue, ih (by omega), (hexDigit_spec (nibble ▸ small)).2, nibble,
      Nat.mod_pow_succ]
    ring

theorem putHexLoop_digits (hex : UInt32) {n : Nat} (hn : n ≤ 8) :
    (putHexLoop hex n).length = n ∧ ∀ d ∈ putHexLoop hex n, isHexDigit d := by
  induction n with
  | zero => exact ⟨rfl, nofun⟩
  | succ n ih =>
    refine ⟨by simp [putHexLoop, (ih (by omega)).1], fun d mem => ?_⟩
    rcases List.mem_cons.mp mem with rfl | rest
    · have small : (hex.toNat / 16 ^ n % 16) < 16 := Nat.mod_lt _ (by norm_num)
      exact (hexDigit_spec ((nibble_toNat hex (show n < 8 by omega)).symm ▸ small)).1
    · exact (ih (by omega)).2 d rest

/-- **`uart_put_hex` prints its argument.**  For every `uint32_t`, `uart_put_hex` stores `"0x"`
and then eight lowercase hexadecimal digits, and those digits read back in base 16 give the
argument: no two arguments print alike, and none is cut short. -/
theorem uartPutHex_spec (hex : UInt32) :
    ∃ digits, uartPutHex hex = [48, 120] ++ digits ∧ digits.length = 8 ∧
      (∀ d ∈ digits, isHexDigit d) ∧ hexValue 0 digits = hex.toNat := by
  obtain ⟨length, hexDigits⟩ := putHexLoop_digits hex (n := 8) le_rfl
  refine ⟨_, rfl, length, hexDigits, ?_⟩
  rw [hexValue_putHexLoop hex le_rfl, Nat.mul_zero, Nat.zero_add]
  exact Nat.mod_eq_of_lt hex.toNat_lt_size

/-- `main`'s `uart_put_hex(0x12345678)` prints `0x12345678`. -/
example : uartPutHex 0x12345678 = [48, 120, 49, 50, 51, 52, 53, 54, 55, 56] := by decide

/-! ## `uart_init` and the clock divisor -/

/-- `UART_REG_IE` of `devices/uart/uart.h`. -/
def UART_REG_IE : UInt32 := 4

/-- `UART_REG_TXCTRL` of `devices/uart/uart.h`. -/
def UART_REG_TXCTRL : UInt32 := 2

/-- `UART_REG_RXCTRL` of `devices/uart/uart.h`. -/
def UART_REG_RXCTRL : UInt32 := 3

/-- `UART_REG_DIV` of `devices/uart/uart.h`. -/
def UART_REG_DIV : UInt32 := 6

/-- `UART_TXCTRL_TXEN` of `devices/uart/uart.h`. -/
def UART_TXCTRL_TXEN : UInt32 := 0x1

/-- `UART_RXCTRL_RXEN` of `devices/uart/uart.h`. -/
def UART_RXCTRL_RXEN : UInt32 := 0x1

/-- `DEFAULT_UART_FREQ` of `main.c`. -/
def DEFAULT_UART_FREQ : UInt32 := 0

/-- `DEFAULT_UART_BAUDRATE` of `main.c`. -/
def DEFAULT_UART_BAUDRATE : UInt32 := 115200

/-- **`uart_min_clk_divisor(in_freq, max_target_hz)`**: `quotient = (in_freq + max_target_hz - 1)
/ max_target_hz` in `uint64_t`, then `quotient - 1`, or `0` where that would underflow, returned
as an `unsigned int`. -/
def uartMinClkDivisor (inFreq maxTargetHz : UInt64) : UInt32 :=
  let quotient := (inFreq + maxTargetHz - 1) / maxTargetHz
  if quotient = 0 then 0 else (quotient - 1).toUInt32

/-- **`uart_init(base, in_freq, baudrate)`**: its `set_reg` stores, in order, as (register,
value) pairs; `uart_base` is `base`, and register `i` lies at `uart_base + (i << 2)`. -/
def uartInit (inFreq baudrate : UInt32) : List (UInt32 × UInt32) :=
  (if inFreq ≠ 0 then [(UART_REG_DIV, uartMinClkDivisor inFreq.toUInt64 baudrate.toUInt64)]
    else []) ++
  [(UART_REG_IE, 0), (UART_REG_TXCTRL, UART_TXCTRL_TXEN), (UART_REG_RXCTRL, UART_RXCTRL_RXEN)]

/-- The divisor is the least `d` with `in_freq ≤ baudrate * (d + 1)`: the UART's rate
`in_freq / (d + 1)` does not exceed `baudrate`, and with any smaller divisor it would. -/
theorem uartMinClkDivisor_spec (inFreq baudrate : UInt32) (pos : 0 < baudrate.toNat) :
    inFreq.toNat ≤
        baudrate.toNat * ((uartMinClkDivisor inFreq.toUInt64 baudrate.toUInt64).toNat + 1) ∧
      ∀ d < (uartMinClkDivisor inFreq.toUInt64 baudrate.toUInt64).toNat,
        baudrate.toNat * (d + 1) < inFreq.toNat := by
  have f_lt := inFreq.toNat_lt_size
  have t_lt := baudrate.toNat_lt_size
  unfold UInt32.size at f_lt t_lt
  -- `in_freq + max_target_hz - 1` does not wrap in `uint64_t`, so the quotient `q` is the least
  -- `x` with `in_freq ≤ max_target_hz * x`.
  obtain ⟨q, hq⟩ : ∃ q, (inFreq.toNat + baudrate.toNat - 1) / baudrate.toNat = q := ⟨_, rfl⟩
  have quotient : ((inFreq.toUInt64 + baudrate.toUInt64 - 1) / baudrate.toUInt64).toNat = q := by
    rw [UInt64.toNat_div, ← hq]
    show (2 ^ 64 - 1 + (inFreq.toNat + baudrate.toNat) % 2 ^ 64) % 2 ^ 64 / baudrate.toNat = _
    congr 1
    omega
  have ceil : ∀ x, q ≤ x ↔ inFreq.toNat ≤ baudrate.toNat * x := fun x => by
    rw [← hq, Nat.div_le_iff_le_mul_add_pred pos]
    omega
  have q_le : q ≤ inFreq.toNat := (ceil _).mpr (Nat.le_mul_of_pos_left _ pos)
  -- The result is `q - 1` (or `0`), and it fits in an `unsigned int`.
  have divisor : (uartMinClkDivisor inFreq.toUInt64 baudrate.toUInt64).toNat = q - 1 := by
    dsimp only [uartMinClkDivisor]
    split_ifs with zero
    · rw [← quotient, zero]; rfl
    · have nonzero : q ≠ 0 := fun e => zero (UInt64.toNat.inj (quotient.trans e))
      have one : (1 : UInt64) ≤ (inFreq.toUInt64 + baudrate.toUInt64 - 1) / baudrate.toUInt64 := by
        show 1 ≤ UInt64.toNat _
        rw [quotient]
        omega
      rw [UInt64.toUInt32, Nat.toUInt32, UInt32.toNat_ofNat_of_lt] <;>
        rw [UInt64.toNat_sub_of_le _ _ one, quotient]
      · rfl
      · show q - 1 < 4294967296
        omega
  rw [divisor]
  exact ⟨(ceil _).mp (by omega), fun d hd => Nat.lt_of_not_le fun le => absurd ((ceil _).mpr le)
    (by omega)⟩

/-- **`uart_init` programs the least divisor that keeps to the baud rate.**  For every input
clock and every nonzero baud rate: with a nonzero input clock, `uart_init` stores
`uart_min_clk_divisor(in_freq, baudrate)` to the divisor register; and every store it makes to
that register is made with a nonzero input clock, of the least divisor `d` with which the
UART's rate `in_freq / (d + 1)` does not exceed the baud rate. -/
theorem uart_init_divisor (inFreq baudrate : UInt32) (pos : 0 < baudrate.toNat) :
    (inFreq ≠ 0 → (UART_REG_DIV, uartMinClkDivisor inFreq.toUInt64 baudrate.toUInt64) ∈
        uartInit inFreq baudrate) ∧
      ∀ v, (UART_REG_DIV, v) ∈ uartInit inFreq baudrate →
        inFreq ≠ 0 ∧ inFreq.toNat ≤ baudrate.toNat * (v.toNat + 1) ∧
          ∀ d < v.toNat, baudrate.toNat * (d + 1) < inFreq.toNat := by
  refine ⟨fun freq => by simp [uartInit, freq], fun v mem => ?_⟩
  unfold uartInit at mem
  split_ifs at mem with freq
  · rcases List.mem_cons.mp mem with e | rest
    · obtain rfl : v = _ := (Prod.mk.inj e).2
      exact ⟨freq, uartMinClkDivisor_spec inFreq baudrate pos⟩
    · simp [UART_REG_DIV, UART_REG_IE, UART_REG_TXCTRL, UART_REG_RXCTRL] at rest
  · simp [UART_REG_DIV, UART_REG_IE, UART_REG_TXCTRL, UART_REG_RXCTRL] at mem

/-- A 16 MHz clock at 115200 baud stores the divisor `138`: `16000000 / 139` is below `115200`,
`16000000 / 138` above. -/
theorem uart_init_16_mhz :
    0 < (115200 : UInt32).toNat ∧ (UART_REG_DIV, 138) ∈ uartInit 16000000 115200 ∧
      (((16000000 : UInt32) ≠ 0 →
          (UART_REG_DIV, uartMinClkDivisor (16000000 : UInt32).toUInt64 (115200 : UInt32).toUInt64)
            ∈ uartInit 16000000 115200) ∧
        ∀ v, (UART_REG_DIV, v) ∈ uartInit 16000000 115200 →
          (16000000 : UInt32) ≠ 0 ∧
            (16000000 : UInt32).toNat ≤ (115200 : UInt32).toNat * (v.toNat + 1) ∧
            ∀ d < v.toNat, (115200 : UInt32).toNat * (d + 1) < (16000000 : UInt32).toNat) :=
  ⟨by decide, by decide, uart_init_divisor _ _ (by decide)⟩

/-- As `main` and `other_main` call it, with `DEFAULT_UART_FREQ = 0`, `uart_init` makes no store
to the divisor register. -/
example : uartInit DEFAULT_UART_FREQ DEFAULT_UART_BAUDRATE = [(UART_REG_IE, 0),
    (UART_REG_TXCTRL, UART_TXCTRL_TXEN), (UART_REG_RXCTRL, UART_RXCTRL_RXEN)] := rfl

end TCoreSbi
