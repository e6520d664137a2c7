import TCoreSbi.Platform

/-!
# The console: `getchar`, `readline` and `strlen`

`test_ipi` reads the target hart and the message with `readline(NULL)` and copies the line into
the mailbox with `memcpy(SMP_ADDR, m, strlen(m) + 1)`.  That copy has no length check of its
own: it stays inside the mailbox only because of `readline`'s loop invariant.  This module
models `libs/console.c` and `strlen` of `libs/string.c` and proves that invariant for every
stream of register reads.

## Design notes

* **Input.**  The console input is the list of values the UART's RXDATA register shows, one per
  read.  `getchar` polls past reads with the `EMPTY` bit set; `readline` runs out of input when
  the list does, and then it is still waiting (`none`).
* **The buffer.**  `readline`'s `static char buf[BUFSIZE]` is `Buf`, whose length is a field.
  A store past its end is undefined behaviour in C; here `Buf.store` returns `none` and
  `readline` returns `Readline.overflow`, so "no store leaves `buf`" is a statement about the
  result.
* **One loop.**  `readlineLoop` fuses `getchar`'s polling into `readline`'s loop so that it
  recurses structurally on the input; `readlineLoop_eq_getchar` unfolds it back into the
  source's shape, one `getchar` and one pass of the loop body (`readlineBody`).
* **The reference.**  `lineEdit` is the line edit the specification describes, written from
  its words, and `readline_line_edit` says that `readline` computes it.
* **The echo.**  `readlineEcho` is what `readline` stores to TXDATA with `uart_putc`, decided by
  the same passes of `readlineBody`; `display` is a terminal line on which a backspace takes
  back the byte before it, and `readline_echo` says the echo shows exactly the returned line.
-/

namespace TCoreSbi

/-- `BUFSIZE` of `libs/console.h`. -/
def BUFSIZE : Nat := 1024

/-- The static `buf` of `readline`: `BUFSIZE` bytes (`char` is unsigned on RISC-V). -/
structure Buf where
  bytes : List UInt8
  length_eq : bytes.length = BUFSIZE

namespace Buf

/-- The store `buf[i] = v`, or `none` when `i` lies past the end of the array. -/
def store (buf : Buf) (i : Nat) (v : UInt8) : Option Buf :=
  if i < BUFSIZE then some ⟨buf.bytes.set i v, by rw [List.length_set, buf.length_eq]⟩
  else none

/-- The load `buf[j]`, or `none` past the end of the array. -/
def load (buf : Buf) (j : Nat) : Option UInt8 := buf.bytes[j]?

/-- `buf[0]`, the first character of the line. -/
def first (buf : Buf) : UInt8 := buf.bytes.get ⟨0, by rw [buf.length_eq]; decide⟩

/-- `buf` as the loader leaves a static array: all zeros. -/
def zeros : Buf := ⟨List.replicate BUFSIZE 0, List.length_replicate _ _⟩

theorem store_of_lt {buf : Buf} {i : Nat} (v : UInt8) (hi : i < BUFSIZE) :
    buf.store i v = some ⟨buf.bytes.set i v, by rw [List.length_set, buf.length_eq]⟩ :=
  if_pos hi

end Buf

/-! ## `strlen` and the C string at a pointer -/

/-- `strlen`, on the bytes from the string's first byte to the end of its object: the number
of bytes before the first NUL, or `none` when the scan runs off the object. -/
def strlen : List UInt8 → Option Nat
  | [] => none
  | b :: rest => if b = 0 then some 0 else (strlen rest).map (· + 1)

/-- The C string these bytes hold: everything before the first NUL. -/
def cstr (bytes : List UInt8) : List UInt8 := bytes.takeWhile (· ≠ 0)

theorem zero_not_mem_cstr (bytes : List UInt8) : (0 : UInt8) ∉ cstr bytes := by
  intro mem
  simpa using List.mem_takeWhile_imp mem

/-- `strlen` finds its NUL inside the object. -/
theorem strlen_lt_length {bytes : List UInt8} {n : Nat} (found : strlen bytes = some n) :
    n < bytes.length := by
  induction bytes generalizing n with
  | nil => cases found
  | cons b rest ih =>
    unfold strlen at found
    split at found
    · cases found; simp
    · obtain ⟨m, hm, rfl⟩ := Option.map_eq_some'.mp found
      simpa using ih hm

/-- Where `strlen` finds a NUL at `n`, the first `n + 1` bytes are the C string and its
terminator. -/
theorem getElem?_of_strlen {bytes : List UInt8} {n : Nat} (found : strlen bytes = some n) :
    (cstr bytes).length = n ∧ ∀ j ≤ n, bytes[j]? = (cstr bytes ++ [0])[j]? := by
  induction bytes generalizing n with
  | nil => cases found
  | cons b rest ih =>
    unfold strlen at found
    by_cases zero : b = 0
    · subst zero
      simp only [if_true, Option.some.injEq] at found
      subst found
      refine ⟨by simp [cstr], fun j hj => ?_⟩
      obtain rfl : j = 0 := by omega
      simp [cstr]
    · simp only [zero, if_false, Option.map_eq_some'] at found
      obtain ⟨m, hm, rfl⟩ := found
      obtain ⟨hlen, hget⟩ := ih hm
      have cons_eq : cstr (b :: rest) = b :: cstr rest := by simp [cstr, zero]
      refine ⟨by simp [cons_eq, hlen], fun j hj => ?_⟩
      rw [cons_eq]
      cases j with
      | zero => simp
      | succ j => simpa using hget j (by omega)

/-- A byte sequence that spells `held` and then a NUL has `strlen` `held.length` and C string
`held`, whatever follows. -/
theorem strlen_of_getElem? {bytes held : List UInt8} (no_nul : (0 : UInt8) ∉ held)
    (spells : ∀ j < held.length, bytes[j]? = held[j]?) (nul : bytes[held.length]? = some 0) :
    strlen bytes = some held.length ∧ cstr bytes = held := by
  induction held generalizing bytes with
  | nil =>
    obtain ⟨rest, rfl⟩ : ∃ rest, bytes = 0 :: rest := by
      cases bytes with
      | nil => cases nul
      | cons b rest => exact ⟨rest, by simpa using nul⟩
    simp [strlen, cstr]
  | cons b held ih =>
    obtain ⟨rest, rfl⟩ : ∃ rest, bytes = b :: rest := by
      cases bytes with
      | nil => simpa using spells 0 (by simp)
      | cons b' rest => exact ⟨rest, by simpa using spells 0 (by simp)⟩
    have nonzero : b ≠ 0 := fun h => no_nul (h ▸ List.mem_cons_self _ _)
    obtain ⟨hlen, hstr⟩ := ih (fun h => no_nul (List.mem_cons_of_mem _ h))
      (fun j hj => by simpa using spells (j + 1) (by simp; omega)) (by simpa using nul)
    refine ⟨by simp [strlen, nonzero, hlen], ?_⟩
    simp only [cstr] at hstr ⊢
    rw [List.takeWhile_cons, if_pos (by simpa using nonzero), hstr]

/-! ## `getchar` and `readline` -/

/-- `getchar`: poll `uart_getc` until it returns something other than `-1`.  Its argument is
the sequence of values the RXDATA register will show; `none` when that runs out first. -/
def getchar : List UInt32 → Option (Int × List UInt32)
  | [] => none
  | reg :: rest => if uartGetc reg = -1 then getchar rest else some (uartGetc reg, rest)

/-- What `readline` returns: `buf`, `NULL`, or a store past the end of `buf` (undefined
behaviour in C). -/
inductive Readline
  | null
  | line (buf : Buf)
  | overflow

/-- The outcome of one pass of `readline`'s loop: go round again with `buf` and `i`, or
return. -/
inductive Iter
  | next (buf : Buf) (i : Nat)
  | ret (r : Readline)

/-- One pass of `readline`'s loop body on the character `c` that `getchar` returned:

```
if (c < 0) return NULL;
else if (c >= ' ' && i < BUFSIZE - 1) { uart_putc(c); buf[i++] = c; }
else if (c == '\b' && i > 0) { uart_putc(c); i--; }
else if (c == '\n' || c == '\r') { uart_putc(c); buf[i] = '\0'; return buf; }
```

`i` is an `int` in C; it starts at `0` and is decremented only when positive, so it is a
`Nat` here.  The echo through `uart_putc` is output only. -/
def readlineBody (c : Int) (buf : Buf) (i : Nat) : Iter :=
  if c < 0 then .ret .null
  else if 32 ≤ c ∧ i < BUFSIZE - 1 then
    match buf.store i c.toNat.toUInt8 with
    | some buf' => .next buf' (i + 1)
    | none => .ret .overflow
  else if c = 8 ∧ 0 < i then .next buf (i - 1)
  else if c = 10 ∨ c = 13 then
    match buf.store i 0 with
    | some buf' => .ret (.line buf')
    | none => .ret .overflow
  else .next buf i

/-- `readline`'s `while (1)` loop from index `i`, with `getchar`'s polling inlined: a read
whose `EMPTY` bit is set is polled past, any other goes through `readlineBody`.  `none` when
the input runs out before the loop returns. -/
def readlineLoop (buf : Buf) (i : Nat) : List UInt32 → Option (Readline × List UInt32)
  | [] => none
  | reg :: rest =>
    if uartGetc reg = -1 then readlineLoop buf i rest
    else
      match readlineBody (uartGetc reg) buf i with
      | .next buf' i' => readlineLoop buf' i' rest
      | .ret r => some (r, rest)

/-- `readline(NULL)` (the firmware never passes a prompt), starting from the current contents
of the static buffer: what it returns, and the register reads it has not consumed. -/
def readline (buf : Buf) (rx : List UInt32) : Option (Readline × List UInt32) :=
  readlineLoop buf 0 rx

/-- The fused loop is `readline`'s loop as the source writes it: one `getchar`, then one pass
of the body. -/
theorem readlineLoop_eq_getchar (buf : Buf) (i : Nat) (rx : List UInt32) :
    readlineLoop buf i rx = (getchar rx).bind fun (c, rest) =>
      match readlineBody c buf i with
      | .next buf' i' => readlineLoop buf' i' rest
      | .ret r => some (r, rest) := by
  induction rx with
  | nil => rfl
  | cons reg rest ih =>
    rw [readlineLoop.eq_2, getchar.eq_2]
    by_cases polled : uartGetc reg = -1
    · simp only [polled, if_true]
      exact ih
    · simp only [polled, if_false]
      rfl

/-- **`getchar` returns only bytes.** -/
theorem getchar_range {rx rest : List UInt32} {c : Int} (got : getchar rx = some (c, rest)) :
    0 ≤ c ∧ c ≤ 255 := by
  induction rx with
  | nil => cases got
  | cons reg tail ih =>
    unfold getchar at got
    split at got
    · exact ih got
    · rename_i polled
      cases got
      exact (uartGetc_range reg).resolve_left polled

/-! ## The reference line edit -/

/-- The bytes `uart_getc` delivers from a sequence of RXDATA reads, in order. -/
def received : List UInt32 → List UInt8
  | [] => []
  | reg :: rest =>
    if uartGetc reg = -1 then received rest else (uartGetc reg).toNat.toUInt8 :: received rest

/-- The delivered bytes up to the first `'\n'` or `'\r'`, and those after it; `none` when no
line end has been delivered. -/
def firstLine : List UInt8 → Option (List UInt8 × List UInt8)
  | [] => none
  | b :: rest =>
    if b = 10 ∨ b = 13 then some ([], rest)
    else (firstLine rest).map fun (pre, post) => (b :: pre, post)

/-- One byte of the line edit the specification describes: a byte `≥ ' '` is appended while
fewer than `BUFSIZE - 1` bytes are held, `'\b'` drops the last held byte if there is one, and
every other byte is ignored. -/
def lineEditStep (held : List UInt8) (b : UInt8) : List UInt8 :=
  if 32 ≤ b.toNat ∧ held.length < BUFSIZE - 1 then held ++ [b]
  else if b = 8 then held.dropLast
  else held

/-- The line edit of the specification, over the bytes of one line. -/
def lineEdit (bytes : List UInt8) : List UInt8 := bytes.foldl lineEditStep []

/-! ## `readline`'s loop invariant -/

/-- What holds at the top of `readline`'s loop with index `i`, when the bytes read so far
edit to `held`. -/
structure LoopInv (buf : Buf) (i : Nat) (held : List UInt8) : Prop where
  length_eq : held.length = i
  index_le : i ≤ BUFSIZE - 1
  spells : ∀ j < i, buf.bytes[j]? = held[j]?
  printable : ∀ b ∈ held, 32 ≤ b.toNat

theorem loopInv_start (buf : Buf) : LoopInv buf 0 [] :=
  ⟨rfl, by decide, fun _ h => absurd h (Nat.not_lt_zero _), fun _ h => absurd h (List.not_mem_nil _)⟩

theorem LoopInv.no_nul {buf : Buf} {i : Nat} {held : List UInt8} (inv : LoopInv buf i held) :
    (0 : UInt8) ∉ held := fun mem => absurd (inv.printable 0 mem) (by decide)

/-- **A line end returns the buffer, NUL-terminated at `i`, spelling the edited line.** -/
theorem readlineBody_line_end {buf : Buf} {i : Nat} {held : List UInt8} {c : Int}
    (inv : LoopInv buf i held) (nl : c = 10 ∨ c = 13) :
    ∃ line, readlineBody c buf i = .ret (.line line) ∧
      strlen line.bytes = some held.length ∧ cstr line.bytes = held := by
  have hi : i < BUFSIZE := by have := inv.index_le; unfold BUFSIZE at *; omega
  have hlen : i < buf.bytes.length := buf.length_eq ▸ hi
  refine ⟨⟨buf.bytes.set i 0, by rw [List.length_set, buf.length_eq]⟩, ?_,
    strlen_of_getElem? inv.no_nul (fun j hj => ?_) ?_⟩
  · have : ¬ c < 0 := by omega
    have : ¬ (32 ≤ c ∧ i < BUFSIZE - 1) := by omega
    have : ¬ (c = 8 ∧ 0 < i) := by omega
    simp only [readlineBody, *, if_false, if_true, Buf.store_of_lt _ hi]
  · rw [List.getElem?_set, if_neg (by have := inv.length_eq; omega),
      inv.spells j (inv.length_eq ▸ hj)]
  · rw [List.getElem?_set, inv.length_eq, if_pos rfl, if_pos hlen]

/-- A byte-valued `int` stored into a `char` keeps its value. -/
theorem toNat_toUInt8 {c : Int} (byte : 0 ≤ c ∧ c ≤ 255) : c.toNat.toUInt8.toNat = c.toNat :=
  UInt8.toNat_ofNat_of_lt (by unfold UInt8.size; omega)

theorem toUInt8_eq_iff {c : Int} (byte : 0 ≤ c ∧ c ≤ 255) (v : UInt8) :
    c.toNat.toUInt8 = v ↔ c = v.toNat := by
  have stored := toNat_toUInt8 byte
  refine ⟨fun h => ?_, fun h => UInt8.toNat.inj ?_⟩
  · rw [← h, stored]; omega
  · rw [stored, h, Int.toNat_ofNat]

/-- `buf[i++] = c` keeps the invariant, with `c` appended to the edited line. -/
theorem LoopInv.append {buf : Buf} {i : Nat} {held : List UInt8} (inv : LoopInv buf i held)
    {b : UInt8} (room : i < BUFSIZE - 1) (printable : 32 ≤ b.toNat) :
    LoopInv ⟨buf.bytes.set i b, by rw [List.length_set, buf.length_eq]⟩ (i + 1) (held ++ [b]) := by
  have hi : i < buf.bytes.length := by rw [buf.length_eq]; omega
  refine ⟨by simp [inv.length_eq], by omega, fun j hj => ?_, fun b' mem => ?_⟩
  · rw [List.getElem?_set]
    by_cases old : j < i
    · rw [if_neg (by omega), inv.spells j old, List.getElem?_append_left (by rw [inv.length_eq]; omega)]
    · obtain rfl : j = i := by omega
      rw [if_pos rfl, if_pos hi, List.getElem?_append_right (by rw [inv.length_eq])]
      simp [inv.length_eq]
  · rcases List.mem_append.mp mem with old | new
    · exact inv.printable b' old
    · rw [List.mem_singleton.mp new]; exact printable

/-- `i--` keeps the invariant, with the last byte of the edited line dropped. -/
theorem LoopInv.backspace {buf : Buf} {i : Nat} {held : List UInt8} (inv : LoopInv buf i held)
    (pos : 0 < i) : LoopInv buf (i - 1) held.dropLast := by
  refine ⟨by simp [inv.length_eq], by have := inv.index_le; omega, fun j hj => ?_,
    fun b mem => inv.printable b (List.dropLast_subset _ mem)⟩
  rw [inv.spells j (by omega), List.dropLast_eq_take, List.getElem?_take,
    if_pos (by rw [inv.length_eq]; omega)]

/-- A byte the loop neither stores nor takes a byte back for leaves the edited line alone. -/
theorem LoopInv.ignored {buf : Buf} {i : Nat} {held : List UInt8} (inv : LoopInv buf i held)
    {c : Int} (byte : 0 ≤ c ∧ c ≤ 255) (append : ¬ (32 ≤ c ∧ i < BUFSIZE - 1))
    (back : ¬ (c = 8 ∧ 0 < i)) : lineEditStep held c.toNat.toUInt8 = held := by
  rw [lineEditStep, if_neg (by rw [toNat_toUInt8 byte, inv.length_eq]; omega)]
  by_cases bs : c = 8
  · obtain rfl : held = [] := List.length_eq_zero.mp (by rw [inv.length_eq]; omega)
    simp
  · rw [if_neg (fun h => bs ((toUInt8_eq_iff byte 8).mp h))]

/-- **Any other character keeps the loop invariant, with the edited line advanced by one
byte.** -/
theorem readlineBody_next {buf : Buf} {i : Nat} {held : List UInt8} {c : Int}
    (inv : LoopInv buf i held) (byte : 0 ≤ c ∧ c ≤ 255) (not_nl : ¬ (c = 10 ∨ c = 13)) :
    ∃ buf' i', readlineBody c buf i = .next buf' i' ∧
      LoopInv buf' i' (lineEditStep held c.toNat.toUInt8) := by
  have toNat_eq := toNat_toUInt8 byte
  have is_bs : c.toNat.toUInt8 = 8 ↔ c = 8 := toUInt8_eq_iff byte 8
  have nonneg : ¬ c < 0 := by omega
  by_cases append : 32 ≤ c ∧ i < BUFSIZE - 1
  · have hi : i < BUFSIZE := by unfold BUFSIZE at *; omega
    refine ⟨⟨buf.bytes.set i c.toNat.toUInt8, by rw [List.length_set, buf.length_eq]⟩, i + 1,
      by simp only [readlineBody, if_neg nonneg, if_pos append, Buf.store_of_lt _ hi], ?_⟩
    rw [lineEditStep, if_pos ⟨by omega, by rw [inv.length_eq]; exact append.2⟩]
    exact inv.append append.2 (by omega)
  by_cases back : c = 8 ∧ 0 < i
  · refine ⟨buf, i - 1, by simp only [readlineBody, if_neg nonneg, if_neg append, if_pos back],
      ?_⟩
    rw [lineEditStep, if_neg (by omega), if_pos (is_bs.mpr back.1)]
    exact inv.backspace back.2
  · refine ⟨buf, i, by simp only [readlineBody, if_neg nonneg, if_neg append, if_neg back,
      if_neg not_nl], ?_⟩
    rw [inv.ignored byte append back]
    exact inv

/-- **The index bound of `readline`'s loop.**  From `i ≤ BUFSIZE - 1` a pass of the body stores
only inside `buf` and goes round again with an index that is still at most `BUFSIZE - 1`. -/
theorem readlineBody_bound (c : Int) (buf : Buf) {i : Nat} (bound : i ≤ BUFSIZE - 1) :
    readlineBody c buf i ≠ .ret .overflow ∧
      ∀ buf' i', readlineBody c buf i = .next buf' i' → i' ≤ BUFSIZE - 1 := by
  have hi : i < BUFSIZE := by unfold BUFSIZE at *; omega
  unfold readlineBody
  split
  · exact ⟨nofun, fun _ _ h => nomatch h⟩
  split
  · rw [Buf.store_of_lt _ hi]
    exact ⟨nofun, fun _ _ h => by cases h; omega⟩
  split
  · exact ⟨nofun, fun _ _ h => by cases h; omega⟩
  split
  · rw [Buf.store_of_lt _ hi]
    exact ⟨nofun, fun _ _ h => nomatch h⟩
  · exact ⟨nofun, fun _ _ h => by cases h; exact bound⟩

/-- **`readline`'s loop over any input.**  From a state satisfying the loop invariant with
edited line `held`, the loop is still waiting exactly when no line end has been delivered, and
when it returns it returns the buffer at the first line end, spelling `held` edited by the
bytes before it. -/
theorem readlineLoop_spec (rx : List UInt32) {buf : Buf} {i : Nat} {held : List UInt8}
    (inv : LoopInv buf i held) :
    ((readlineLoop buf i rx).isSome ↔ (firstLine (received rx)).isSome) ∧
      ∀ r rest, readlineLoop buf i rx = some (r, rest) →
        ∃ line pre, r = .line line ∧ firstLine (received rx) = some (pre, received rest) ∧
          strlen line.bytes = some (pre.foldl lineEditStep held).length ∧
          cstr line.bytes = pre.foldl lineEditStep held ∧
          (pre.foldl lineEditStep held).length ≤ BUFSIZE - 1 ∧
          ∀ b ∈ pre.foldl lineEditStep held, 32 ≤ b.toNat := by
  induction rx generalizing buf i held with
  | nil => exact ⟨by simp [readlineLoop, received, firstLine], fun _ _ h => by cases h⟩
  | cons reg rest ih =>
    by_cases polled : uartGetc reg = -1
    · simpa only [readlineLoop, received, polled, if_true] using ih inv
    have byte := (uartGetc_range reg).resolve_left polled
    have line_end : ∀ v : UInt8, v = 10 ∨ v = 13 →
        ((uartGetc reg).toNat.toUInt8 = v ↔ uartGetc reg = v.toNat) :=
      fun v _ => toUInt8_eq_iff byte v
    by_cases nl : uartGetc reg = 10 ∨ uartGetc reg = 13
    · obtain ⟨line, body, hstrlen, hcstr⟩ := readlineBody_line_end inv nl
      have first : firstLine (received (reg :: rest)) = some ([], received rest) := by
        have : (uartGetc reg).toNat.toUInt8 = 10 ∨ (uartGetc reg).toNat.toUInt8 = 13 := by
          rcases nl with h | h
          · exact Or.inl ((line_end 10 (Or.inl rfl)).mpr (by rw [h]; rfl))
          · exact Or.inr ((line_end 13 (Or.inr rfl)).mpr (by rw [h]; rfl))
        simp only [received, polled, if_false, firstLine, this, if_true]
      refine ⟨by simp [readlineLoop, polled, body, first], fun r rest' loop => ?_⟩
      simp only [readlineLoop, polled, if_false, body, Option.some.injEq, Prod.mk.injEq] at loop
      obtain ⟨rfl, rfl⟩ := loop
      exact ⟨line, [], rfl, first, hstrlen, hcstr, inv.length_eq ▸ inv.index_le, inv.printable⟩
    · obtain ⟨buf', i', body, inv'⟩ := readlineBody_next inv byte nl
      have not_end : ¬ ((uartGetc reg).toNat.toUInt8 = 10 ∨ (uartGetc reg).toNat.toUInt8 = 13) := by
        rintro (h | h)
        · exact nl (Or.inl (((line_end 10 (Or.inl rfl)).mp h).trans rfl))
        · exact nl (Or.inr (((line_end 13 (Or.inr rfl)).mp h).trans rfl))
      obtain ⟨iff, ret⟩ := ih inv'
      refine ⟨by simpa [readlineLoop, received, firstLine, polled, body, not_end] using iff, ?_⟩
      intro r rest' loop
      simp only [readlineLoop, polled, if_false, body] at loop
      obtain ⟨line, pre, hr, first, facts⟩ := ret r rest' loop
      refine ⟨line, (uartGetc reg).toNat.toUInt8 :: pre, hr, ?_, facts⟩
      simp [received, polled, firstLine, not_end, first]

/-- What a caller of `readline(NULL)` may rely on: it returns `buf`, holding a C string of at
most `BUFSIZE - 1` bytes. -/
theorem readline_line {buf : Buf} {rx rest : List UInt32} {r : Readline}
    (ret : readline buf rx = some (r, rest)) :
    ∃ line, r = .line line ∧ strlen line.bytes = some (cstr line.bytes).length ∧
      (cstr line.bytes).length + 1 ≤ BUFSIZE := by
  obtain ⟨line, pre, hr, -, hstrlen, hcstr, hlen, -⟩ :=
    (readlineLoop_spec rx (loopInv_start buf)).2 r rest ret
  refine ⟨line, hr, by rw [hcstr]; exact hstrlen, ?_⟩
  rw [hcstr]; unfold BUFSIZE at *; omega

/-- **`readline(NULL)` computes the specification's line edit, inside the buffer.**  For every
sequence of RXDATA reads: `getchar` returns only bytes; from `i ≤ BUFSIZE - 1` each pass of the
loop stores inside `buf` and keeps the bound (the loop starts at `i = 0`); `readline` returns
exactly when a `'\n'` or `'\r'` has been delivered, at the first one; and what it returns is never
`NULL` but `buf`, NUL-terminated right after the reference line edit of the bytes before the
line end, which holds no byte below `' '`.  So `readline(NULL)[0]` in `test_ipi` reads `buf`,
and `memcpy(SMP_ADDR, m, strlen(m) + 1)` copies at most `BUFSIZE ≤ SMP_SIZE` bytes. -/
theorem readline_line_edit (buf : Buf) (rx : List UInt32) :
    (∀ c rest, getchar rx = some (c, rest) → 0 ≤ c ∧ c ≤ 255) ∧
    (∀ c (b : Buf) i, i ≤ BUFSIZE - 1 →
      readlineBody c b i ≠ .ret .overflow ∧
        ∀ b' i', readlineBody c b i = .next b' i' → i' ≤ BUFSIZE - 1) ∧
    ((readline buf rx).isSome ↔ (firstLine (received rx)).isSome) ∧
    ∀ r rest, readline buf rx = some (r, rest) →
      ∃ line pre, r = .line line ∧ firstLine (received rx) = some (pre, received rest) ∧
        strlen line.bytes = some (lineEdit pre).length ∧ cstr line.bytes = lineEdit pre ∧
        (lineEdit pre).length + 1 ≤ BUFSIZE ∧ BUFSIZE ≤ SMP_SIZE ∧
        ∀ b ∈ lineEdit pre, 32 ≤ b.toNat := by
  obtain ⟨iff, ret⟩ := readlineLoop_spec rx (loopInv_start buf)
  refine ⟨fun _ _ => getchar_range, fun c b _ bound => readlineBody_bound c b bound, iff,
    fun r rest loop => ?_⟩
  obtain ⟨line, pre, hr, first, hstrlen, hcstr, hlen, hprint⟩ := ret r rest loop
  exact ⟨line, pre, hr, first, hstrlen, hcstr, by unfold lineEdit BUFSIZE at *; omega, by decide,
    hprint⟩

/-! ## The echo -/

/-- What one pass of `readline`'s loop echoes with `uart_putc(c)`: the byte it stores, the
backspace it takes a byte back for, or the line end; nothing for a byte it ignores. -/
def readlineEchoBody (c : Int) (i : Nat) : List UInt8 :=
  if c < 0 then []
  else if 32 ≤ c ∧ i < BUFSIZE - 1 then [c.toNat.toUInt8]
  else if c = 8 ∧ 0 < i then [c.toNat.toUInt8]
  else if c = 10 ∨ c = 13 then [c.toNat.toUInt8]
  else []

/-- The bytes `readline`'s loop from index `i` echoes, pass by pass as `readlineLoop` takes
them, until it returns or the input runs out. -/
def readlineEchoLoop (buf : Buf) (i : Nat) : List UInt32 → List UInt8
  | [] => []
  | reg :: rest =>
    if uartGetc reg = -1 then readlineEchoLoop buf i rest
    else readlineEchoBody (uartGetc reg) i ++
      match readlineBody (uartGetc reg) buf i with
      | .next buf' i' => readlineEchoLoop buf' i' rest
      | .ret _ => []

/-- **What `readline(NULL)` echoes** through `uart_putc`. -/
def readlineEcho (buf : Buf) (rx : List UInt32) : List UInt8 := readlineEchoLoop buf 0 rx

/-- One byte on a terminal line: a backspace takes back the byte before it, any other byte is
shown after the rest. -/
def displayStep (shown : List UInt8) (b : UInt8) : List UInt8 :=
  if b = 8 then shown.dropLast else shown ++ [b]

/-- What a terminal line that showed `screen` shows after the bytes `out`. -/
def display (screen out : List UInt8) : List UInt8 := out.foldl displayStep screen

theorem display_append (screen a b : List UInt8) :
    display screen (a ++ b) = display (display screen a) b :=
  List.foldl_append _ _ _ _

/-- A pass that does not end the line echoes what it does to the edited line: shown after the
held bytes, the echo turns them into the edited line and leaves what stands before them alone. -/
theorem LoopInv.display_echo {buf : Buf} {i : Nat} {held : List UInt8} (inv : LoopInv buf i held)
    {c : Int} (byte : 0 ≤ c ∧ c ≤ 255) (not_nl : ¬ (c = 10 ∨ c = 13)) (screen : List UInt8) :
    display (screen ++ held) (readlineEchoBody c i) = screen ++ lineEditStep held c.toNat.toUInt8 ∧
      ∀ b ∈ readlineEchoBody c i, b = 8 ∨ 32 ≤ b.toNat := by
  have toNat_eq := toNat_toUInt8 byte
  have is_bs : c.toNat.toUInt8 = 8 ↔ c = 8 := toUInt8_eq_iff byte 8
  have nonneg : ¬ c < 0 := by omega
  by_cases append : 32 ≤ c ∧ i < BUFSIZE - 1
  · have shown : c.toNat.toUInt8 ≠ 8 := fun h => by have := is_bs.mp h; omega
    rw [readlineEchoBody, if_neg nonneg, if_pos append, lineEditStep,
      if_pos ⟨by omega, by rw [inv.length_eq]; exact append.2⟩]
    exact ⟨by simp [display, displayStep, shown], by simp; omega⟩
  by_cases back : c = 8 ∧ 0 < i
  · have nonempty : held ≠ [] := fun h => by have := inv.length_eq; simp [h] at this; omega
    rw [readlineEchoBody, if_neg nonneg, if_neg append, if_pos back, lineEditStep,
      if_neg (by omega), if_pos (is_bs.mpr back.1)]
    refine ⟨?_, by simp [is_bs.mpr back.1]⟩
    simp [display, displayStep, is_bs.mpr back.1, List.dropLast_append_of_ne_nil _ nonempty]
  · rw [readlineEchoBody, if_neg nonneg, if_neg append, if_neg back, if_neg not_nl,
      inv.ignored byte append back]
    exact ⟨rfl, nofun⟩

/-- The echo of `readline`'s loop from a state satisfying the loop invariant, when the loop
returns: the bytes of the edit, then the line end. -/
theorem readlineEchoLoop_spec {rx rest : List UInt32} {buf : Buf} {i : Nat} {held : List UInt8}
    {r : Readline} (inv : LoopInv buf i held) (ret : readlineLoop buf i rx = some (r, rest)) :
    ∃ line shown e, r = .line line ∧ readlineEchoLoop buf i rx = shown ++ [e] ∧
      (e = 10 ∨ e = 13) ∧ (∀ screen, display (screen ++ held) shown = screen ++ cstr line.bytes) ∧
      ∀ b ∈ shown, b = 8 ∨ 32 ≤ b.toNat := by
  induction rx generalizing buf i held with
  | nil => cases ret
  | cons reg rx ih =>
    by_cases polled : uartGetc reg = -1
    · simp only [readlineLoop, readlineEchoLoop, polled, if_true] at ret ⊢
      exact ih inv ret
    have byte := (uartGetc_range reg).resolve_left polled
    by_cases nl : uartGetc reg = 10 ∨ uartGetc reg = 13
    · obtain ⟨line, body, -, hcstr⟩ := readlineBody_line_end inv nl
      simp only [readlineLoop, polled, if_false, body, Option.some.injEq, Prod.mk.injEq] at ret
      obtain ⟨rfl, -⟩ := ret
      have echo : readlineEchoBody (uartGetc reg) i = [(uartGetc reg).toNat.toUInt8] := by
        rw [readlineEchoBody, if_neg (by omega), if_neg (by omega), if_neg (by omega), if_pos nl]
      refine ⟨line, [], (uartGetc reg).toNat.toUInt8, rfl,
        by simp [readlineEchoLoop, polled, body, echo], ?_, fun screen => by rw [hcstr]; rfl, nofun⟩
      rcases nl with h | h
      · exact .inl ((toUInt8_eq_iff byte 10).mpr h)
      · exact .inr ((toUInt8_eq_iff byte 13).mpr h)
    · obtain ⟨buf', i', body, inv'⟩ := readlineBody_next inv byte nl
      simp only [readlineLoop, polled, if_false, body] at ret
      obtain ⟨line, shown, e, hr, echo, he, shows, printable⟩ := ih inv' ret
      refine ⟨line, readlineEchoBody (uartGetc reg) i ++ shown, e, hr,
        by simp [readlineEchoLoop, polled, body, echo], he, fun screen => ?_, fun b mem => ?_⟩
      · rw [display_append, (inv.display_echo byte nl screen).1, shows]
      · rcases List.mem_append.mp mem with here | later
        exacts [(inv.display_echo byte nl []).2 b here, printable b later]

/-- **`readline`'s echo shows the line it returns.**  Whenever `readline(NULL)` returns, it has
echoed some bytes and then the `'\n'` or `'\r'` that ended the line.  A terminal shows those
bytes, after whatever the line showed before them (the prompt), as exactly that text followed by
the returned C string: no echoed backspace takes back a byte of the prompt, and none is left
over.  Every echoed byte before the line end is a backspace or one `≥ ' '`. -/
theorem readline_echo (buf : Buf) (rx : List UInt32) {r : Readline} {rest : List UInt32}
    (ret : readline buf rx = some (r, rest)) :
    ∃ line shown e, r = .line line ∧ readlineEcho buf rx = shown ++ [e] ∧ (e = 10 ∨ e = 13) ∧
      (∀ screen, display screen shown = screen ++ cstr line.bytes) ∧
      ∀ b ∈ shown, b = 8 ∨ 32 ≤ b.toNat := by
  simpa using readlineEchoLoop_spec (loopInv_start buf) ret

/-- A backspace at the start of the line is neither stored nor echoed; the second takes back
the `x`: the echo of `\b h x \b i \r` is `h x \b i \r`, shown as `hi`. -/
theorem readline_echo_backspaces :
    ∃ r rest, readline Buf.zeros [8, 104, 120, 8, 105, 13] = some (r, rest) ∧
      ∃ line shown e, r = .line line ∧
        readlineEcho Buf.zeros [8, 104, 120, 8, 105, 13] = shown ++ [e] ∧ (e = 10 ∨ e = 13) ∧
        (∀ screen, display screen shown = screen ++ cstr line.bytes) ∧
        ∀ b ∈ shown, b = 8 ∨ 32 ≤ b.toNat :=
  ⟨_, _, rfl, readline_echo _ _ rfl⟩

example : readlineEcho Buf.zeros [8, 104, 120, 8, 105, 13] = [104, 120, 8, 105, 13] := by decide

/-! ## `__intr_save` and `__intr_restore` -/

/-- `MSTATUS_MIE` of `include/riscv.h`: the machine interrupt-enable bit of `mstatus`. -/
def MSTATUS_MIE : UInt64 := 0x00000008

/-- **`__intr_save()`** on a hart whose `mstatus` (a `reg_size_t`) is `mstatus`: what it
returns, and `mstatus` after it.  With `MIE` set it clears it with `clear_csr` and returns `1`,
otherwise it returns `0`.  Nothing among the sources calls it. -/
def intrSave (mstatus : UInt64) : Int × UInt64 :=
  if mstatus &&& MSTATUS_MIE ≠ 0 then (1, mstatus &&& ~~~MSTATUS_MIE) else (0, mstatus)

/-- **`__intr_restore(flag)`**: `set_csr(mstatus, MSTATUS_MIE)` when `flag` is nonzero. -/
def intrRestore (flag : Int) (mstatus : UInt64) : UInt64 :=
  if flag ≠ 0 then mstatus ||| MSTATUS_MIE else mstatus

theorem UInt64.toBitVec_land (a b : UInt64) : (a &&& b).toBitVec = a.toBitVec &&& b.toBitVec :=
  rfl

theorem UInt64.toBitVec_lor (a b : UInt64) : (a ||| b).toBitVec = a.toBitVec ||| b.toBitVec :=
  rfl

theorem UInt64.toBitVec_complement (a : UInt64) : (~~~a).toBitVec = ~~~a.toBitVec := rfl

/-- `MSTATUS_MIE` is bit `3` alone. -/
theorem getLsbD_MSTATUS_MIE (i : Nat) : MSTATUS_MIE.toBitVec.getLsbD i = decide (i = 3) := by
  change (BitVec.ofNat 64 (2 ^ 3)).getLsbD i = _
  rw [BitVec.getLsbD_ofNat, Nat.testBit_two_pow]
  by_cases hi : i = 3 <;> simp [hi, eq_comm]

theorem and_MSTATUS_MIE_eq_zero (m : UInt64) :
    m &&& MSTATUS_MIE = 0 ↔ m.toBitVec.getLsbD 3 = false := by
  constructor
  · intro zero
    simpa [UInt64.toBitVec_land, getLsbD_MSTATUS_MIE] using
      congrArg (fun v : UInt64 => v.toBitVec.getLsbD 3) zero
  · intro clear
    apply UInt64.eq_of_toBitVec_eq
    ext i
    by_cases hi : (i : Nat) = 3 <;> simp [UInt64.toBitVec_land, getLsbD_MSTATUS_MIE, hi, clear]

/-- **`__intr_save` and `__intr_restore` bracket a critical section.**  For every `mstatus`:
after `intr_save`, `MIE` is clear and every other bit is as it was; an `intr_save` nested inside
returns `0` and changes nothing; and `intr_restore` with the saved flag, after any code that
leaves `MIE` clear whatever it does to the other bits, sets `MIE` back to what it was before the
save and changes no other bit. -/
theorem intr_save_restore (mstatus : UInt64) :
    (intrSave mstatus).2 &&& MSTATUS_MIE = 0 ∧
      (intrSave mstatus).2 ||| (mstatus &&& MSTATUS_MIE) = mstatus ∧
      intrSave (intrSave mstatus).2 = (0, (intrSave mstatus).2) ∧
      ∀ inside, inside &&& MSTATUS_MIE = 0 →
        intrRestore (intrSave mstatus).1 inside = inside ||| (mstatus &&& MSTATUS_MIE) := by
  -- Every fact is about bit `3` alone: compare the bits one at a time.
  have bits : ∀ a b : UInt64, (∀ i : Fin 64, a.toBitVec.getLsbD i = b.toBitVec.getLsbD i) →
      a = b := fun a b same => UInt64.eq_of_toBitVec_eq (BitVec.eq_of_getLsbD_eq same)
  cases bit : mstatus.toBitVec.getLsbD 3
  · have zero : mstatus &&& MSTATUS_MIE = 0 := (and_MSTATUS_MIE_eq_zero _).mpr bit
    have save : intrSave mstatus = (0, mstatus) := by simp [intrSave, zero]
    have or_zero : ∀ a : UInt64, a ||| 0 = a := fun a => bits _ _ fun i => by
      simp [UInt64.toBitVec_lor]
    simp [save, zero, or_zero, intrRestore]
  · have set : mstatus &&& MSTATUS_MIE ≠ 0 := by
      rw [Ne, and_MSTATUS_MIE_eq_zero, bit]; decide
    have cleared : mstatus &&& ~~~MSTATUS_MIE &&& MSTATUS_MIE = 0 :=
      (and_MSTATUS_MIE_eq_zero _).mpr (by simp [UInt64.toBitVec_land, UInt64.toBitVec_complement,
        getLsbD_MSTATUS_MIE])
    have save : intrSave mstatus = (1, mstatus &&& ~~~MSTATUS_MIE) := by simp [intrSave, set]
    simp only [save]
    refine ⟨cleared, bits _ _ fun i => ?_, by simp [intrSave, cleared], fun inside _ => ?_⟩
    · by_cases hi : (i : Nat) = 3 <;> simp [UInt64.toBitVec_land, UInt64.toBitVec_lor,
        UInt64.toBitVec_complement, getLsbD_MSTATUS_MIE, hi, bit]
    · simp only [intrRestore, ne_eq, one_ne_zero, not_false_eq_true, if_true]
      refine bits _ _ fun i => ?_
      by_cases hi : (i : Nat) = 3 <;>
        simp [UInt64.toBitVec_land, UInt64.toBitVec_lor, getLsbD_MSTATUS_MIE, hi, bit]

end TCoreSbi
