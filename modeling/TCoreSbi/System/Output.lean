import TCoreSbi.System.Integrity
import TCoreSbi.Uart

/-!
# The UART's output: every hart's text reaches TXDATA whole

`TCoreSbi.System` leaves output out: `puts`, `uart_puts`, `uart_put_hex` and `readline`'s echo
store to the UART's TXDATA register, which no hart reads.  Yet every hart prints, and all of them
share the one UART: the primary its banner, prompts, echo and reports, each secondary its two
headers and the mailbox.  This module adds that output to the model, shows that the result
refines `TCoreSbi.System` and loses none of its behaviours, and proves that no two harts' texts
ever interleave on the line.

## The model

* **Texts.**  After each step of `TCoreSbi.System` the code makes, before the hart's next step
  there, output that touches no shared state: `said s h` is what hart `h` puts after its step
  from `s`.  `readline`'s echo, which the code makes while it reads, goes with the text of the
  step that reads: no hart reads TXDATA, so only the order of the stores counts.
* **One byte a step.**  `Output` is a state of `TCoreSbi.System` with, for each hart, the bytes
  of its text it has still to put.  `Output.step` on a hart with bytes left is `uart_putc`'s
  store of the next one to TXDATA; on a hart with none it is the hart's step in
  `TCoreSbi.System`, which gives it its next text.  `uart_putc`'s spin on a full FIFO, and
  `uart_init`'s stores, which every hart makes but only to configuration registers, are not
  modelled.
* **History.**  `Output.tx` is what TXDATA has received, each byte with the hart that stored it,
  and `Output.texts` the texts in the order the steps gave them; no step reads either.
* **Whose turn it is.**  `turn c` is the hart whose turn on the UART the mailbox channel's state
  `c` gives: the primary's while no message is in flight and after the reply, the partner's
  from the send to the reply.  `Inv.turn_eq` says every hart at a place that prints is that
  hart, and the single-writer property follows from it.
-/

namespace TCoreSbi.System

open Mailbox

/-! ## The texts of `main.c` -/

/-- The bytes of an ASCII string literal of the source. -/
def ascii (lit : String) : List UInt8 := lit.toList.map fun c => c.toNat.toUInt8

section Texts

variable {N : Nat}

/-- **`puts(s)`** of `main.c` on hart `h`: `uart_puts("\r\n[HART ")`, `uart_putc('0' + hartid)`
with `hartid` a `char`, `uart_puts("] ")`, then `uart_puts(s)`. -/
def puts (h : Fin N) (s : List UInt8) : List UInt8 :=
  ascii "\r\n[HART " ++ [48 + h.val.toUInt8] ++ ascii "] " ++ s

/-- `test_ipi`'s prompt for the target hart. -/
def askHartPrompt (h : Fin N) : List UInt8 := puts h (ascii "Input hartid to wake up target hart: ")

/-- What `main` puts before its `readline`: its banner, `uart_put_hex(0x12345678)` and the
console test's prompt. -/
def mainBanner (h : Fin N) : List UInt8 :=
  puts h (ascii "Running SBI!") ++ puts h (ascii "Test put hexadecimal: ") ++
    uartPutHex 0x12345678 ++ puts h (ascii "Test console: ")

/-- What `other_main` puts once its `wait_ipi` returns, before `uart_puts(SMP_ADDR)`. -/
def otherHeaders (h : Fin N) : List UInt8 :=
  puts h (ascii "Software interrupt from Hart 0") ++ puts h (ascii "Message from Hart 0: ")

/-- What `main` and `test_ipi` put after the primary `h`'s step from `m`, before its next one:
the echo of each `readline` and the `puts` and `uart_put_hex` calls after it. -/
def mainSaid (s : State N) (h : Fin N) : MainPc N → List UInt8
  | .console => readlineEcho s.buf s.rx ++
    match readline s.buf s.rx with
    | some (.line buf, _) =>
      puts h (ascii "Test console OK: ") ++ cstr buf.bytes ++ puts h (ascii "Test IPI")
    | some (.null, _) => puts h (ascii "Test IPI")
    | _ => []
  | .clear => askHartPrompt h
  | .askHart => readlineEcho s.buf s.rx ++
    match readline s.buf s.rx with
    | some (.line buf, _) =>
      match targetHart N buf.first with
      | some _ => puts h (ascii "Input message: ")
      | none => puts h (ascii "Hartid out of range!") ++ askHartPrompt h
    | _ => []
  | .askMsg _ => readlineEcho s.buf s.rx
  | .copy k j n =>
    if j < n then [] else puts h (ascii "Send software interrupt. Hartid=") ++ uartPutHex k.val.toUInt32
  | .wait k .clear =>
    puts h (ascii "Finished receiving. Hartid=") ++ uartPutHex k.val.toUInt32 ++ askHartPrompt h
  | _ => []

/-- What `other_main` puts after the secondary `h`'s step from `o`, before its next one: the
headers once `wait_ipi` returns, and in `uart_puts(SMP_ADDR)` each byte it loads but the NUL. -/
def otherSaid (s : State N) (h : Fin N) : OtherPc → List UInt8
  | .wait .clear => otherHeaders h
  | .print out => if s.smp out.length = 0 then [] else [s.smp out.length]
  | _ => []

/-- The prompt the primary has put before the `readline` it makes at `m`, if it makes one there:
`main`'s console test and the two reads of `test_ipi`. -/
def MainPc.prompt (h : Fin N) : MainPc N → Option (List UInt8)
  | .console => some (puts h (ascii "Test console: "))
  | .askHart => some (askHartPrompt h)
  | .askMsg _ => some (puts h (ascii "Input message: "))
  | _ => none

/-- The primary makes its reads outside `wait_ipi`. -/
theorem MainPc.waiting_of_prompt {h : Fin N} {m : MainPc N} {p : List UInt8}
    (hp : m.prompt h = some p) : m.waiting = false := by
  cases m <;> first | rfl | simp [MainPc.prompt] at hp

/-- **What hart `h` puts after its step from `s`**, before its next step. -/
def said [NeZero N] (s : State N) (h : Fin N) : List UInt8 :=
  match s.pc h with
  | .boot .done => if h = ZERO_HART then mainBanner h else []
  | .boot _ => []
  | .main m => mainSaid s h m
  | .other o => otherSaid s h o

end Texts

/-! ## Who prints, and when -/

section Turn

variable {N : Nat} [NeZero N]

/-- The places a hart can have bytes left to put at: the primary past the barrier and outside
`wait_ipi`, a secondary inside `uart_puts(SMP_ADDR)`. -/
def HartPc.speaks : HartPc N → Bool
  | .main m => !m.waiting
  | .other (.print _) => true
  | _ => false

/-- Hart `h` is where it prints, or where its next step gives it something to print: at a place
that `speaks`, at the clear that ends `wait_ipi`, or, for the primary, leaving the barrier. -/
def Speaking (s : State N) (h : Fin N) : Prop :=
  (s.pc h).speaks ∨ (s.pc h).clearing ∨ (h = ZERO_HART ∧ s.pc h = .boot .done)

/-- The hart whose turn on the UART the channel's state gives: the primary's while no message is
in flight and once the partner has replied, the partner's from the send to the reply. -/
def turn : Chan N → Fin N
  | .idle | .replied _ => ZERO_HART
  | .sent k _ | .taken k _ | .printed k => k

variable {s s' : State N} {h : Fin N}

/-- Only a speaking hart's step gives it something to put. -/
theorem speaking_of_said (spoken : said s h ≠ []) : Speaking s h := by
  unfold Speaking
  rcases hpc : s.pc h with p | m | o
  · cases p <;> simp only [said, hpc, ne_eq, not_true_eq_false] at spoken
    refine .inr (.inr ⟨?_, rfl⟩)
    by_contra hz
    exact spoken (if_neg hz)
  · cases m with
    | wait k w =>
      cases w <;> simp only [said, mainSaid, hpc, ne_eq, not_true_eq_false] at spoken
      exact .inr (.inl rfl)
    | _ => exact .inl rfl
  · cases o with
    | wait w =>
      cases w <;> simp only [said, otherSaid, hpc, ne_eq, not_true_eq_false] at spoken
      exact .inr (.inl rfl)
    | print out => exact .inl rfl
    | _ => simp only [said, otherSaid, hpc, ne_eq, not_true_eq_false] at spoken

/-- A step that gives its hart something to put leaves it at a place it puts it from. -/
theorem speaks_of_said (hstep : step s h = some s') (spoken : said s h ≠ []) :
    (s'.pc h).speaks := by
  rcases hpc : s.pc h with p | m | o
  · cases p <;> simp only [said, hpc, ne_eq, not_true_eq_false] at spoken
    rw [step_launch hpc] at hstep
    cases hstep
    have hz : h = ZERO_HART := by_contra fun hz => spoken (if_neg hz)
    simp [entry, hz, HartPc.speaks, MainPc.waiting]
  · rw [step_main hpc] at hstep
    cases m with
    | console | askHart | askMsg k =>
      obtain ⟨⟨r, rest⟩, -, rfl⟩ := Option.map_eq_some'.mp hstep
      dsimp only
      repeat' split
      all_goals simp [hpc, HartPc.speaks, MainPc.waiting]
    | clear => cases hstep; simp [HartPc.speaks, MainPc.waiting]
    | copy k j n =>
      simp only [mainStep] at hstep
      split at hstep <;> cases hstep
      · split <;> simp [HartPc.speaks, MainPc.waiting]
      · simp [HartPc.speaks, MainPc.waiting]
    | send k => simp [said, mainSaid, hpc] at spoken
    | wait k w =>
      cases w with
      | clear => cases hstep; simp [HartPc.speaks, MainPc.waiting]
      | _ => simp [said, mainSaid, hpc] at spoken
    | fault => cases hstep
  · rw [step_other hpc] at hstep
    cases o with
    | wait w =>
      cases w with
      | clear => cases hstep; simp [HartPc.speaks]
      | _ => simp [said, otherSaid, hpc] at spoken
    | print out =>
      simp only [said, otherSaid, hpc] at spoken
      simp only [otherStep, if_neg (fun zero => spoken (if_pos zero))] at hstep
      cases hstep
      simp [HartPc.speaks]
    | _ => simp [said, otherSaid, hpc] at spoken

/-- **Whoever is speaking has the turn the channel gives.**  So two harts are never speaking
at once. -/
theorem Inv.turn_eq (inv : Inv s) {c : Chan N} (hc : Chan.idle.run s.log = some c)
    (sp : Speaking s h) : turn c = h := by
  obtain ⟨c₀, hc₀, prim, sec⟩ := inv.chan
  obtain rfl : c = c₀ := Option.some.inj (hc.symm.trans hc₀)
  have role := inv.roles h
  have idle : (∀ k w, s.pc ZERO_HART ≠ .main (.wait k w)) → turn c = ZERO_HART := fun away => by
    rw [primaryOk_idle prim away]; rfl
  rcases sp with speaks | clearing | ⟨rfl, hpc⟩
  · rcases hpc : s.pc h with p | m | o <;> rw [hpc] at speaks role
    · cases speaks
    · subst role
      exact idle fun k w e => by rw [hpc] at e; cases e; cases speaks
    · cases o <;> try cases speaks
      obtain ⟨m, rfl, -⟩ := secondaryOk_print (hpc ▸ sec h role)
      rfl
  · rcases hpc : s.pc h with p | m | o <;> rw [hpc] at clearing role
    · cases clearing
    · subst role
      rcases m with _ | _ | _ | _ | _ | _ | ⟨k, _ | _ | _⟩ | _ <;> try cases clearing
      rw [primaryOk_replied prim hpc (inv.clearing _ (by rw [hpc]; rfl))]
      rfl
    · rcases o with _ | ⟨_ | _ | _⟩ | _ | _ <;> try cases clearing
      obtain ⟨m, rfl⟩ := secondaryOk_clearing (hpc ▸ sec h role)
      rfl
  · exact idle fun k w e => by rw [hpc] at e; cases e

theorem Inv.speaking_unique (inv : Inv s) {j : Fin N} (sh : Speaking s h) (sj : Speaking s j) :
    h = j := by
  obtain ⟨c, hc, -⟩ := inv.chan
  rw [← inv.turn_eq hc sh, inv.turn_eq hc sj]

/-- A hart steps into `uart_puts(SMP_ADDR)` only from the clear that ends `wait_ipi`, having the
headers to put, or from inside it, having the byte it loaded to put. -/
theorem print_of_step (hstep : step s h = some s') {out : List UInt8}
    (hpc' : s'.pc h = .other (.print out)) :
    (s.pc h = .other (.wait .clear) ∧ out = [] ∧ said s h = otherHeaders h) ∨
      ∃ out₀, s.pc h = .other (.print out₀) ∧ out = out₀ ++ said s h := by
  rcases hpc : s.pc h with p | m | o
  · by_cases done : p = .done
    · subst done
      rw [step_launch hpc] at hstep
      cases hstep
      simp only [State.setPc_pc, Function.update_same, entry] at hpc'
      split at hpc' <;> cases hpc'
    · rw [step_boot hpc done] at hstep
      obtain ⟨b, -, rfl⟩ := Option.map_eq_some'.mp hstep
      simp at hpc'
  · rw [step_main hpc] at hstep
    cases m with
    | console | askHart | askMsg k =>
      obtain ⟨⟨r, rest⟩, -, rfl⟩ := Option.map_eq_some'.mp hstep
      revert hpc'
      dsimp only
      repeat' split
      all_goals simp [hpc]
    | copy k j n =>
      simp only [mainStep] at hstep
      split at hstep <;> cases hstep
      · revert hpc'; split <;> simp
      · simp at hpc'
    | wait k w =>
      cases w with
      | clear => cases hstep; simp at hpc'
      | _ =>
        simp only [mainStep] at hstep
        obtain ⟨w', rfl⟩ := waitIpi_loop hstep (by decide)
        simp at hpc'
    | fault => cases hstep
    | _ => cases hstep; simp at hpc'
  · rw [step_other hpc] at hstep
    cases o with
    | wait w =>
      cases w with
      | clear =>
        cases hstep
        simp only [State.emit_pc, State.setPc_pc, Function.update_same, HartPc.other.injEq,
          OtherPc.print.injEq] at hpc'
        exact .inl ⟨rfl, hpc'.symm, by simp [said, otherSaid, hpc]⟩
      | _ =>
        simp only [otherStep] at hstep
        obtain ⟨w', rfl⟩ := waitIpi_loop hstep (by decide)
        simp at hpc'
    | print out₀ =>
      simp only [otherStep] at hstep
      split at hstep <;> cases hstep
      · simp at hpc'
      · rename_i nonzero
        simp only [State.setPc_pc, Function.update_same, HartPc.other.injEq,
          OtherPc.print.injEq] at hpc'
        exact .inr ⟨out₀, rfl, by simp [said, otherSaid, hpc, nonzero, hpc']⟩
    | _ => cases hstep; simp at hpc'

/-- The only step that records `print k m` is secondary `k` loading the NUL after `m`. -/
theorem print_event {k : Fin N} {m : List UInt8} (hstep : step s h = some s')
    (logged : s'.log = s.log ++ [.print k m]) :
    h = k ∧ s.pc h = .other (.print m) ∧ s.smp m.length = 0 := by
  rcases hpc : s.pc h with p | m' | o
  · by_cases done : p = .done
    · subst done; rw [step_launch hpc] at hstep; cases hstep; simp at logged
    · rw [step_boot hpc done] at hstep
      obtain ⟨b, -, rfl⟩ := Option.map_eq_some'.mp hstep
      simp at logged
  · have := (step_frame hstep).2.2
    rw [step_main hpc] at hstep
    rcases this with same | ⟨e, he, logs⟩
    · rw [same] at logged; simp at logged
    · rw [hpc] at logs
      rcases m' with _ | _ | _ | _ | _ | k' | ⟨k', _ | _ | _⟩ | _ <;> try cases logs
      all_goals cases hstep; simp at logged
  · have := (step_frame hstep).2.2
    rw [step_other hpc] at hstep
    rcases this with same | ⟨e, he, logs⟩
    · rw [same] at logged; simp at logged
    · rw [hpc] at logs
      rcases o with _ | ⟨_ | _ | _⟩ | out | _ <;> try cases logs
      · cases hstep; simp at logged
      · simp only [otherStep] at hstep
        split at hstep <;> cases hstep
        · rename_i zero
          simp at logged
          obtain ⟨rfl, rfl⟩ := logged
          exact ⟨rfl, rfl, zero⟩
        · simp at he
      · cases hstep; simp at logged

/-- A step that leaves the primary at a `readline` gives it that read's prompt to put last. -/
theorem prompt_of_step (hstep : step s h = some s') {m : MainPc N} {p : List UInt8}
    (hpc' : s'.pc h = .main m) (hp : m.prompt h = some p) : ∃ pre, said s h = pre ++ p := by
  have none_of : ∀ {m₀ : MainPc N}, m₀ = m → m₀.prompt h = none → False := fun e hm => by
    subst e; rw [hm] at hp; cases hp
  rcases hpc : s.pc h with q | m₀ | o
  · by_cases done : q = .done
    · subst done
      rw [step_launch hpc] at hstep
      cases hstep
      simp only [State.setPc_pc, Function.update_same, entry] at hpc'
      split at hpc' <;> cases hpc'
      rename_i hz
      obtain rfl : puts h (ascii "Test console: ") = p := Option.some.inj hp
      simp only [said, hpc, if_pos hz, mainBanner]
      exact ⟨_, rfl⟩
    · rw [step_boot hpc done] at hstep
      obtain ⟨b, -, rfl⟩ := Option.map_eq_some'.mp hstep
      simp at hpc'
  · rw [step_main hpc] at hstep
    cases m₀ with
    | console =>
      obtain ⟨⟨r, rest⟩, -, rfl⟩ := Option.map_eq_some'.mp hstep
      revert hpc'
      dsimp only
      split <;> simp only [State.setPc_pc, Function.update_same, HartPc.main.injEq] <;>
        exact fun e => (none_of e rfl).elim
    | clear =>
      cases hstep
      simp only [State.setPc_pc, Function.update_same, HartPc.main.injEq] at hpc'
      subst hpc'
      obtain rfl := Option.some.inj hp
      exact ⟨[], by simp [said, mainSaid, hpc]⟩
    | askHart =>
      obtain ⟨⟨r, rest⟩, ret, rfl⟩ := Option.map_eq_some'.mp hstep
      revert hpc'
      cases r with
      | line buf =>
        cases target : targetHart N buf.first with
        | some k =>
          simp only [target, State.setPc_pc, Function.update_same, HartPc.main.injEq]
          rintro rfl
          obtain rfl := Option.some.inj hp
          exact ⟨readlineEcho s.buf s.rx, by simp [said, mainSaid, hpc, ret, target]⟩
        | none =>
          simp only [target, hpc, HartPc.main.injEq]
          rintro rfl
          obtain rfl := Option.some.inj hp
          exact ⟨readlineEcho s.buf s.rx ++ puts h (ascii "Hartid out of range!"),
            by simp [said, mainSaid, hpc, ret, target]⟩
      | _ =>
        simp only [State.setPc_pc, Function.update_same, HartPc.main.injEq]
        exact fun e => (none_of e rfl).elim
    | askMsg k =>
      obtain ⟨⟨r, rest⟩, -, rfl⟩ := Option.map_eq_some'.mp hstep
      revert hpc'
      dsimp only
      repeat' split
      all_goals simp only [State.setPc_pc, Function.update_same, HartPc.main.injEq]
      all_goals exact fun e => (none_of e rfl).elim
    | copy k j n =>
      simp only [mainStep] at hstep
      split at hstep <;> cases hstep
      · revert hpc'
        split <;> simp only [State.setPc_pc, Function.update_same, HartPc.main.injEq] <;>
          exact fun e => (none_of e rfl).elim
      · simp only [State.setPc_pc, Function.update_same, HartPc.main.injEq] at hpc'
        exact (none_of hpc' rfl).elim
    | send k =>
      cases hstep
      simp only [State.emit_pc, State.setPc_pc, Function.update_same, HartPc.main.injEq] at hpc'
      exact (none_of hpc' rfl).elim
    | wait k w =>
      cases w with
      | clear =>
        cases hstep
        simp only [State.emit_pc, State.setPc_pc, Function.update_same, HartPc.main.injEq] at hpc'
        subst hpc'
        obtain rfl := Option.some.inj hp
        exact ⟨puts h (ascii "Finished receiving. Hartid=") ++ uartPutHex k.val.toUInt32,
          by simp [said, mainSaid, hpc]⟩
      | _ =>
        simp only [mainStep] at hstep
        obtain ⟨w', rfl⟩ := waitIpi_loop hstep (by decide)
        simp only [State.setPc_pc, Function.update_same, HartPc.main.injEq] at hpc'
        exact (none_of hpc' rfl).elim
    | fault => cases hstep
  · rw [step_other hpc] at hstep
    cases o with
    | wait w =>
      cases w with
      | clear => cases hstep; simp at hpc'
      | _ =>
        simp only [otherStep] at hstep
        obtain ⟨w', rfl⟩ := waitIpi_loop hstep (by decide)
        simp at hpc'
    | print out =>
      simp only [otherStep] at hstep
      split at hstep <;> cases hstep <;> simp at hpc'
    | _ => cases hstep; simp at hpc'

end Turn

/-! ## The firmware with its output -/

section WithOutput

variable {N : Nat}

/-- A hart's bytes, each with the hart. -/
def label (h : Fin N) (w : List UInt8) : List (Fin N × UInt8) := w.map fun b => (h, b)

/-- Texts one after another, each byte with its text's hart. -/
def flat (texts : List (Fin N × List UInt8)) : List (Fin N × UInt8) :=
  texts.flatMap fun p => label p.1 p.2

@[simp] theorem flat_append_text (texts : List (Fin N × List UInt8)) (h : Fin N) (w : List UInt8) :
    flat (texts ++ [(h, w)]) = flat texts ++ label h w := by
  simp [flat]

@[simp] theorem label_nil (h : Fin N) : label h [] = [] := rfl

@[simp] theorem label_append (h : Fin N) (a b : List UInt8) :
    label h (a ++ b) = label h a ++ label h b :=
  List.map_append _ _ _

@[simp] theorem label_cons (h : Fin N) (b : UInt8) (w : List UInt8) :
    label h (b :: w) = (h, b) :: label h w := rfl

/-- The firmware with its UART output. -/
structure Output (N : Nat) where
  /-- The state of `TCoreSbi.System`. -/
  sys : State N
  /-- The bytes of its text each hart has still to put. -/
  pending : Fin N → List UInt8
  /-- The bytes stored to TXDATA so far, each with the hart that stored it: a history
  variable. -/
  tx : List (Fin N × UInt8)
  /-- The texts the harts' steps have given them, in order, each with its hart: a history
  variable. -/
  texts : List (Fin N × List UInt8)

namespace Output

variable [NeZero N]

/-- The start of a run: `TCoreSbi.System`'s, with nothing put and nothing to put. -/
def init (mie : Fin N → UInt64) (smp : Nat → UInt8) (buf : Buf) (rx : List UInt32) : Output N :=
  ⟨State.init mie smp buf rx, fun _ => [], [], []⟩

/-- `uart_putc`'s store of `b` to TXDATA by hart `h`, with `rest` left to put. -/
@[simps]
def put (t : Output N) (h : Fin N) (b : UInt8) (rest : List UInt8) : Output N :=
  { t with pending := Function.update t.pending h rest, tx := t.tx ++ [(h, b)] }

/-- Hart `h`'s step to `s'` in `TCoreSbi.System`, which gives it its next text. -/
@[simps]
def move (t : Output N) (h : Fin N) (s' : State N) : Output N :=
  ⟨s', Function.update t.pending h (said t.sys h), t.tx, t.texts ++ [(h, said t.sys h)]⟩

/-- **One step of hart `h`** with output: the store of its next byte if it has one left, its
step in `TCoreSbi.System` otherwise; `none` where neither can happen. -/
def step (t : Output N) (h : Fin N) : Option (Output N) :=
  match t.pending h with
  | b :: rest => some (t.put h b rest)
  | [] => (System.step t.sys h).map (t.move h)

/-- The states some interleaving of the harts' steps reaches, for some console input. -/
inductive Reachable : Output N → Prop
  | init (mie : Fin N → UInt64) (smp : Nat → UInt8) (buf : Buf) (rx : List UInt32) :
    Reachable (init mie smp buf rx)
  | step {t t' : Output N} (h : Fin N) : Reachable t → t.step h = some t' → Reachable t'

variable {t t' : Output N} {h : Fin N}

/-- What a step is: a store, or a step of `TCoreSbi.System` by a hart with nothing left to put. -/
theorem step_cases (hstep : t.step h = some t') :
    (∃ b rest, t.pending h = b :: rest ∧ t' = t.put h b rest) ∨
      (t.pending h = [] ∧ ∃ s', System.step t.sys h = some s' ∧ t' = t.move h s') := by
  unfold step at hstep
  split at hstep
  · rename_i b rest hp
    exact .inl ⟨b, rest, hp, (Option.some.inj hstep).symm⟩
  · rename_i hp
    obtain ⟨s', hs', rfl⟩ := Option.map_eq_some'.mp hstep
    exact .inr ⟨hp, s', hs', rfl⟩

/-! ### Refinement -/

/-- Forgetting the output, a step is a stutter or a step of `TCoreSbi.System`. -/
theorem step_sys (hstep : t.step h = some t') :
    t'.sys = t.sys ∨ System.step t.sys h = some t'.sys := by
  rcases step_cases hstep with ⟨b, rest, -, rfl⟩ | ⟨-, s', hs', rfl⟩
  exacts [.inl rfl, .inr hs']

theorem Reachable.sys (ht : t.Reachable) : System.Reachable t.sys := by
  induction ht with
  | init => exact .init _ _ _ _
  | step h _ hstep ih =>
    rcases step_sys hstep with same | moved
    exacts [same ▸ ih, ih.step h moved]

/-- A hart with bytes left can always put them all. -/
theorem Reachable.flush (ht : t.Reachable) (h : Fin N) :
    ∃ t' : Output N, t'.Reachable ∧ t'.sys = t.sys ∧
      t'.pending = Function.update t.pending h [] := by
  suffices ∀ w (t : Output N), t.Reachable → t.pending h = w →
      ∃ t' : Output N, t'.Reachable ∧ t'.sys = t.sys ∧
        t'.pending = Function.update t.pending h [] from
    this _ t ht rfl
  intro w
  induction w with
  | nil => exact fun t ht hw => ⟨t, ht, rfl, by rw [← hw, Function.update_eq_self]⟩
  | cons b rest ih =>
    intro t ht hw
    have hstep : t.step h = some (t.put h b rest) := by simp [Output.step, hw]
    obtain ⟨t', ht', sys, pending⟩ := ih (t.put h b rest) (ht.step h hstep) (by simp)
    exact ⟨t', ht', sys, by rw [pending]; exact Function.update_idem (a := h) rest [] t.pending⟩

/-- Every state of `TCoreSbi.System` the firmware reaches is reached with its output, and with
every text put. -/
theorem Reachable.lift {s : State N} (hs : System.Reachable s) :
    ∃ t : Output N, t.Reachable ∧ t.sys = s ∧ ∀ j, t.pending j = [] := by
  induction hs with
  | init mie smp buf rx => exact ⟨Output.init mie smp buf rx, .init _ _ _ _, rfl, fun _ => rfl⟩
  | @step _ s' h _ hstep ih =>
    obtain ⟨t, ht, rfl, quiet⟩ := ih
    have moved : t.step h = some (t.move h s') := by simp [Output.step, quiet h, hstep]
    obtain ⟨t', ht', sys, pending⟩ := (ht.step h moved).flush h
    refine ⟨t', ht', sys, fun j => ?_⟩
    rw [pending]
    by_cases hj : j = h
    · subst hj; simp
    · simp [Function.update_noteq hj, quiet j]

/-- **The invariant of the output model.** -/
structure Inv (t : Output N) : Prop where
  sys : System.Reachable t.sys
  /-- A hart with bytes left is at a place it puts them from. -/
  quiet : ∀ j, t.pending j ≠ [] → (t.sys.pc j).speaks
  /-- One hart at most has bytes left, and TXDATA has received the texts up to them. -/
  writer : ∃ h, (∀ j ≠ h, t.pending j = []) ∧ t.tx ++ label h (t.pending h) = flat t.texts
  /-- A secondary inside `uart_puts(SMP_ADDR)` gave the last texts: its headers, then the bytes
  it has loaded. -/
  printing : ∀ k out, t.sys.pc k = .other (.print out) →
    ∃ pre, flat t.texts = pre ++ label k (otherHeaders k ++ out)
  /-- The primary at a `readline` gave the last texts, ending with that read's prompt. -/
  prompted : ∀ m p, t.sys.pc ZERO_HART = .main m → m.prompt ZERO_HART = some p →
    ∃ pre, flat t.texts = pre ++ label ZERO_HART p

theorem inv_init (mie : Fin N → UInt64) (smp : Nat → UInt8) (buf : Buf) (rx : List UInt32) :
    (init mie smp buf rx).Inv :=
  ⟨.init _ _ _ _, fun _ bad => absurd rfl bad, ⟨ZERO_HART, fun _ _ => rfl, rfl⟩, nofun,
    fun _ _ e => by cases e⟩

/-- While a hart is speaking, no other has bytes left. -/
theorem Inv.silent (inv : t.Inv) (sp : Speaking t.sys h) {j : Fin N} (hj : j ≠ h) :
    t.pending j = [] := by
  by_contra busy
  exact hj (inv.sys.inv.speaking_unique (.inl (inv.quiet j busy)) sp)

theorem Inv.put (inv : t.Inv) {b : UInt8} {rest : List UInt8} (hp : t.pending h = b :: rest) :
    (t.put h b rest).Inv := by
  obtain ⟨w, others, sent⟩ := inv.writer
  have busy : t.pending h ≠ [] := by simp [hp]
  obtain rfl : h = w := by_contra fun hw => busy (others h hw)
  refine ⟨inv.sys, fun j => ?_, ⟨h, fun j hj => ?_, ?_⟩, inv.printing, inv.prompted⟩
  · by_cases hj : j = h
    · subst hj; exact fun _ => inv.quiet j busy
    · simpa [Function.update_noteq hj] using inv.quiet j
  · simpa [Function.update_noteq hj] using others j hj
  · simpa [hp] using sent

theorem Inv.move (inv : t.Inv) (idle : t.pending h = []) {s' : State N}
    (hstep : System.step t.sys h = some s') : (t.move h s').Inv := by
  have frame := (step_frame hstep).1
  -- A step that gives its hart a text finds every other hart done with its own.
  have alone : said t.sys h ≠ [] → ∀ j, t.pending j = [] := fun spoken j => by
    by_cases hj : j = h
    · rw [hj, idle]
    · exact inv.silent (speaking_of_said spoken) hj
  refine ⟨inv.sys.step h hstep, fun j => ?_, ?_, fun k out hpc => ?_, fun m p hpc hp => ?_⟩
  · by_cases hj : j = h
    · subst hj; simpa using speaks_of_said hstep
    · simpa [Function.update_noteq hj, frame j hj] using inv.quiet j
  · obtain ⟨w, others, sent⟩ := inv.writer
    by_cases spoken : said t.sys h = []
    · have same : Function.update t.pending h [] = t.pending := by
        rw [← idle, Function.update_eq_self]
      refine ⟨w, fun j hj => ?_, ?_⟩ <;>
        simp only [move_pending, same, move_texts, move_tx, flat_append_text, spoken, label_nil,
          List.append_nil]
      exacts [others j hj, sent]
    · refine ⟨h, fun j hj => by simpa [Function.update_noteq hj] using alone spoken j, ?_⟩
      simpa [alone spoken w] using sent
  · simp only [move_texts, flat_append_text]
    by_cases hk : k = h
    · subst hk
      rcases print_of_step hstep hpc with ⟨-, rfl, headers⟩ | ⟨out₀, hpc₀, rfl⟩
      · exact ⟨flat t.texts, by simp [headers]⟩
      · obtain ⟨pre, texts⟩ := inv.printing k out₀ hpc₀
        exact ⟨pre, by simp [texts]⟩
    · have hpc₀ : t.sys.pc k = .other (.print out) := by rw [← frame k hk]; exact hpc
      have quiet : said t.sys h = [] := by
        by_contra spoken
        exact hk (inv.sys.inv.speaking_unique (.inl (by simp [hpc₀, HartPc.speaks]))
          (speaking_of_said spoken))
      obtain ⟨pre, texts⟩ := inv.printing k out hpc₀
      exact ⟨pre, by simp [quiet, texts]⟩
  · simp only [move_texts, flat_append_text]
    by_cases hz : h = ZERO_HART
    · subst hz
      obtain ⟨pre, said_eq⟩ := prompt_of_step hstep hpc hp
      exact ⟨flat t.texts ++ label ZERO_HART pre, by simp [said_eq]⟩
    · have hpc₀ : t.sys.pc ZERO_HART = .main m := by rw [← frame _ (Ne.symm hz)]; exact hpc
      have quiet : said t.sys h = [] := by
        by_contra spoken
        exact hz (inv.sys.inv.speaking_unique (speaking_of_said spoken)
          (.inl (by simp [hpc₀, HartPc.speaks, MainPc.waiting_of_prompt hp])))
      obtain ⟨pre, texts⟩ := inv.prompted m p hpc₀ hp
      exact ⟨pre, by simp [quiet, texts]⟩

theorem Inv.step (inv : t.Inv) (hstep : t.step h = some t') : t'.Inv := by
  rcases step_cases hstep with ⟨b, rest, hp, rfl⟩ | ⟨idle, s', hs', rfl⟩
  exacts [inv.put hp, inv.move idle hs']

theorem Reachable.inv (ht : t.Reachable) : t.Inv := by
  induction ht with
  | init => exact inv_init _ _ _ _
  | step _ _ hstep ih => exact ih.step hstep

/-- **No two harts' texts interleave on the UART.**  In every state the firmware reaches with its
output, at most one hart, `h`, is in the middle of a text, and what TXDATA has received, followed
by the rest of `h`'s text, is every text the harts' steps have given them, in the order they were
given, each stored whole by its own hart. -/
theorem uart_texts_whole (t : Output N) (ht : t.Reachable) :
    ∃ h, (∀ j ≠ h, t.pending j = []) ∧ t.tx ++ label h (t.pending h) = flat t.texts :=
  ht.inv.writer

set_option maxRecDepth 8000 in
private theorem message_ends :
    ∃ s ∈ run (State.init (fun _ => 0) (fun _ => 0) Buf.zeros roundInput : State MAX_HARTS)
      (bootSchedule ++ [1, 1, 1] ++ List.replicate 11 0 ++ List.replicate 5 1),
      s.pc 1 = .other (.print [104, 105]) ∧ s.smp 2 = 0 := by decide

/-- Hart `1` having printed `hi`, about to load the NUL after it, with every text put. -/
private theorem message_output :
    ∃ t : Output MAX_HARTS, t.Reachable ∧ t.sys.pc 1 = .other (.print [104, 105]) ∧
      t.sys.smp 2 = 0 ∧ ∀ j, t.pending j = [] :=
  have ⟨s, ran, pc, nul⟩ := message_ends
  have ⟨t, ht, sys, quiet⟩ := Reachable.lift ((System.Reachable.init _ _ _ _).run ran)
  ⟨t, ht, by rw [sys, pc], by rw [sys, nul], quiet⟩

/-- While hart `1` prints `hi`, TXDATA has received every text whole. -/
theorem hi_texts_whole :
    ∃ t : Output MAX_HARTS, t.Reachable ∧ t.sys.pc 1 = .other (.print [104, 105]) ∧
      ∃ h, (∀ j ≠ h, t.pending j = []) ∧ t.tx ++ label h (t.pending h) = flat t.texts :=
  have ⟨t, ht, pc, _⟩ := message_output
  ⟨t, ht, pc, uart_texts_whole t ht⟩

/-- **A secondary prints the message whole.**  When a secondary `k`'s `uart_puts(SMP_ADDR)`
returns, recording that it printed `m`, the message in flight is `m` (taken by `k`), and the
last bytes TXDATA has received are `k`'s two headers and then exactly the bytes of `m`, all
stored by `k`: nothing any other hart put came between them. -/
theorem uart_prints_message (t : Output N) (ht : t.Reachable) (k : Fin N) (t' : Output N)
    (hstep : t.step k = some t') (m : List UInt8) (logged : t'.sys.log = t.sys.log ++ [.print k m]) :
    Chan.idle.run t.sys.log = some (.taken k m) ∧
      ∃ pre, t'.tx = pre ++ label k (otherHeaders k ++ m) := by
  have inv := ht.inv
  rcases step_cases hstep with ⟨b, rest, -, rfl⟩ | ⟨idle, s', hs', rfl⟩
  · simp at logged
  rw [move_sys] at logged
  obtain ⟨-, hpc, -⟩ := print_event hs' logged
  -- The channel accepts the `print k m` only of the message `k` has taken.
  have taken : Chan.idle.run t.sys.log = some (.taken k m) := by
    obtain ⟨c, hc, -, sec⟩ := inv.sys.inv.chan
    obtain ⟨c', hc', -⟩ := (inv.sys.step k hs').inv.chan
    have hk : k ≠ ZERO_HART := by simpa [hpc, HartPc.RoleOk] using inv.sys.inv.roles k
    obtain ⟨m', rfl, -⟩ := secondaryOk_print (hpc ▸ sec k hk)
    rw [logged, Chan.run_append_of_run hc] at hc'
    simp only [Chan.step] at hc'
    split at hc' <;> rename_i same
    · rw [hc, same.2]
    · cases hc'
  refine ⟨taken, ?_⟩
  obtain ⟨pre, texts⟩ := inv.printing k m hpc
  obtain ⟨w, -, sent⟩ := inv.writer
  have quiet : t.pending w = [] := by
    by_cases hw : w = k
    · rw [hw, idle]
    · exact inv.silent (.inl (by simp [hpc, HartPc.speaks])) hw
  exact ⟨pre, by simpa [quiet, texts] using sent⟩

/-- Hart `1`'s `uart_puts(SMP_ADDR)` returns with `hi`: its headers and `hi` end the line. -/
theorem hi_printed_whole :
    ∃ t t' : Output MAX_HARTS, t.Reachable ∧ t.step 1 = some t' ∧
      t'.sys.log = t.sys.log ++ [.print 1 [104, 105]] ∧
      (Chan.idle.run t.sys.log = some (.taken 1 [104, 105]) ∧
        ∃ pre, t'.tx =
          pre ++ label (1 : Fin MAX_HARTS) (otherHeaders (1 : Fin MAX_HARTS) ++ [104, 105])) := by
  obtain ⟨t, ht, pc, nul, quiet⟩ := message_output
  have hstep : System.step t.sys 1 =
      some ((t.sys.setPc 1 (.other .reply)).emit (.print 1 [104, 105])) := by
    rw [step_other pc]; simp [otherStep, nul]
  have hout : t.step 1 =
      some (t.move 1 ((t.sys.setPc 1 (.other .reply)).emit (.print 1 [104, 105]))) := by
    simp [Output.step, quiet 1, hstep]
  exact ⟨t, _, ht, hout, by simp, uart_prints_message t ht 1 _ hout _ (by simp)⟩

/-- **Every `readline` is announced by its prompt.**  Whenever the primary stands at one of its
`readline` calls with all its bytes put, the last bytes TXDATA has received are that read's
prompt, put by the primary: whatever the interleaving, no other hart's output comes between a
prompt and the read it announces. -/
theorem uart_prompt_before_read (t : Output N) (ht : t.Reachable) (m : MainPc N) (p : List UInt8)
    (hpc : t.sys.pc ZERO_HART = .main m) (hp : m.prompt ZERO_HART = some p)
    (flushed : t.pending ZERO_HART = []) : ∃ pre, t.tx = pre ++ label ZERO_HART p := by
  have inv := ht.inv
  obtain ⟨pre, texts⟩ := inv.prompted m p hpc hp
  obtain ⟨w, -, sent⟩ := inv.writer
  have quiet : t.pending w = [] := by
    by_cases hw : w = ZERO_HART
    · rw [hw, flushed]
    · exact inv.silent (.inl (by simp [hpc, HartPc.speaks, MainPc.waiting_of_prompt hp])) hw
  exact ⟨pre, by simpa [quiet, texts] using sent⟩

set_option maxRecDepth 8000 in
private theorem ask_hart_ends :
    ∃ s ∈ run (State.init (fun _ => 0) (fun _ => 0) Buf.zeros roundInput : State MAX_HARTS)
      (bootSchedule ++ [0, 0, 0]), s.pc ZERO_HART = .main .askHart := by decide

/-- After the console test the primary asks for the target hart, and the prompt is the last
thing on the line. -/
theorem ask_hart_prompt_last :
    ∃ t : Output MAX_HARTS, t.Reachable ∧ t.sys.pc ZERO_HART = .main .askHart ∧
      t.pending ZERO_HART = [] ∧
        ∃ pre, t.tx =
          pre ++ label (ZERO_HART : Fin MAX_HARTS) (askHartPrompt (ZERO_HART : Fin MAX_HARTS)) :=
  have ⟨s, ran, pc⟩ := ask_hart_ends
  have ⟨t, ht, sys, quiet⟩ := Reachable.lift ((System.Reachable.init _ _ _ _).run ran)
  have hpc : t.sys.pc ZERO_HART = .main .askHart := by rw [sys, pc]
  ⟨t, ht, hpc, quiet _, uart_prompt_before_read t ht .askHart _ hpc rfl (quiet _)⟩

end Output

end WithOutput

end TCoreSbi.System
