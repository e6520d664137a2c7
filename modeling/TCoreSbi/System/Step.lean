import TCoreSbi.Console
import TCoreSbi.Barrier.Step
import TCoreSbi.System.Channel

/-!
# The firmware after reset: the barrier, `test_ipi` and `other_main` on every hart

Every hart runs the barrier of `include/smp.h`; then `ZERO_HART` runs `main`, whose last act is
`test_ipi`, and every other hart runs `other_main`.  After the barrier the two talk through the
mailbox at `SMP_ADDR` and the msip words: the primary reads a hart id and a line from the
console, copies the line into the mailbox, raises the target's word and waits in `wait_ipi` for
its own; the target's `wait_ipi` returns, it prints the mailbox and raises the primary's word.

## The model

* **Places.**  A hart's place is a `HartPc`: a place of the barrier (`Barrier.Pc`), of `main`
  and `test_ipi` (`MainPc`), or of `other_main` (`OtherPc`).  `wait_ipi` is one function with
  two callers, so it is one definition, `waitIpi`, given the caller's places inside the call
  and the caller's step after it returns.
* **The barrier runs unchanged.**  A hart in the barrier takes `Barrier.step` on the projection
  `State.toBarrier`, in which every hart past the barrier stands at `done`.
* **Granularity.**  Each load or store of shared state is its own step: the msip words, and the
  mailbox byte by byte (`memcpy` copies one byte a step, `uart_puts` loads one byte a step).
  `readline` touches only the primary's UART and its own `buf`, so one call is one step.
  Output through `puts`, `uart_puts` and `uart_put_hex` touches nothing another hart reads;
  `TCoreSbi.System.Output` adds it on top of this model.
* **Undefined behaviour** (a `NULL` dereference, a load or store outside its object) sends the
  primary to `MainPc.fault`, where it stops.
* **The log.**  `State.log` records the mailbox events of `TCoreSbi.Mailbox` at the
  instructions that produce them; no instruction reads it.
-/

namespace TCoreSbi.System

open Mailbox

/-- Where a hart is in `wait_ipi`. -/
inductive WaitPc
  /-- The loop test `!(read_csr(mip) & MIP_MSIP)`. -/
  | check
  /-- `wfi()` in the loop body. -/
  | wfi
  /-- `clint_clear_soft(hartid)` after the loop. -/
  | clear
  deriving DecidableEq

/-- Where the primary is in `main` and `test_ipi`. -/
inductive MainPc (N : Nat)
  /-- `readline(NULL)` of `main`'s console test. -/
  | console
  /-- `clint_clear_soft(hartid); set_csr(mie, MIP_MSIP)` at the top of `test_ipi`. -/
  | clear
  /-- `to_hartid = readline(NULL)[0] - '0'` and its range check. -/
  | askHart
  /-- `m = readline(NULL)` and `strlen(m) + 1`, with target `k`. -/
  | askMsg (k : Fin N)
  /-- `memcpy(SMP_ADDR, m, n)`, about to copy byte `j`. -/
  | copy (k : Fin N) (j n : Nat)
  /-- `clint_send_soft(to_hartid)`. -/
  | send (k : Fin N)
  /-- `wait_ipi(hartid)` after the send to `k`. -/
  | wait (k : Fin N) (w : WaitPc)
  /-- Undefined behaviour: `NULL` dereferenced, or a load or store outside its object. -/
  | fault
  deriving DecidableEq

/-- Where a secondary is in `other_main`. -/
inductive OtherPc
  /-- `clint_clear_soft(hartid); set_csr(mie, MIP_MSIP)` before the loop. -/
  | clear
  /-- `wait_ipi(hartid)`. -/
  | wait (w : WaitPc)
  /-- `uart_puts(SMP_ADDR)`, having put the bytes `out`; the next load is at
  `SMP_ADDR + out.length`. -/
  | print (out : List UInt8)
  /-- `clint_send_soft(ZERO_HART)`. -/
  | reply
  deriving DecidableEq

/-- A hart's place: in the barrier, or past it in `main` or `other_main`. -/
inductive HartPc (N : Nat)
  | boot (p : Barrier.Pc N)
  | main (m : MainPc N)
  | other (o : OtherPc)
  deriving DecidableEq

/-- What the harts share, with each hart's place and `mie`. -/
structure State (N : Nat) where
  pc : Fin N → HartPc N
  mie : Fin N → UInt64
  msip : Fin N → UInt32
  /-- The bytes from `SMP_ADDR` on. -/
  smp : Nat → UInt8
  /-- `readline`'s static `buf`, which `m` points to. -/
  buf : Buf
  /-- What the RXDATA register shows to the reads still to come. -/
  rx : List UInt32
  /-- The mailbox events so far: a history variable, which no instruction reads. -/
  log : List (Event N)

section State

variable {N : Nat}

/-- Hart `h` moves to `p`. -/
@[simps]
def State.setPc (s : State N) (h : Fin N) (p : HartPc N) : State N :=
  { s with pc := Function.update s.pc h p }

/-- Record a mailbox event. -/
@[simps]
def State.emit (s : State N) (e : Event N) : State N := { s with log := s.log ++ [e] }

/-- The place a hart has in the barrier: past it, it stands at `done`. -/
def HartPc.barrierPc : HartPc N → Barrier.Pc N
  | .boot p => p
  | _ => .done

/-- The barrier's view of the state. -/
def State.toBarrier (s : State N) : Barrier.State N :=
  ⟨fun h => (s.pc h).barrierPc, s.mie, s.msip⟩

@[simp] theorem barrierPc_boot (p : Barrier.Pc N) : (HartPc.boot p).barrierPc = p := rfl

@[simp] theorem barrierPc_main (m : MainPc N) : (HartPc.main m).barrierPc = .done := rfl

@[simp] theorem barrierPc_other (o : OtherPc) : (HartPc.other o : HartPc N).barrierPc = .done := rfl

@[simp] theorem toBarrier_pc (s : State N) (j : Fin N) : s.toBarrier.pc j = (s.pc j).barrierPc :=
  rfl

@[simp] theorem toBarrier_mie (s : State N) : s.toBarrier.mie = s.mie := rfl

@[simp] theorem toBarrier_msip (s : State N) : s.toBarrier.msip = s.msip := rfl

/-- A hart that moves to a place projecting as its old one leaves the barrier's view alone. -/
theorem toBarrier_setPc {s : State N} {h : Fin N} {p' : HartPc N}
    (bar : p'.barrierPc = (s.pc h).barrierPc) : (s.setPc h p').toBarrier = s.toBarrier := by
  simp only [State.toBarrier, Barrier.State.mk.injEq]
  refine ⟨funext fun j => ?_, rfl, rfl⟩
  by_cases hj : j = h
  · subst hj; simpa using bar
  · rw [State.setPc_pc, Function.update_noteq hj]

/-- The places that record a mailbox event. -/
def HartPc.logs : HartPc N → Bool
  | .main (.send _) | .main (.wait _ .clear) | .other (.wait .clear) | .other (.print _)
  | .other .reply => true
  | _ => false

end State

section Step

variable {N : Nat} [NeZero N]

/-- The start of a run: every hart at `smp_pause`, every msip word `0`; `mie`, the mailbox, `buf`
and the console input are anything. -/
def State.init (mie : Fin N → UInt64) (smp : Nat → UInt8) (buf : Buf) (rx : List UInt32) :
    State N :=
  ⟨fun _ => .boot .pause, mie, fun _ => 0, smp, buf, rx, []⟩

/-- Modelled from the spec: the entry code that runs `smp_pause; smp_resume` and then calls
`main` on `ZERO_HART` and `other_main` on every other hart is not among the sources.  This is
the place a hart reaches when it leaves `smp_resume`. -/
def entry (h : Fin N) : HartPc N := if h = ZERO_HART then .main .console else .other .clear

/-- `to_hartid = readline(NULL)[0] - '0'`, computed in `size_t`, and the test
`to_hartid >= ZERO_HART + 1 && to_hartid <= MAX_HARTS - 1` for `N = MAX_HARTS` harts: the target,
or `none` ("Hartid out of range!"). -/
def targetHart (N : Nat) (c : UInt8) : Option (Fin N) :=
  let to_hartid : UInt64 := c.toUInt64 - 48
  if range : 1 ≤ to_hartid ∧ to_hartid ≤ (N - 1).toUInt64 then
    some ⟨to_hartid.toNat, by
      have lo : 1 ≤ to_hartid.toNat := range.1
      have hi : to_hartid.toNat ≤ (N - 1) % 2 ^ 64 := range.2
      have := Nat.mod_le (N - 1) (2 ^ 64)
      omega⟩
  else none

/-- The range check never lets the primary signal itself. -/
theorem targetHart_ne_zero {c : UInt8} {k : Fin N} (target : targetHart N c = some k) :
    k ≠ ZERO_HART := by
  simp only [targetHart] at target
  split at target
  · rename_i range
    cases target
    intro zero
    have lo : 1 ≤ (c.toUInt64 - 48).toNat := range.1
    have : (c.toUInt64 - 48).toNat = 0 := congrArg Fin.val zero
    omega
  · cases target

/-- On the five harts of the firmware the range check accepts the characters `'1'` to `'4'`
and no other byte: a character below `'0'` wraps round in `size_t` and is rejected. -/
example : (List.range 256).filter (fun c => (targetHart MAX_HARTS c.toUInt8).isSome) =
    [49, 50, 51, 52] := by decide

/-- **`wait_ipi(hartid)`**, one step on hart `h` at `w`.  `inside w'` is the caller's place for
`w'` inside the call, and `ret` the caller's step once the call returns.  `wfi` blocks until
`(mip & mie) != 0`, as in `Barrier.step`: an early return of `wfi`, which RISC-V allows, would
only take the loop round its `mip` test once more. -/
def waitIpi (s : State N) (h : Fin N) (inside : WaitPc → HartPc N) (ret : State N → State N) :
    WaitPc → Option (State N)
  | .check => some (s.setPc h (inside (if mip s.msip h &&& MIP_MSIP = 0 then .wfi else .clear)))
  | .wfi => if mip s.msip h &&& s.mie h ≠ 0 then some (s.setPc h (inside .check)) else none
  | .clear => some (ret { s with msip := clintClearSoft s.msip h })

/-- **`main` and `test_ipi`**, one step of the primary `h` at `m`. -/
def mainStep (s : State N) (h : Fin N) : MainPc N → Option (State N)
  | .console => (readline s.buf s.rx).map fun (r, rest) =>
    match r with
    | .line buf => { s.setPc h (.main .clear) with buf := buf, rx := rest }
    | .null => { s.setPc h (.main .clear) with rx := rest }
    | .overflow => s.setPc h (.main .fault)
  | .clear =>
    some { s.setPc h (.main .askHart) with
      msip := clintClearSoft s.msip h
      mie := Function.update s.mie h (s.mie h ||| MIP_MSIP) }
  | .askHart => (readline s.buf s.rx).map fun (r, rest) =>
    match r with
    | .line buf =>
      match targetHart N buf.first with
      | some k => { s.setPc h (.main (.askMsg k)) with buf := buf, rx := rest }
      | none => { s with buf := buf, rx := rest }
    | _ => s.setPc h (.main .fault)
  | .askMsg k => (readline s.buf s.rx).map fun (r, rest) =>
    match r with
    | .line buf =>
      match strlen buf.bytes with
      | some n => { s.setPc h (.main (.copy k 0 (n + 1))) with buf := buf, rx := rest }
      | none => s.setPc h (.main .fault)
    | _ => s.setPc h (.main .fault)
  | .copy k j n =>
    if j < n then
      some <| match s.buf.load j with
        | some b => { s.setPc h (.main (.copy k (j + 1) n)) with smp := Function.update s.smp j b }
        | none => s.setPc h (.main .fault)
    else some (s.setPc h (.main (.send k)))
  | .send k =>
    some (({ s with msip := clintSendSoft s.msip k }.setPc h (.main (.wait k .check))).emit
      (.send k (cstr s.buf.bytes)))
  | .wait k w =>
    waitIpi s h (fun w => .main (.wait k w)) (fun s => (s.setPc h (.main .askHart)).emit .wake) w
  | .fault => none

/-- **`other_main`**, one step of the secondary `h` at `o`. -/
def otherStep (s : State N) (h : Fin N) : OtherPc → Option (State N)
  | .clear =>
    some { s.setPc h (.other (.wait .check)) with
      msip := clintClearSoft s.msip h
      mie := Function.update s.mie h (s.mie h ||| MIP_MSIP) }
  | .wait w =>
    waitIpi s h (fun w => .other (.wait w)) (fun s => (s.setPc h (.other (.print []))).emit (.take h)) w
  | .print out =>
    if s.smp out.length = 0 then some ((s.setPc h (.other .reply)).emit (.print h out))
    else some (s.setPc h (.other (.print (out ++ [s.smp out.length]))))
  | .reply =>
    some (({ s with msip := clintSendSoft s.msip ZERO_HART }.setPc h (.other (.wait .check))).emit
      (.reply h))

/-- **One step of hart `h`**; `none` where it cannot move. -/
def step (s : State N) (h : Fin N) : Option (State N) :=
  match s.pc h with
  | .boot .done => some (s.setPc h (entry h))
  | .boot _ => (Barrier.step s.toBarrier h).map fun b =>
    { s with pc := Function.update s.pc h (.boot (b.pc h)), mie := b.mie, msip := b.msip }
  | .main m => mainStep s h m
  | .other o => otherStep s h o

/-! ### What a step is, by the kind of place -/

variable {s : State N} {h : Fin N}

theorem step_launch (hpc : s.pc h = .boot .done) : step s h = some (s.setPc h (entry h)) := by
  rw [step, hpc]

theorem step_boot {p : Barrier.Pc N} (hpc : s.pc h = .boot p) (hp : p ≠ .done) :
    step s h = (Barrier.step s.toBarrier h).map fun b =>
      { s with pc := Function.update s.pc h (.boot (b.pc h)), mie := b.mie, msip := b.msip } := by
  rw [step, hpc]
  cases p <;> first | exact absurd rfl hp | rfl

theorem step_main {m : MainPc N} (hpc : s.pc h = .main m) : step s h = mainStep s h m := by
  rw [step, hpc]

theorem step_other {o : OtherPc} (hpc : s.pc h = .other o) : step s h = otherStep s h o := by
  rw [step, hpc]

/-- A barrier step read back through the projection is the barrier's own step. -/
theorem toBarrier_boot_step {b : Barrier.State N} (hb : Barrier.step s.toBarrier h = some b) :
    ({ s with pc := Function.update s.pc h (.boot (b.pc h)), mie := b.mie, msip := b.msip } :
      State N).toBarrier = b := by
  obtain ⟨pc, mie, msip⟩ := b
  simp only [State.toBarrier, Barrier.State.mk.injEq, and_true]
  funext j
  by_cases hj : j = h
  · subst hj; simp
  · simpa [Function.update_noteq hj] using (Barrier.step_pc_ne hb hj).symm

/-- The states some interleaving of the harts' steps reaches, for some console input. -/
inductive Reachable : State N → Prop
  | init (mie : Fin N → UInt64) (smp : Nat → UInt8) (buf : Buf) (rx : List UInt32) :
    Reachable (State.init mie smp buf rx)
  | step {s s' : State N} (h : Fin N) : Reachable s → step s h = some s' → Reachable s'

/-- The state after the harts of `sched` take one step each, in order. -/
def run (s : State N) : List (Fin N) → Option (State N)
  | [] => some s
  | h :: sched => (step s h).bind fun s' => run s' sched

theorem Reachable.run {s s' : State N} {sched : List (Fin N)} (hs : Reachable s)
    (hrun : System.run s sched = some s') : Reachable s' := by
  induction sched generalizing s with
  | nil => cases hrun; exact hs
  | cons h sched ih =>
    obtain ⟨s₁, hstep, hrest⟩ := Option.bind_eq_some.mp hrun
    exact ih (hs.step h hstep) hrest

theorem run_append (s : State N) (a b : List (Fin N)) :
    run s (a ++ b) = (run s a).bind fun t => run t b := by
  induction a generalizing s with
  | nil => rfl
  | cons h a ih =>
    show ((step s h).bind fun s' => run s' (a ++ b)) = _
    simp only [ih, run, Option.bind_assoc]

/-! ### What a step leaves alone -/

/-- The msip word hart `h`'s next step at a place stores into, if it stores into one. -/
def HartPc.msipStore (h : Fin N) : HartPc N → Option (Fin N)
  | .boot (.broadcast i) => some i
  | .boot .ack => some h
  | .main .clear | .main (.wait _ .clear) | .other .clear | .other (.wait .clear) => some h
  | .main (.send k) => some k
  | .other .reply => some ZERO_HART
  | _ => none

omit [NeZero N] in
/-- The loop of `wait_ipi` only moves the hart. -/
theorem waitIpi_loop {s' : State N} {w : WaitPc} {inside : WaitPc → HartPc N}
    {ret : State N → State N} (hstep : waitIpi s h inside ret w = some s') (notClear : w ≠ .clear) :
    ∃ w', s' = s.setPc h (inside w') := by
  cases w with
  | check => exact ⟨_, (Option.some.inj hstep).symm⟩
  | wfi =>
    simp only [waitIpi] at hstep
    split at hstep
    · exact ⟨_, (Option.some.inj hstep).symm⟩
    · cases hstep
  | clear => exact absurd rfl notClear

/-- **A step is local**: it moves no other hart, stores into no word but the one `msipStore`
names, and records at most one event, and that only at a place that `logs`. -/
theorem step_frame {s' : State N} (hstep : step s h = some s') :
    (∀ j ≠ h, s'.pc j = s.pc j) ∧
      (∀ j, (s.pc h).msipStore h ≠ some j → s'.msip j = s.msip j) ∧
      (s'.log = s.log ∨ ∃ e, s'.log = s.log ++ [e] ∧ (s.pc h).logs) := by
  have moved : ∀ {p : HartPc N}, ∀ j ≠ h, (s.setPc h p).pc j = s.pc j := fun j hj => by
    simp [Function.update_noteq hj]
  have store : ∀ {i j : Fin N} (v : UInt32), some i ≠ some j → writeMsip s.msip i v j = s.msip j :=
    fun v other => writeMsip_ne s.msip v (by rintro rfl; exact other rfl)
  cases hpc : s.pc h with
  | boot p =>
    by_cases done : p = .done
    · subst done; rw [step_launch hpc] at hstep; cases hstep
      exact ⟨moved, fun _ _ => rfl, Or.inl rfl⟩
    · rw [step_boot hpc done] at hstep
      obtain ⟨b, hb, rfl⟩ := Option.map_eq_some'.mp hstep
      refine ⟨fun j hj => by simp [Function.update_noteq hj], fun j other => ?_, Or.inl rfl⟩
      rcases Barrier.step_msip hb with ⟨-, same⟩ | ⟨i, bc, stored⟩ | ⟨ack, stored⟩
      · simp [same]
      · obtain rfl : p = .broadcast i := by simpa [hpc] using bc
        simpa [stored] using store 1 other
      · obtain rfl : p = .ack := by simpa [hpc] using ack
        simpa [stored] using store 0 other
  | main m =>
    rw [step_main hpc] at hstep
    cases m with
    | console | askHart | askMsg k =>
      obtain ⟨⟨r, rest⟩, -, rfl⟩ := Option.map_eq_some'.mp hstep
      refine ⟨fun j hj => ?_, fun j _ => ?_, .inl ?_⟩ <;> dsimp only <;> repeat' split
      all_goals first | rfl | exact moved j hj
    | copy k i n =>
      simp only [mainStep] at hstep
      split at hstep <;> cases hstep
      · split <;> exact ⟨moved, fun _ _ => rfl, Or.inl rfl⟩
      · exact ⟨moved, fun _ _ => rfl, Or.inl rfl⟩
    | clear => cases hstep; exact ⟨moved, fun _ other => store 0 other, Or.inl rfl⟩
    | send k => cases hstep; exact ⟨moved, fun _ other => store 1 other, .inr ⟨_, rfl, rfl⟩⟩
    | wait k w =>
      cases w with
      | clear => cases hstep; exact ⟨moved, fun _ other => store 0 other, .inr ⟨_, rfl, rfl⟩⟩
      | _ =>
        simp only [mainStep] at hstep
        obtain ⟨w', rfl⟩ := waitIpi_loop hstep (by decide)
        exact ⟨moved, fun _ _ => rfl, Or.inl rfl⟩
    | fault => cases hstep
  | other o =>
    rw [step_other hpc] at hstep
    cases o with
    | clear => cases hstep; exact ⟨moved, fun _ other => store 0 other, Or.inl rfl⟩
    | wait w =>
      cases w with
      | clear => cases hstep; exact ⟨moved, fun _ other => store 0 other, .inr ⟨_, rfl, rfl⟩⟩
      | _ =>
        simp only [otherStep] at hstep
        obtain ⟨w', rfl⟩ := waitIpi_loop hstep (by decide)
        exact ⟨moved, fun _ _ => rfl, Or.inl rfl⟩
    | print out =>
      simp only [otherStep] at hstep
      split at hstep <;> cases hstep
      exacts [⟨moved, fun _ _ => rfl, .inr ⟨_, rfl, rfl⟩⟩, ⟨moved, fun _ _ => rfl, .inl rfl⟩]
    | reply => cases hstep; exact ⟨moved, fun _ other => store 1 other, .inr ⟨_, rfl, rfl⟩⟩

end Step

end TCoreSbi.System
