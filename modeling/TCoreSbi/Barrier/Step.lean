import TCoreSbi.Platform

/-!
# The boot barrier: `smp_pause` and `smp_resume` as a step relation

Every hart runs `smp_pause` and then `smp_resume` (`include/smp.h`).  `smp_pause` unmasks the
software interrupt (`csrw mie, MIP_MSIP`) and sends every hart but `ZERO_HART` to label `42`;
`ZERO_HART` falls through into `smp_resume`'s broadcast loop, which stores `1` into every msip
word in increasing address order and then also reaches label `42`.  From there **every** hart,
the broadcaster included, waits with `wfi` until its own `MSIP` bit is set, stores zero into its
own word, and sweeps the whole array, waiting on each word until it reads `0`.

## The model

A hart's place in this code is a `Pc`: one constructor per instruction that touches shared
state or can block, the local instructions around it (`li`, `addi`, `slli`, the branches)
folded in.  `step s h` executes the next such instruction of hart `h`; it is `none` where the
hart cannot move: a `wfi` with no enabled interrupt pending (`wfi` blocks until
`(mip & mie) != 0`), or a hart that has left `smp_resume`.  The harts interleave arbitrarily:
`Reachable` closes the initial states, where every msip word is `0` and `mie` holds anything,
under steps of any hart.

On RISC-V `wfi` may also return early, with no interrupt pending, and `smp_resume`'s
`beqz reg2, 42b` then sends the hart back to `wfi`.  `step` leaves such returns out: its `wfi`
blocks, so that back edge is never taken here.  `TCoreSbi.Barrier.EarlyWfi` adds them and shows
that every state they reach is, read through `settle`, a reachable state of this model.

The hart count `N` is a parameter (`MAX_HARTS` is `5`); `ZERO_HART` is hart `0`.
-/

namespace TCoreSbi

namespace Barrier

/-- Where a hart is in `smp_pause; smp_resume`: the next instruction it executes that touches
shared state or can block. -/
inductive Pc (N : Nat)
  /-- `smp_pause`: `csrw mie`, then `bne` on `mhartid` to label `42`. -/
  | pause
  /-- The broadcast loop (the first label `41`), about to store `1` into hart `i`'s word. -/
  | broadcast (i : Fin N)
  /-- Label `42`: `wfi`. -/
  | wfi
  /-- `csrr reg2, mip; andi reg2, reg2, MIP_MSIP; beqz reg2, 42b`. -/
  | checkMip
  /-- `sw zero, 0(reg2)`: the store of zero into the hart's own word. -/
  | ack
  /-- The sweep (the second label `41`), about to load hart `i`'s word. -/
  | sweep (i : Fin N)
  /-- Past the final `blt`: the hart has left `smp_resume`. -/
  | done
  deriving DecidableEq

/-- The shared state the barrier reads and writes: each hart's place and `mie` CSR, and the
msip words. -/
structure State (N : Nat) where
  pc : Fin N → Pc N
  mie : Fin N → UInt64
  msip : Fin N → UInt32

section Step

variable {N : Nat} [NeZero N]

/-- The start of a run: every hart at `smp_pause`, every msip word `0`, `mie` as reset left
it. -/
def State.init (mie : Fin N → UInt64) : State N := ⟨fun _ => .pause, mie, fun _ => 0⟩

/-- **One step of hart `h`.** -/
def step (s : State N) (h : Fin N) : Option (State N) :=
  match s.pc h with
  | .pause =>
    some { s with
      mie := Function.update s.mie h MIP_MSIP
      pc := Function.update s.pc h (if h = ZERO_HART then .broadcast firstWord else .wfi) }
  | .broadcast i =>
    some { s with
      msip := writeMsip s.msip i 1
      pc := Function.update s.pc h ((nextHart i).elim .wfi .broadcast) }
  | .wfi =>
    if mip s.msip h &&& s.mie h ≠ 0 then some { s with pc := Function.update s.pc h .checkMip }
    else none
  | .checkMip =>
    some { s with
      pc := Function.update s.pc h (if mip s.msip h &&& MIP_MSIP = 0 then .wfi else .ack) }
  | .ack =>
    some { s with
      msip := writeMsip s.msip h 0
      pc := Function.update s.pc h (.sweep firstWord) }
  | .sweep i =>
    if s.msip i ≠ 0 then some s
    else some { s with pc := Function.update s.pc h ((nextHart i).elim .done .sweep) }
  | .done => none

/-- The states some interleaving of the harts' steps reaches from an initial state. -/
inductive Reachable : State N → Prop
  | init (mie : Fin N → UInt64) : Reachable (State.init mie)
  | step {s s' : State N} (h : Fin N) : Reachable s → step s h = some s' → Reachable s'

/-- The state after the harts of `sched` take one step each, in order; `none` as soon as one of
them cannot move. -/
def run (s : State N) : List (Fin N) → Option (State N)
  | [] => some s
  | h :: sched => (step s h).bind fun s' => run s' sched

theorem Reachable.run {s s' : State N} {sched : List (Fin N)} (hs : Reachable s)
    (hrun : run s sched = some s') : Reachable s' := by
  induction sched generalizing s with
  | nil => cases hrun; exact hs
  | cons h sched ih =>
    obtain ⟨s₁, hstep, hrest⟩ := Option.bind_eq_some.mp hrun
    exact ih (hs.step h hstep) hrest

theorem Reachable.run_get {s : State N} (hs : Reachable s) (sched : List (Fin N))
    (ran : (Barrier.run s sched).isSome) : Reachable ((Barrier.run s sched).get ran) :=
  hs.run (Option.some_get ran).symm

end Step

/-! ## What a place in the code says -/

namespace Pc

variable {N : Nat}

/-- Read at the broadcaster's place: whether hart `j`'s word has been stored `1`. -/
def raised : Pc N → Fin N → Bool
  | .pause, _ => false
  | .broadcast i, j => j < i
  | _, _ => true

/-- The hart has executed its store of zero into its own word. -/
def acked : Pc N → Bool
  | .sweep _ | .done => true
  | _ => false

/-- The hart has seen its own `MSIP` bit set. -/
def woken : Pc N → Bool
  | .ack | .sweep _ | .done => true
  | _ => false

/-- How many words, from hart `0` on, the hart's sweep has read as `0`. -/
def swept : Pc N → Nat
  | .sweep i => i.val
  | .done => N
  | _ => 0

theorem woken_of_acked {p : Pc N} (h : p.acked) : p.woken := by
  cases p <;> simp_all [acked, woken]

/-- Once the broadcaster has left the broadcast loop, every word has been raised. -/
theorem raised_of_woken {p : Pc N} (h : p.woken) (j : Fin N) : p.raised j := by
  cases p <;> simp_all [woken, raised]

/-- Words are raised in increasing order. -/
theorem raised_zero [NeZero N] {p : Pc N} {j : Fin N} (h : p.raised j) : p.raised firstWord := by
  cases p with
  | broadcast i =>
    simp only [raised, decide_eq_true_eq, Fin.lt_def, firstWord_val] at h ⊢
    omega
  | pause => simp [raised] at h
  | _ => rfl

end Pc

/-! ## The step, one place at a time -/

variable {N : Nat} [NeZero N] {s s' : State N} {h : Fin N}

theorem step_pc_ne (hstep : step s h = some s') {j : Fin N} (hj : j ≠ h) : s'.pc j = s.pc j := by
  unfold step at hstep
  split at hstep <;> (try split at hstep) <;> cases hstep <;> simp [Function.update_noteq hj]

theorem step_mie_ne (hstep : step s h = some s') {j : Fin N} (hj : j ≠ h) :
    s'.mie j = s.mie j := by
  unfold step at hstep
  split at hstep <;> (try split at hstep) <;> cases hstep <;> simp [Function.update_noteq hj]

/-- Only `smp_pause` writes `mie`. -/
theorem step_mie (hstep : step s h = some s') (past : s.pc h ≠ .pause) : s'.mie = s.mie := by
  unfold step at hstep
  split at hstep
  · contradiction
  all_goals (try split at hstep) <;> cases hstep <;> rfl

/-- The words change only by the broadcaster's store of `1` and a hart's store of zero into its
own word. -/
theorem step_msip (hstep : step s h = some s') :
    (s.pc h ≠ .ack ∧ s'.msip = s.msip) ∨
      (∃ i, s.pc h = .broadcast i ∧ s'.msip = writeMsip s.msip i 1) ∨
      (s.pc h = .ack ∧ s'.msip = writeMsip s.msip h 0) := by
  cases hpc : s.pc h with
  | broadcast i =>
    simp only [step, hpc, Option.some.injEq] at hstep; subst hstep
    exact .inr (.inl ⟨i, rfl, rfl⟩)
  | ack =>
    simp only [step, hpc, Option.some.injEq] at hstep; subst hstep
    exact .inr (.inr ⟨rfl, rfl⟩)
  | pause | checkMip =>
    simp only [step, hpc, Option.some.injEq] at hstep; subst hstep
    exact .inl ⟨nofun, rfl⟩
  | wfi | sweep _ =>
    simp only [step, hpc] at hstep
    split at hstep <;> cases hstep <;> exact .inl ⟨nofun, rfl⟩
  | done => simp [step, hpc] at hstep

/-- A step makes a hart acknowledged only by that hart's store of zero. -/
theorem step_acked (hstep : step s h = some s') {j : Fin N} (hj : (s'.pc j).acked) :
    (s.pc j).acked ∨ (j = h ∧ s.pc h = .ack) := by
  by_cases hjh : j = h
  · subst hjh
    cases hpc : s.pc j with
    | ack => exact Or.inr ⟨rfl, rfl⟩
    | sweep i => exact Or.inl rfl
    | done => exact Or.inl rfl
    | pause =>
      simp only [step, hpc, Option.some.injEq] at hstep; subst hstep
      revert hj; simp only [Function.update_same]; split <;> simp [Pc.acked]
    | broadcast i =>
      simp only [step, hpc, Option.some.injEq] at hstep; subst hstep
      revert hj; simp only [Function.update_same]; cases nextHart i <;> simp [Pc.acked]
    | wfi =>
      simp only [step, hpc] at hstep; split at hstep <;> cases hstep
      simp [Pc.acked] at hj
    | checkMip =>
      simp only [step, hpc, Option.some.injEq] at hstep; subst hstep
      revert hj; simp only [Function.update_same]; split <;> simp [Pc.acked]
  · exact Or.inl (by rwa [step_pc_ne hstep hjh] at hj)

end Barrier

end TCoreSbi
