import TCoreSbi.System.Integrity

/-!
# Lost software interrupts after the barrier

The barrier guarantees that every hart has acknowledged its wake before any hart leaves it; it
does not make a secondary wait for anything once it has.  A secondary then still has to run
`other_main` up to its startup `clint_clear_soft(hartid)`, and `test_ipi` may raise that
secondary's word before it does:

* if the secondary is still in the sweep of `smp_resume`, at or before its own word, it comes to
  the raised word and spins on it, and so does every secondary still sweeping; only the
  secondary itself could clear the word;
* if it is past its own word, its startup clear stores `0` over the raise, and it waits in
  `wait_ipi` for a raise that will not come.

Either way the primary waits in `wait_ipi(ZERO_HART)` for a reply that never comes.
`lost_ipi_deadlock` runs both cases on five harts, to states that no run ever leaves.
Nothing in the code orders the raise after the secondary's startup: the firmware relies on the
primary being slow, a person typing a hart id and a line at the console.

`handoff_no_lost_ipi` states what does hold on the interleavings in which `test_ipi` raises a
hart's word only once that hart has run its startup clear (`ReachableReady`): the raise stays
visible until that hart's `wait_ipi` clears it; while the primary waits, no store but that clear
goes to the word; and while the primary waits with its own word at `0`, the target can move.

## Design notes

* **What a step touches.**  `step_frame` says that a step changes no other hart's place, no
  word but the one `HartPc.msipStore` names, and the log only at a place that `HartPc.logs`;
  the argument below is about which places those are while a message is in flight.
* **`Heard`** is what the ready interleavings keep beyond `Inv`: the hart a message is for is
  `listening`, past its startup clear, and a message sent and not yet taken is still signalled
  in its word.
-/

namespace TCoreSbi.System

open Mailbox

section Places

variable {N : Nat}

/-- Past `other_main`'s startup clear: in its loop. -/
def HartPc.listening : HartPc N → Bool
  | .other (.wait _) | .other (.print _) | .other .reply => true
  | _ => false

end Places

variable {N : Nat} [NeZero N]

/-- A listening secondary stores into its own word only at the clear that ends `wait_ipi`. -/
theorem listening_store {p : HartPc N} {k : Fin N} (hl : p.listening) (hk : k ≠ ZERO_HART)
    (store : p.msipStore k = some k) : p = .other (.wait .clear) := by
  rcases p with _ | _ | (_ | (_ | _ | _) | _ | _) <;>
    simp only [HartPc.listening, HartPc.msipStore, reduceCtorEq] at hl store ⊢
  exact absurd (Option.some.inj store).symm hk

variable {s s' : State N} {h : Fin N}

/-- A listening secondary's own steps keep it in `other_main`'s loop. -/
theorem step_listening (hstep : step s h = some s') (hl : (s.pc h).listening) :
    (s'.pc h).listening := by
  cases hpc : s.pc h with
  | other o =>
    rw [step_other hpc] at hstep
    cases o with
    | clear => rw [hpc] at hl; cases hl
    | wait w =>
      cases w with
      | clear => cases hstep; simp [HartPc.listening]
      | _ =>
        simp only [otherStep] at hstep
        obtain ⟨w', rfl⟩ := waitIpi_loop hstep (by decide)
        simp [HartPc.listening]
    | print out =>
      simp only [otherStep] at hstep
      split at hstep <;> cases hstep <;> simp [HartPc.listening]
    | reply => cases hstep; simp [HartPc.listening]
  | _ => rw [hpc] at hl; cases hl

/-- A listening secondary can always move, unless it sleeps in `wfi` with its word at `0`. -/
theorem Inv.listening_moves (inv : Inv s) (hl : (s.pc h).listening)
    (set : s.pc h = .other (.wait .wfi) → s.msip h ≠ 0) :
    ∃ s', System.step s h = some s' ∧ s'.pc h ≠ s.pc h := by
  cases hpc : s.pc h with
  | other o =>
    rw [step_other hpc]
    cases o with
    | clear => rw [hpc] at hl; cases hl
    | wait w =>
      cases w with
      | check => exact ⟨_, rfl, by simp; split <;> simp⟩
      | wfi =>
        have mie : s.mie h = MIP_MSIP := inv.core.mie_eq h (by simp [hpc])
        have wake : mip s.msip h &&& s.mie h ≠ 0 := by simpa [mie] using set hpc
        exact ⟨_, if_pos wake, by simp⟩
      | clear => exact ⟨_, rfl, by simp⟩
    | print out =>
      simp only [otherStep]
      split
      · exact ⟨_, rfl, by simp⟩
      · exact ⟨_, rfl, by simp⟩
    | reply => exact ⟨_, rfl, by simp⟩
  | _ => rw [hpc] at hl; cases hl

/-! ## The lost raise -/

/-- A hart in the sweep polling a set word spins: its step leaves the whole state as it was. -/
theorem step_sweep_spin {i : Fin N} (hpc : s.pc h = .boot (.sweep i)) (set : s.msip i ≠ 0) :
    step s h = some s := by
  rw [step_boot hpc nofun]
  simp only [Barrier.step, toBarrier_pc, hpc, barrierPc_boot, toBarrier_msip, ne_eq, set,
    not_false_eq_true, if_true, Option.map_some', Option.some.injEq]
  rw [show HartPc.boot (Barrier.Pc.sweep i) = s.pc h from hpc.symm, Function.update_eq_self]
  rfl

/-- A state every step of which is refused or a spin is never left. -/
theorem run_stuck (stuck : ∀ h, step s h = none ∨ step s h = some s) {sched : List (Fin N)}
    {t : State N} (hrun : run s sched = some t) : t = s := by
  induction sched with
  | nil => exact (Option.some.inj hrun).symm
  | cons h sched ih =>
    rcases stuck h with refused | spin
    · simp [run, refused] at hrun
    · simp only [run, spin, Option.some_bind] at hrun; exact ih hrun

/-- The barrier up to the primary leaving `smp_resume`, every secondary at the start of its
sweep; then the primary reads an empty line, the hart id `1` and the line `hi`, copies the line,
raises hart `1`'s word and sleeps in `wait_ipi`; then each secondary's sweep passes word `0` and
comes to word `1`. -/
def sweepSchedule : List (Fin MAX_HARTS) :=
  bootSchedule.take 30 ++ List.replicate 11 0 ++ [1, 2, 3, 4]

/-- The barrier, then the primary runs ahead as in `sweepSchedule`; only then do harts `1` to `4`
leave `smp_resume`, clear their words and sleep in `wait_ipi`. -/
def lostSchedule : List (Fin MAX_HARTS) :=
  bootSchedule ++ List.replicate 11 0 ++ [1, 1, 1, 2, 2, 2, 3, 3, 3, 4, 4, 4]

set_option maxRecDepth 8000 in
private theorem lost_ends :
    ∃ s ∈ run (State.init (fun _ => 0) (fun _ => 0) Buf.zeros roundInput : State MAX_HARTS)
      lostSchedule,
      s.log = [.send 1 [104, 105]] ∧ s.pc ZERO_HART = .main (.wait 1 .wfi) ∧
      s.msip ZERO_HART = 0 ∧ s.pc 1 = .other (.wait .wfi) ∧ s.msip 1 = 0 ∧
      ∀ h, (step s h).isNone := by decide

set_option maxRecDepth 8000 in
private theorem sweep_ends :
    ∃ s ∈ run (State.init (fun _ => 0) (fun _ => 0) Buf.zeros roundInput : State MAX_HARTS)
      sweepSchedule,
      s.log = [.send 1 [104, 105]] ∧ s.pc ZERO_HART = .main (.wait 1 .wfi) ∧
      s.msip ZERO_HART = 0 ∧ s.msip 1 ≠ 0 ∧ (step s ZERO_HART).isNone ∧
      ∀ h, h ≠ ZERO_HART → s.pc h = .boot (.sweep 1) := by decide

/-- **The raise is lost.**  On five harts, with the console input of the full round, `test_ipi`
sends `hi` to hart `1` and sleeps in `wait_ipi(ZERO_HART)` with its word at `0` in two reachable
states that no run ever leaves: in the first, hart `1`'s startup clear has erased the raise and
it sleeps in `wait_ipi` with its word at `0`; in the second, hart `1` (and every other
secondary) spins in the sweep of `smp_resume` on hart `1`'s raised word. -/
theorem lost_ipi_deadlock :
    (∃ s : State MAX_HARTS, Reachable s ∧ s.log = [.send 1 [104, 105]] ∧
      s.pc ZERO_HART = .main (.wait 1 .wfi) ∧ s.msip ZERO_HART = 0 ∧
      s.pc 1 = .other (.wait .wfi) ∧ s.msip 1 = 0 ∧ ∀ sched t, run s sched = some t → t = s) ∧
    ∃ s : State MAX_HARTS, Reachable s ∧ s.log = [.send 1 [104, 105]] ∧
      s.pc ZERO_HART = .main (.wait 1 .wfi) ∧ s.msip ZERO_HART = 0 ∧
      s.pc 1 = .boot (.sweep 1) ∧ s.msip 1 ≠ 0 ∧ ∀ sched t, run s sched = some t → t = s := by
  constructor
  · obtain ⟨s, ran, log, pc0, msip0, pc1, msip1, blocked⟩ := lost_ends
    exact ⟨s, (Reachable.init _ _ _ _).run ran, log, pc0, msip0, pc1, msip1,
      fun _ _ => run_stuck fun h => .inl (Option.isNone_iff_eq_none.mp (blocked h))⟩
  · obtain ⟨s, ran, log, pc0, msip0, set, blocked, spinning⟩ := sweep_ends
    refine ⟨s, (Reachable.init _ _ _ _).run ran, log, pc0, msip0, spinning 1 (by decide), set,
      fun _ _ => run_stuck fun h => ?_⟩
    by_cases h0 : h = ZERO_HART
    · exact .inl (h0 ▸ Option.isNone_iff_eq_none.mp blocked)
    · exact .inr (step_sweep_spin (spinning h h0) set)

/-! ## The ready interleavings -/

/-- Hart `h` may take its step: if it is the primary at `clint_send_soft(k)`, then hart `k` has
run `other_main`'s startup clear. -/
def ready (s : State N) (h : Fin N) : Bool :=
  match s.pc h with
  | .main (.send k) => (s.pc k).listening
  | _ => true

/-- The states reached on interleavings in which `test_ipi` raises a hart's word only once that
hart has run its startup clear. -/
inductive ReachableReady : State N → Prop
  | init (mie : Fin N → UInt64) (smp : Nat → UInt8) (buf : Buf) (rx : List UInt32) :
    ReachableReady (State.init mie smp buf rx)
  | step {s s' : State N} (h : Fin N) : ReachableReady s → ready s h → step s h = some s' →
    ReachableReady s'

theorem ReachableReady.reachable (hs : ReachableReady s) : Reachable s := by
  induction hs with
  | init mie smp buf rx => exact .init mie smp buf rx
  | step h _ _ hstep ih => exact ih.step h hstep

/-- The state after the harts of `sched` take one step each, in order, each step ready. -/
def runReady (s : State N) : List (Fin N) → Option (State N)
  | [] => some s
  | h :: sched => if ready s h then (step s h).bind fun s' => runReady s' sched else none

theorem ReachableReady.runReady {sched : List (Fin N)} (hs : ReachableReady s)
    (hrun : System.runReady s sched = some s') : ReachableReady s' := by
  induction sched generalizing s with
  | nil => cases hrun; exact hs
  | cons h sched ih =>
    simp only [System.runReady] at hrun
    split at hrun
    · obtain ⟨s₁, hstep, hrest⟩ := Option.bind_eq_some.mp hrun
      exact ih (hs.step h ‹_› hstep) hrest
    · cases hrun

/-! ## What the ready interleavings keep -/

/-- While the primary waits on `k`, only `k` stores into `k`'s word. -/
theorem Inv.store_busy (inv : Inv s) {c : Chan N} {k : Fin N}
    (hc : Chan.idle.run s.log = some c) (busy : partner c = some k)
    (store : (s.pc h).msipStore h = some k) : h = k := by
  obtain ⟨c₀, hc₀, prim, sec⟩ := inv.chan
  obtain rfl : c₀ = c := Option.some.inj (hc₀.symm.trans hc)
  obtain ⟨hk, w, hw⟩ := primaryOk_awaits prim busy
  by_contra hne
  by_cases h0 : h = ZERO_HART
  · subst h0
    rw [hw] at store
    cases w <;> simp only [HartPc.msipStore, reduceCtorEq, Option.some.injEq] at store
    exact hk store.symm
  · obtain ⟨calm, -⟩ := (secondaryOk_ne busy hne).mp (sec h h0)
    have acked := inv.acked (h := ZERO_HART) (by rw [hw]; rfl) h
    rcases hpc : s.pc h with p | _ | (_ | (_ | _ | _) | _ | _) <;> rw [hpc] at calm store acked
    · cases p <;> simp_all [HartPc.msipStore, Barrier.Pc.acked]
    all_goals simp_all [HartPc.msipStore, HartPc.calm]

/-- **What the ready interleavings keep.**  The hart a message is for has run its startup
clear, and a message sent and not yet taken is still signalled in that hart's word. -/
def Heard (s : State N) : Prop :=
  ∀ c, Chan.idle.run s.log = some c → ∀ k, partner c = some k →
    (s.pc k).listening ∧ ∀ m, c = .sent k m → s.msip k ≠ 0

theorem heard_init (mie : Fin N → UInt64) (smp : Nat → UInt8) (buf : Buf) (rx : List UInt32) :
    Heard (State.init mie smp buf rx) := by
  rintro c ⟨⟩ k ⟨⟩

/-- A step that records no event keeps `Heard`: the target's own steps keep it listening and
store nothing into its word before its clear records the take. -/
theorem Heard.quiet (heard : Heard s) (inv : Inv s) (hstep : step s h = some s')
    (quiet : (s.pc h).logs = false) : Heard s' := by
  obtain ⟨pc_ne, msip_ne, log⟩ := step_frame hstep
  have log_eq : s'.log = s.log := log.resolve_right fun ⟨_, _, loud⟩ => by
    rw [quiet] at loud; cases loud
  intro c hc k busy
  rw [log_eq] at hc
  obtain ⟨lis, sig⟩ := heard c hc k busy
  refine ⟨?_, fun m sent => ?_⟩
  · by_cases hk : k = h
    · subst hk; exact step_listening hstep lis
    · rw [pc_ne k hk]; exact lis
  · rw [msip_ne k fun store => ?_]
    · exact sig m sent
    obtain rfl := inv.store_busy hc busy store
    obtain ⟨c₀, hc₀, prim, -⟩ := inv.chan
    obtain rfl : c₀ = c := Option.some.inj (hc₀.symm.trans hc)
    rw [listening_store lis (primaryOk_awaits prim busy).1 store] at quiet
    cases quiet

/-- The events a secondary records leave the message with it, and it listening. -/
theorem heard_secondary {e : Event N} {c : Chan N}
    (hc : Chan.idle.run s.log = some c) (log : s'.log = s.log ++ [e])
    (after : ∀ d, c.step e = some d → partner d = some h ∧ ∀ m, d ≠ .sent h m)
    (lis : (s'.pc h).listening) : Heard s' := by
  intro d hd k busyk
  rw [log, Chan.run_append_of_run hc] at hd
  obtain ⟨busy, notSent⟩ := after d hd
  obtain rfl : h = k := Option.some.inj (busy.symm.trans busyk)
  exact ⟨lis, fun m sent => absurd sent (notSent m)⟩

/-- **Each ready step keeps `Heard`.** -/
theorem Heard.step (heard : Heard s) (inv : Inv s) (rdy : ready s h)
    (hstep : step s h = some s') : Heard s' := by
  cases quiet : (s.pc h).logs
  · exact heard.quiet inv hstep quiet
  obtain ⟨c, hc, -, sec⟩ := inv.chan
  have moved := (step_frame hstep).1
  cases hpc : s.pc h with
  | boot p => rw [hpc] at quiet; cases quiet
  | main m =>
    rw [step_main hpc] at hstep
    cases m with
    | send k =>
      -- The raise: ready says `k` listens, and the send stores `1` into its word.
      obtain ⟨rfl, hidle, ⟨hk, -⟩, -⟩ := inv.idle_main hpc rfl
      have lis : (s.pc k).listening := by simpa [ready, hpc] using rdy
      cases hstep
      intro c' hc' j busy
      simp only [State.emit_log, State.setPc_log] at hc'
      rw [Chan.run_append_of_run hidle] at hc'
      simp only [Chan.step, ne_eq, hk, not_false_eq_true, if_true, Option.some.injEq] at hc'
      subst hc'
      cases busy
      refine ⟨by rwa [moved k hk], fun _ _ => by simp [clintSendSoft]⟩
    | wait k w =>
      cases w with
      | clear =>
        -- The primary's return: the channel is idle again.
        cases hstep
        intro c' hc' j busy
        simp only [State.emit_log, State.setPc_log] at hc'
        rw [Chan.run_append_of_run hc] at hc'
        cases c <;> simp only [Chan.step, reduceCtorEq, Option.some.injEq] at hc'
        subst hc'
        cases busy
      | _ => rw [hpc] at quiet; cases quiet
    | _ => rw [hpc] at quiet; cases quiet
  | other o =>
    have hz : h ≠ ZERO_HART := by simpa [hpc, HartPc.RoleOk] using inv.roles h
    have lis := step_listening hstep (by rw [hpc] at quiet ⊢; cases o <;> first | rfl | cases quiet)
    rw [step_other hpc] at hstep
    cases o with
    | wait w =>
      cases w with
      | clear =>
        -- The take.
        obtain ⟨m, rfl⟩ := secondaryOk_clearing (by simpa [hpc] using sec h hz)
        cases hstep
        refine heard_secondary hc rfl (fun d next => ?_) lis
        simp only [Chan.step, if_true, Option.some.injEq] at next
        exact next ▸ ⟨rfl, nofun⟩
      | _ => rw [hpc] at quiet; cases quiet
    | print out =>
      obtain ⟨m, rfl, -, -⟩ := secondaryOk_print (by simpa [hpc] using sec h hz)
      simp only [otherStep] at hstep
      split at hstep <;> cases hstep
      · -- At the NUL: the print.
        refine heard_secondary hc rfl (fun d next => ?_) lis
        simp only [Chan.step, true_and, Option.ite_none_right_eq_some] at next
        exact Option.some.inj next.2 ▸ ⟨rfl, nofun⟩
      · -- One more byte: the log does not move.
        exact fun c' hc' k busy => by
          rw [State.setPc_log, hc] at hc'; cases hc'
          obtain rfl : h = k := Option.some.inj busy
          exact ⟨lis, nofun⟩
    | reply =>
      obtain ⟨rfl, -⟩ := secondaryOk_reply (by simpa [hpc] using sec h hz)
      cases hstep
      refine heard_secondary hc rfl (fun d next => ?_) lis
      simp only [Chan.step, if_true, Option.some.injEq] at next
      exact next ▸ ⟨rfl, nofun⟩
    | clear => rw [hpc] at quiet; cases quiet

theorem ReachableReady.heard (hs : ReachableReady s) : Heard s := by
  induction hs with
  | init mie smp buf rx => exact heard_init mie smp buf rx
  | step h hs rdy hstep ih => exact ih.step hs.reachable.inv rdy hstep

/-! ## No lost raise on the ready interleavings -/

/-- **No lost raise on the ready interleavings.**  When `test_ipi` raises a hart's word only once
that hart has run its startup clear: a message sent and not yet taken is still signalled in its
target's word, and the target is in `other_main`'s loop; while the primary waits in
`wait_ipi(ZERO_HART)` after its send to `k`, the only store into `k`'s word is the clear of `k`'s
own `wait_ipi`, made after it has seen the word set; and while the primary waits with its own word
at `0`, hart `k` can take a step that moves it on. -/
theorem handoff_no_lost_ipi (s : State N) (hs : ReachableReady s) :
    (∀ k m, Chan.idle.run s.log = some (.sent k m) → s.msip k ≠ 0 ∧ (s.pc k).listening) ∧
      (∀ k w, s.pc ZERO_HART = .main (.wait k w) → ∀ h, (s.pc h).msipStore h = some k →
        h = k ∧ s.pc k = .other (.wait .clear) ∧ s.msip k ≠ 0) ∧
      ∀ k w, s.pc ZERO_HART = .main (.wait k w) → s.msip ZERO_HART = 0 →
        ∃ s', step s k = some s' ∧ s'.pc k ≠ s.pc k := by
  have inv := hs.reachable.inv
  have heard := hs.heard
  obtain ⟨c, hc, prim, sec⟩ := inv.chan
  refine ⟨fun k m sent => ?_, fun k w hw h store => ?_, fun k w hw zero => ?_⟩
  · obtain ⟨lis, sig⟩ := heard _ sent k rfl
    exact ⟨sig m rfl, lis⟩
  · have busy := primaryOk_busy prim hw
    obtain rfl := inv.store_busy hc busy store
    have clear := listening_store (heard c hc h busy).1 (primaryOk_awaits prim busy).1 store
    exact ⟨rfl, clear, inv.clearing h (by rw [clear]; rfl)⟩
  · -- The target is listening; only asleep in `wfi` with its word at `0` could it be stuck,
    -- and no phase of the handoff leaves it so while the primary's word is `0`.
    have busy := primaryOk_busy prim hw
    obtain ⟨lis, sig⟩ := heard c hc k busy
    have ok := (secondaryOk_partner busy).mp (sec k (primaryOk_awaits prim busy).1)
    refine inv.listening_moves lis fun asleep => ?_
    cases c with
    | idle => cases busy
    | sent j m => cases busy; exact sig m rfl
    | taken j m => obtain ⟨-, out, hp, -⟩ := ok; rw [asleep] at hp; cases hp
    | printed j => rw [asleep] at ok; cases ok.2
    | replied j => exact absurd zero prim.2

/-- The barrier, then hart `1` starts `other_main` and sleeps in `wait_ipi`, and only then does the
primary read the hart id `1` and the line `hi`, copy it and raise hart `1`'s word. -/
def readySchedule : List (Fin MAX_HARTS) := bootSchedule ++ [1, 1, 1] ++ List.replicate 10 0

set_option maxRecDepth 8000 in
theorem readySchedule_runs :
    (runReady (State.init (fun _ => 0) (fun _ => 0) Buf.zeros roundInput : State MAX_HARTS)
      readySchedule).isSome := by decide

/-- The state `readySchedule` reaches. -/
def raisedState : State MAX_HARTS :=
  (runReady (State.init (fun _ => 0) (fun _ => 0) Buf.zeros roundInput) readySchedule).get
    readySchedule_runs

theorem raisedState_reachable : ReachableReady raisedState :=
  (ReachableReady.init _ _ _ _).runReady (Option.some_get readySchedule_runs).symm

set_option maxRecDepth 8000 in
/-- In `raisedState`, `hi` is sent to hart `1` and not yet taken, and the primary waits with its
word at `0`. -/
theorem raisedState_sent :
    Chan.idle.run raisedState.log = some (.sent 1 [104, 105]) ∧
      raisedState.pc ZERO_HART = .main (.wait 1 .check) ∧ raisedState.msip ZERO_HART = 0 := by
  decide

/-- On a ready interleaving, the line `hi` sent to hart `1` and not yet taken, with the primary
waiting and its word at `0`: every part of the statement has something to say there. -/
theorem handoff_raised_ready :
    ∃ s : State MAX_HARTS, ReachableReady s ∧
      Chan.idle.run s.log = some (.sent 1 [104, 105]) ∧
      s.pc ZERO_HART = .main (.wait 1 .check) ∧ s.msip ZERO_HART = 0 ∧
      ((∀ k m, Chan.idle.run s.log = some (.sent k m) → s.msip k ≠ 0 ∧ (s.pc k).listening) ∧
        (∀ k w, s.pc ZERO_HART = .main (.wait k w) → ∀ h, (s.pc h).msipStore h = some k →
          h = k ∧ s.pc k = .other (.wait .clear) ∧ s.msip k ≠ 0) ∧
        ∀ k w, s.pc ZERO_HART = .main (.wait k w) → s.msip ZERO_HART = 0 →
          ∃ s', step s k = some s' ∧ s'.pc k ≠ s.pc k) :=
  have ⟨sent, pc0, msip0⟩ := raisedState_sent
  ⟨_, raisedState_reachable, sent, pc0, msip0, handoff_no_lost_ipi _ raisedState_reachable⟩

end TCoreSbi.System
