import TCoreSbi.System.LostIpi
import TCoreSbi.Barrier.Progress

/-!
# The firmware boots, and every handoff can finish

For any number of harts, some interleaving takes every hart through the barrier into `main` or
`other_main` (`firmware_boots`): while every hart is in the barrier, a run of the barrier model of
`TCoreSbi.Barrier` is a run of the firmware (`run_of_barrier_run`), the barrier model has a run
that ends with every hart out of `smp_resume`, and then each hart enters its function.

On the ready interleavings of `TCoreSbi.System.LostIpi`, the target of a message can always take
a step that moves it on.  This module says where those steps lead: from any state of such an
interleaving in which the primary waits in `wait_ipi(ZERO_HART)` after its send to `k`, the
primary and hart `k` alone can run the rest of the handoff, and the primary's `wait_ipi` returns
to `test_ipi`'s loop for the next hart id (`handoff_completes`); from a send, the round they run
logs exactly the take, the print of the line sent, the reply and the wake
(`handoff_delivers`).

## Design notes

* **The barrier model runs inside the firmware.**  A hart in the barrier steps as
  `Barrier.step` on the projection `State.toBarrier`, so a barrier run lifts step by step as long
  as no hart has entered `main` or `other_main`; the lifted run ends where the barrier's does,
  and `Barrier.Clean` says every msip word is then `0`.
* **Backwards, one phase at a time.**  `Finishes k c s` says that some schedule of `k` and the
  primary takes `s` back to `test_ipi`'s prompt, logging exactly `c.rest`, the events that close
  the round in progress at `c`; `Finishes.back` extends such a schedule by one step at its
  front.  Each phase of the handoff (`Chan`) then gets one lemma, proved from the
  next phase's: the primary's return (`primary_finishes`), the reply (`printed_finishes`), the
  print loop of `uart_puts`, by induction on the bytes left (`taken_finishes`), and `wait_ipi` of
  the target (`sent_finishes`).
* **`Inv` at every state.**  The lemmas take `Reachable s` and read the channel's phase and the
  places from `Inv` at each state they reach, so no step is analysed twice.
-/

namespace TCoreSbi.System

open Mailbox

variable {N : Nat} [NeZero N] {s s' : State N} {h k : Fin N}

/-! ## The firmware boots -/

/-- **The barrier inside the firmware.**  While every hart is in the barrier, a run of the
barrier from the projection is a run of the firmware, with the same projection at its end. -/
theorem run_of_barrier_run {sched : List (Fin N)} {b : Barrier.State N}
    (booting : ∀ j, ∃ p, s.pc j = .boot p) (hb : Barrier.run s.toBarrier sched = some b) :
    ∃ t, run s sched = some t ∧ (∀ j, t.pc j = .boot (b.pc j)) ∧ t.msip = b.msip ∧
      t.log = s.log := by
  induction sched generalizing s with
  | nil =>
    cases hb
    refine ⟨s, rfl, fun j => ?_, rfl, rfl⟩
    obtain ⟨p, hp⟩ := booting j
    simp [hp]
  | cons h sched ih =>
    obtain ⟨b₁, hstep, hrest⟩ := Option.bind_eq_some.mp hb
    obtain ⟨p, hp⟩ := booting h
    have moving : p ≠ .done := by
      rintro rfl
      simp [Barrier.step, hp] at hstep
    have sys := step_boot hp moving
    rw [hstep, Option.map_some'] at sys
    obtain ⟨s₁, sys₁, pc₁, proj₁, log₁⟩ : ∃ s₁, step s h = some s₁ ∧
        s₁.pc = Function.update s.pc h (.boot (b₁.pc h)) ∧ s₁.toBarrier = b₁ ∧ s₁.log = s.log :=
      ⟨_, sys, rfl, toBarrier_boot_step hstep, rfl⟩
    have booting₁ : ∀ j, ∃ p, s₁.pc j = .boot p := fun j => by
      rw [pc₁]
      by_cases hj : j = h
      · subst hj; exact ⟨_, Function.update_same _ _ _⟩
      · rw [Function.update_noteq hj]; exact booting j
    obtain ⟨t, ran, pcs, msip, log⟩ := ih booting₁ (proj₁ ▸ hrest)
    exact ⟨t, by simp only [run, sys₁, Option.some_bind, ran], pcs, msip, log.trans log₁⟩

/-- Each hart of `l`, standing at the end of `smp_resume`, goes to its entry. -/
theorem run_launch {l : List (Fin N)} (nodup : l.Nodup) (done : ∀ j ∈ l, s.pc j = .boot .done) :
    ∃ t, run s l = some t ∧ (∀ j, t.pc j = if j ∈ l then entry j else s.pc j) ∧
      t.msip = s.msip ∧ t.log = s.log := by
  induction l generalizing s with
  | nil => exact ⟨s, rfl, fun j => by simp, rfl, rfl⟩
  | cons h l ih =>
    obtain ⟨notin, nodup'⟩ := List.nodup_cons.mp nodup
    have hstep := step_launch (done h (List.mem_cons_self _ _))
    obtain ⟨t, ran, pcs, msip, log⟩ := ih (s := s.setPc h (entry h)) nodup' fun j mem => by
      have hj : j ≠ h := fun e => notin (e ▸ mem)
      simp [Function.update_noteq hj, done j (List.mem_cons_of_mem _ mem)]
    refine ⟨t, by simp only [run, hstep, Option.some_bind, ran], fun j => ?_, msip, log⟩
    rw [pcs j]
    by_cases hj : j = h
    · subst hj; simp [notin]
    · simp [hj, Function.update_noteq hj]

/-- **The firmware boots.**  For any number of harts, any `mie` at reset, any mailbox contents,
`buf` and console input, some interleaving takes every hart through `smp_pause; smp_resume` to
its entry, `main` on `ZERO_HART` and `other_main` on every other hart, with every msip word `0`
and no mailbox event yet. -/
theorem firmware_boots (mie : Fin N → UInt64) (smp : Nat → UInt8) (buf : Buf) (rx : List UInt32) :
    ∃ sched t, run (State.init mie smp buf rx) sched = some t ∧ (∀ h, t.pc h = entry h) ∧
      (∀ h, t.msip h = 0) ∧ t.log = [] := by
  obtain ⟨sched, b, ran, done, -⟩ := Barrier.exists_finishing_run (Barrier.Reachable.init mie)
  have hb := (Barrier.Reachable.init mie).run ran
  obtain ⟨s, boot, pcs, msip, log⟩ :=
    run_of_barrier_run (s := State.init mie smp buf rx) (fun _ => ⟨_, rfl⟩) ran
  obtain ⟨t, launch, pcs', msip', log'⟩ :=
    run_launch (s := s) (List.nodup_finRange N) fun j _ => by rw [pcs j, done j]
  refine ⟨sched ++ List.finRange N, t, by rw [run_append _, boot, Option.some_bind, launch],
    fun h => by simpa using pcs' h, fun h => ?_, by rw [log', log]; rfl⟩
  rw [msip', msip]
  exact hb.clean h (hb.core.acked_of_done (done h) h)
/-- Five harts, from reset with the console input of the full round, enter `main` and
`other_main`. -/
theorem five_harts_boot :
    ∃ sched t, run (State.init (fun _ => 0) (fun _ => 0) Buf.zeros roundInput : State MAX_HARTS)
      sched = some t ∧ (∀ h, t.pc h = entry h) ∧ (∀ h, t.msip h = 0) ∧ t.log = [] :=
  firmware_boots _ _ _ _

/-! ## Every handoff can finish -/

/-- Hart `k` and the primary alone can take `s` back to `test_ipi`'s prompt for a hart id,
logging on the way exactly the rest `c.rest` of the round in progress at `c`. -/
def Finishes (k : Fin N) (c : Chan N) (s : State N) : Prop :=
  ∃ sched t, (∀ j ∈ sched, j = k ∨ j = ZERO_HART) ∧ run s sched = some t ∧
    t.pc ZERO_HART = .main .askHart ∧ t.log = s.log ++ c.rest

theorem Finishes.done (hpc : s.pc ZERO_HART = .main .askHart) : Finishes k .idle s :=
  ⟨[], s, nofun, rfl, hpc, (List.append_nil _).symm⟩

/-- A step of `k` or of the primary in front of a finishing schedule, logging what takes the
round from `d` to `c`. -/
theorem Finishes.back {c d : Chan N} (fin : Finishes k c s') (hstep : step s h = some s')
    (who : h = k ∨ h = ZERO_HART) (log : s'.log ++ c.rest = s.log ++ d.rest) :
    Finishes k d s := by
  obtain ⟨sched, t, only, ran, hpc, tlog⟩ := fin
  refine ⟨h :: sched, t, ?_, by simp only [run, hstep, Option.some_bind, ran], hpc,
    tlog.trans log⟩
  rintro j (_ | ⟨_, mem⟩)
  exacts [who, only j mem]

/-- A step that logs nothing, in front of a finishing schedule. -/
theorem Finishes.quiet {c : Chan N} (fin : Finishes k c s') (hstep : step s h = some s')
    (who : h = k ∨ h = ZERO_HART) (log : s'.log = s.log) : Finishes k c s :=
  fin.back hstep who (by rw [log])

/-- **The primary's return.**  With its word set, the primary's `wait_ipi` returns from any of
its places. -/
theorem primary_finishes (inv : Inv s) {w : WaitPc} (hw : s.pc ZERO_HART = .main (.wait k w))
    (set : s.msip ZERO_HART ≠ 0) : Finishes k (.replied k) s := by
  have clear : ∀ t : State N, t.pc ZERO_HART = .main (.wait k .clear) →
      Finishes k (.replied k) t :=
    fun t ht => (Finishes.done (by simp)).back (step_main ht) (.inr rfl) (by simp [Chan.rest])
  have check : ∀ t : State N, t.pc ZERO_HART = .main (.wait k .check) →
      t.msip ZERO_HART ≠ 0 → Finishes k (.replied k) t := fun t ht tset =>
    (clear (t.setPc ZERO_HART (.main (.wait k .clear))) (by simp)).quiet
      (by rw [step_main ht]; simp [mainStep, waitIpi, tset]) (.inr rfl) (by simp)
  cases w with
  | clear => exact clear s hw
  | check => exact check s hw set
  | wfi =>
    have mie : s.mie ZERO_HART = MIP_MSIP := inv.core.mie_eq ZERO_HART (by simp [hw])
    exact (check (s.setPc ZERO_HART (.main (.wait k .check))) (by simp) set).quiet
      (by rw [step_main hw]; simp [mainStep, waitIpi, mie, set]) (.inr rfl) (by simp)

/-- What `Inv` says of the primary and of hart `k` while a message is in phase `c` with `k`. -/
theorem Inv.busy (inv : Inv s) {c : Chan N} (hc : Chan.idle.run s.log = some c)
    (busy : partner c = some k) :
    primaryOk c s ∧ k ≠ ZERO_HART ∧ partnerOk c (s.pc k) (s.msip k) := by
  obtain ⟨c₀, hc₀, prim, sec⟩ := inv.chan
  obtain rfl : c = c₀ := Option.some.inj (hc.symm.trans hc₀)
  have hk := (primaryOk_awaits prim busy).1
  exact ⟨prim, hk, (secondaryOk_partner busy).mp (sec k hk)⟩

/-- **The reply.**  Hart `k`'s `clint_send_soft(ZERO_HART)` sets the primary's word. -/
theorem printed_finishes (hs : Reachable s) (hc : Chan.idle.run s.log = some (.printed k)) :
    Finishes k (.printed k) s := by
  obtain ⟨⟨⟨hk, w, hw⟩, -⟩, -, -, hpc⟩ := hs.inv.busy hc rfl
  have hstep := step_other hpc
  refine (primary_finishes (hs.step k hstep).inv (w := w) ?_ (by simp [clintSendSoft])).back
    hstep (.inl rfl) (by simp [Chan.rest])
  simpa [Function.update_noteq (Ne.symm hk)] using hw

/-- One byte of `uart_puts(SMP_ADDR)`: the NUL ends the print of the whole message, any other
byte is the next of the message and logs nothing. -/
theorem print_step (hs : Reachable s) {m out : List UInt8}
    (hc : Chan.idle.run s.log = some (.taken k m)) (hpc : s.pc k = .other (.print out)) :
    ∃ s', step s k = some s' ∧ Reachable s' ∧
      (s'.log = s.log ++ [.print k m] ∧ Chan.idle.run s'.log = some (.printed k) ∨
        ∃ b, s'.log = s.log ∧ s'.pc k = .other (.print (out ++ [b])) ∧ out ++ [b] <+: m) := by
  have hz := (hs.inv.busy hc rfl).2.1
  have hstep := step_other hpc
  simp only [otherStep] at hstep
  split at hstep
  · -- The NUL: the channel accepts the print only of the message itself.
    have hs' := hs.step k hstep
    obtain ⟨c', hc', -, -⟩ := hs'.inv.chan
    have accepted := hc'
    simp only [State.emit_log, State.setPc_log, Chan.run_append_of_run hc, Chan.step,
      true_and] at accepted
    obtain rfl : out = m := by
      by_contra ne
      rw [if_neg ne] at accepted
      cases accepted
    rw [if_pos rfl] at accepted
    exact ⟨_, hstep, hs', .inl ⟨by simp, accepted.symm ▸ hc'⟩⟩
  · -- Another byte: the log does not move, and the bytes put still begin the message.
    have hs' := hs.step k hstep
    obtain ⟨c', hc', -, sec'⟩ := hs'.inv.chan
    obtain ⟨m', rfl, begins, -⟩ := secondaryOk_print (by simpa using sec' k hz)
    obtain rfl : m' = m := by
      simp only [State.setPc_log, hc, Option.some.injEq, Chan.taken.injEq] at hc'
      exact hc'.2.symm
    exact ⟨_, hstep, hs', .inr ⟨_, by simp, by simp, begins⟩⟩

/-- **The print loop**, by induction on the bytes of the message left to put. -/
theorem taken_finishes (hs : Reachable s) {m out : List UInt8}
    (hc : Chan.idle.run s.log = some (.taken k m)) (hpc : s.pc k = .other (.print out))
    (begins : out <+: m) : Finishes k (.taken k m) s := by
  obtain ⟨n, hleft⟩ : ∃ n, m.length - out.length = n := ⟨_, rfl⟩
  induction n using Nat.strong_induction_on generalizing s out with
  | _ n ih =>
    obtain ⟨s', hstep, hs', ⟨log, printed⟩ | ⟨b, log, hpc', begins'⟩⟩ := print_step hs hc hpc
    · exact (printed_finishes hs' printed).back hstep (.inl rfl) (by simp [log, Chan.rest])
    · have longer := begins'.length_le
      simp only [List.length_append, List.length_singleton] at longer
      refine (ih _ ?_ hs' (by rw [log]; exact hc) hpc' begins' rfl).quiet hstep (.inl rfl) log
      simp only [List.length_append, List.length_singleton]
      omega

/-- **The target's `wait_ipi`.**  With its word set, hart `k` wakes, clears the word and takes
the message. -/
theorem sent_finishes (hs : Reachable s) {m : List UInt8}
    (hc : Chan.idle.run s.log = some (.sent k m)) (lis : (s.pc k).listening)
    (set : s.msip k ≠ 0) : Finishes k (.sent k m) s := by
  obtain ⟨-, -, ok⟩ := hs.inv.busy hc rfl
  have clear : ∀ t : State N, Reachable t → Chan.idle.run t.log = some (.sent k m) →
      t.pc k = .other (.wait .clear) → Finishes k (.sent k m) t := by
    intro t ht htc hpc
    have hstep := step_other hpc
    refine (taken_finishes (m := m) (ht.step k hstep) ?_ (by simp) List.nil_prefix).back hstep
      (.inl rfl) (by simp [Chan.rest])
    simp [Chan.run_append_of_run htc, Chan.step]
  have check : ∀ t : State N, Reachable t → Chan.idle.run t.log = some (.sent k m) →
      t.pc k = .other (.wait .check) → t.msip k ≠ 0 → Finishes k (.sent k m) t :=
    fun t ht htc hpc tset =>
      have hstep : step t k = some (t.setPc k (.other (.wait .clear))) := by
        rw [step_other hpc]; simp [otherStep, waitIpi, tset]
      (clear _ (ht.step k hstep) (by simpa using htc) (by simp)).quiet hstep (.inl rfl) (by simp)
  rcases hpc : s.pc k with _ | _ | (_ | (_ | _ | _) | _ | _) <;> rw [hpc] at lis ok
  · cases lis
  · cases lis
  · cases lis
  · exact check s hs hc hpc set
  · have mie : s.mie k = MIP_MSIP := hs.inv.core.mie_eq k (by simp [hpc])
    have hstep : step s k = some (s.setPc k (.other (.wait .check))) := by
      rw [step_other hpc]; simp [otherStep, waitIpi, mie, set]
    exact (check _ (hs.step k hstep) (by simpa using hc) (by simp) (by simpa using set)).quiet
      hstep (.inl rfl) (by simp)
  · exact clear s hs hc hpc
  · simp [partnerOk, HartPc.calm] at ok
  · simp [partnerOk, HartPc.calm] at ok

/-- **Every line sent is delivered, exactly.**  On the ready interleavings, from any state in
which the channel holds a line `m` sent to hart `k` and not yet taken, hart `k` and the primary
alone can finish the round, and the log then grows by exactly `k`'s take, its print of `m`
itself, its reply and the primary's wake: the line `test_ipi` copies to the mailbox is the line
hart `k`'s `uart_puts(SMP_ADDR)` prints, with no byte lost or added. -/
theorem handoff_delivers (s : State N) (hs : ReachableReady s) (k : Fin N) (m : List UInt8)
    (sent : Chan.idle.run s.log = some (.sent k m)) :
    ∃ sched t, (∀ j ∈ sched, j = k ∨ j = ZERO_HART) ∧ run s sched = some t ∧
      t.pc ZERO_HART = .main .askHart ∧ t.log = s.log ++ [.take k, .print k m, .reply k, .wake] :=
  have ⟨lis, sig⟩ := hs.heard _ sent k rfl
  sent_finishes hs.reachable sent lis (sig m rfl)

/-- The line `hi`, just raised for hart `1`, is printed by hart `1` as it is. -/
theorem raised_line_delivered :
    ∃ s : State MAX_HARTS, ReachableReady s ∧ Chan.idle.run s.log = some (.sent 1 [104, 105]) ∧
      ∃ sched t, (∀ j ∈ sched, j = 1 ∨ j = ZERO_HART) ∧ run s sched = some t ∧
        t.pc ZERO_HART = .main .askHart ∧
        t.log = s.log ++ [.take 1, .print 1 [104, 105], .reply 1, .wake] :=
  ⟨_, raisedState_reachable, raisedState_sent.1,
    handoff_delivers _ raisedState_reachable 1 _ raisedState_sent.1⟩

end TCoreSbi.System
