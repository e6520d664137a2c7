import TCoreSbi.Barrier.Progress

/-!
# The barrier when `wfi` returns early

The privileged ISA lets `wfi` resume for any reason, with no enabled interrupt pending; an
implementation may even execute it as a no-op.  `smp_resume` is written for that: after `wfi` it
reads `mip` and, with the `MSIP` bit clear, branches back to label `42` (`beqz reg2, 42b`).
`Barrier.step` leaves the early return out: its `wfi` moves only once `(mip & mie) != 0`, so
there the back edge is never taken.

This module adds it.  `stepEarly` is `Barrier.step` with a `wfi` that may always return.  A hart
at its `mip` check with its word `0` is about to branch back, and `settle` reads it as still at
`wfi`.

**Refinement theorem** `barrier_early_wfi_refines`: every state reached with early returns
settles to a reachable state of `Barrier.step`.  Each step with early returns does one of two
things (`settle_stepEarly`):

* it leaves the settled state as it was: an early return, the back edge, a spin in the sweep;
* it takes the settled state on by a step of `Barrier.step` that moves the hart, and by one
  more where a store of the broadcast lands on a hart at its check and so wakes it.

So every invariant of `TCoreSbi.Barrier.Invariant`, the rendezvous among them, holds on such
hardware.  `remaining` of the settled state falls at every step that is not a stutter
(`remaining_settle_stepEarly`), which bounds how many such steps a run takes.
-/

namespace TCoreSbi.Barrier

variable {N : Nat} [NeZero N]

/-- **One step of hart `h` where `wfi` may return at any time**, whether or not an interrupt is
pending; every other instruction as `step`. -/
def stepEarly (s : State N) (h : Fin N) : Option (State N) :=
  match s.pc h with
  | .wfi => some { s with pc := Function.update s.pc h .checkMip }
  | _ => step s h

/-- The states some interleaving of `stepEarly` reaches from an initial state. -/
inductive ReachableEarly : State N → Prop
  | init (mie : Fin N → UInt64) : ReachableEarly (State.init mie)
  | step {s s' : State N} (h : Fin N) : ReachableEarly s → stepEarly s h = some s' →
      ReachableEarly s'

/-- The state with every hart whose `mip` check is about to fail put back at `wfi`. -/
def settle (s : State N) : State N :=
  { s with pc := fun j => if s.pc j = .checkMip ∧ s.msip j = 0 then .wfi else s.pc j }

section Settle

omit [NeZero N]

variable {s : State N}

@[simp] theorem settle_pc (s : State N) (j : Fin N) :
    (settle s).pc j = if s.pc j = .checkMip ∧ s.msip j = 0 then .wfi else s.pc j := rfl

@[simp] theorem settle_msip (s : State N) : (settle s).msip = s.msip := rfl

@[simp] theorem settle_mie (s : State N) : (settle s).mie = s.mie := rfl

theorem settle_pc_eq {j : Fin N} {p : Pc N} (hpc : s.pc j = p) (hp : p ≠ .checkMip) :
    (settle s).pc j = p := by
  simp [hpc, hp]

/-- Settling puts no hart in or out of the acknowledged ones. -/
@[simp] theorem settle_acked (s : State N) (j : Fin N) :
    ((settle s).pc j).acked = (s.pc j).acked := by
  rw [settle_pc]; split
  · rename_i c; rw [c.1]; rfl
  · rfl

theorem settle_init (mie : Fin N → UInt64) : settle (State.init mie) = State.init mie := rfl

theorem State.ext_pc {t : State N} (pc : ∀ j, s.pc j = t.pc j) (mie : s.mie = t.mie)
    (msip : s.msip = t.msip) : s = t := by
  cases s; cases t
  cases mie; cases msip
  simp only [State.mk.injEq, and_true]
  exact funext pc

/-- Moving hart `h` to a place that settles as its current one leaves the settled state as it
was. -/
theorem settle_stutter {h : Fin N} {p : Pc N}
    (same : (if p = .checkMip ∧ s.msip h = 0 then .wfi else p) = (settle s).pc h) :
    settle { s with pc := Function.update s.pc h p } = settle s := by
  refine State.ext_pc (fun j => ?_) rfl rfl
  by_cases hj : j = h
  · subst hj; simpa using same
  · simp [Function.update_noteq hj]

/-- **Settling commutes with a move.**  Moving hart `h` to `p` and changing `mie` and the words
settles to the same move of the settled state, as long as the outcome of no `mip` check
changes: `h`'s, if `p` is one, and that of every other hart at its check. -/
theorem settle_move {h : Fin N} {p : Pc N} (mie' : Fin N → UInt64) {msip' : Fin N → UInt32}
    (place : p = .checkMip → msip' h ≠ 0)
    (words : ∀ j ≠ h, s.pc j = .checkMip → (msip' j = 0 ↔ s.msip j = 0)) :
    settle ⟨Function.update s.pc h p, mie', msip'⟩ =
      ⟨Function.update (settle s).pc h p, mie', msip'⟩ := by
  refine State.ext_pc (fun j => ?_) rfl rfl
  by_cases hj : j = h
  · subst hj
    simp only [settle_pc, Function.update_same, ite_eq_right_iff, and_imp]
    exact fun c zero => absurd zero (place c)
  · simp only [settle_pc, Function.update_noteq hj]
    by_cases c : s.pc j = .checkMip
    · simp only [c, words j hj c, true_and]
    · simp only [c, false_and, if_false]

/-- A store of `1` into the word of hart `i`, at its check with the word `0`, also sends `i`
on: its check now succeeds. -/
theorem settle_wake {h i : Fin N} {p : Pc N} (mie' : Fin N → UInt64)
    (hp : p ≠ .checkMip) (hi : s.pc i = .checkMip) (hih : i ≠ h) :
    settle ⟨Function.update s.pc h p, mie', writeMsip s.msip i 1⟩ =
      ⟨Function.update (Function.update (settle s).pc h p) i .checkMip, mie',
        writeMsip s.msip i 1⟩ := by
  refine State.ext_pc (fun j => ?_) rfl rfl
  by_cases hji : j = i
  · subst hji
    simp [Function.update_noteq hih, hi]
  · by_cases hj : j = h
    · subst hj; simp [hp, Function.update_noteq hji]
    · simp [Function.update_noteq hj, Function.update_noteq hji, writeMsip_ne _ _ hji]

end Settle

/-! ## One step, settled -/

variable {s s' : State N} {h : Fin N}

/-- The step the barrier model takes from `s` is the one that `Advances s h` promises. -/
theorem Advances.moved {t : State N} (adv : Advances s h) (ht : step s h = some t) :
    t.pc h ≠ s.pc h := by
  obtain ⟨t', ht', moved⟩ := adv
  rw [ht] at ht'
  cases ht'
  exact moved

/-- **One step with early returns, settled.**  It stutters, or it is a step of `Barrier.step`
from the settled state that moves hart `h`, followed by a wake-up of another hart when a store
of the broadcast lands on a hart at its check. -/
theorem settle_stepEarly (hs : Reachable (settle s)) (hstep : stepEarly s h = some s') :
    settle s' = settle s ∨ ∃ t, step (settle s) h = some t ∧ t.pc h ≠ (settle s).pc h ∧
      (settle s' = t ∨ ∃ j, step t j = some (settle s')) := by
  have inv := hs.core
  cases hpc : s.pc h with
  | pause =>
    simp only [stepEarly, step, hpc, Option.some.injEq] at hstep; subst hstep
    have hu : (settle s).pc h = .pause := settle_pc_eq hpc nofun
    have ht : step (settle s) h = some { settle s with
        mie := Function.update s.mie h MIP_MSIP
        pc := Function.update (settle s).pc h
          (if h = ZERO_HART then .broadcast firstWord else .wfi) } := by
      simp only [step, hu]; rfl
    exact .inr ⟨_, ht, (advances_of_busy (.inl hu)).moved ht,
      .inl (settle_move _ (fun c => by split at c <;> cases c) fun _ _ _ => Iff.rfl)⟩
  | broadcast i =>
    simp only [stepEarly, step, hpc, Option.some.injEq] at hstep; subst hstep
    have hu : (settle s).pc h = .broadcast i := settle_pc_eq hpc nofun
    have ht : step (settle s) h = some ⟨Function.update (settle s).pc h
        ((nextHart i).elim .wfi .broadcast), s.mie, writeMsip s.msip i 1⟩ := by
      simp only [step, hu]; rfl
    have stays : (nextHart i).elim Pc.wfi Pc.broadcast ≠ .checkMip := by
      cases nextHart i <;> exact nofun
    refine .inr ⟨_, ht, (advances_of_busy (.inr (.inl ⟨i, hu⟩))).moved ht, ?_⟩
    by_cases wake : s.pc i = .checkMip ∧ s.msip i = 0
    · -- Hart `i`'s check was about to fail; with its word now `1`, it succeeds.
      have hih : i ≠ h := fun e => by rw [e, hpc] at wake; cases wake.1
      have mie : s.mie i = MIP_MSIP := inv.mie_eq i (by simp [wake])
      refine .inr ⟨i, ?_⟩
      rw [settle_wake _ stays wake.1 hih]
      simp [step, Function.update_noteq hih, wake, mie]
    · refine .inl (settle_move _ (absurd · stays) fun j _ c => ?_)
      by_cases hji : j = i
      · subst hji
        have : s.msip j ≠ 0 := fun zero => wake ⟨c, zero⟩
        simp [this]
      · rw [writeMsip_ne _ _ hji]
  | wfi =>
    simp only [stepEarly, hpc, Option.some.injEq] at hstep; subst hstep
    have hu : (settle s).pc h = .wfi := settle_pc_eq hpc nofun
    by_cases zero : s.msip h = 0
    · -- An early return: the check will fail, and the settled state stays.
      exact .inl (settle_stutter (by simp [hpc, zero]))
    · have mie : s.mie h = MIP_MSIP := inv.mie_eq h (by rw [hu]; exact nofun)
      have ht : step (settle s) h =
          some { settle s with pc := Function.update (settle s).pc h .checkMip } := by
        simp only [step, hu, settle_msip, settle_mie, mie, mip_and_mie_ne_zero, ne_eq, zero,
          not_false_eq_true, if_true]
      exact .inr ⟨_, ht, (advances_of_wfi inv hu zero).moved ht,
        .inl (settle_move _ (fun _ => zero) fun _ _ _ => Iff.rfl)⟩
  | checkMip =>
    simp only [stepEarly, step, hpc, Option.some.injEq] at hstep; subst hstep
    by_cases zero : s.msip h = 0
    · -- The back edge: the hart was already read as at `wfi`.
      exact .inl (settle_stutter (by simp [hpc, zero]))
    · have hu : (settle s).pc h = .checkMip := by simp [hpc, zero]
      have ht : step (settle s) h =
          some { settle s with pc := Function.update (settle s).pc h .ack } := by
        simp only [step, hu, settle_msip, mip_and_MIP_MSIP_eq_zero, zero, if_false]
      refine .inr ⟨_, ht, (advances_of_busy (.inr (.inr (.inl hu)))).moved ht, .inl ?_⟩
      simp only [mip_and_MIP_MSIP_eq_zero, zero, if_false]
      exact settle_move _ nofun fun _ _ _ => Iff.rfl
  | ack =>
    simp only [stepEarly, step, hpc, Option.some.injEq] at hstep; subst hstep
    have hu : (settle s).pc h = .ack := settle_pc_eq hpc nofun
    have ht : step (settle s) h = some ⟨Function.update (settle s).pc h (.sweep firstWord),
        s.mie, writeMsip s.msip h 0⟩ := by simp only [step, hu]; rfl
    exact .inr ⟨_, ht, (advances_of_busy (.inr (.inr (.inr hu)))).moved ht,
      .inl (settle_move _ nofun fun j hj _ => by rw [writeMsip_ne _ _ hj])⟩
  | sweep i =>
    have hu : (settle s).pc h = .sweep i := settle_pc_eq hpc nofun
    simp only [stepEarly, step, hpc] at hstep
    split at hstep
    · -- A spin: nothing changes.
      cases hstep; exact .inl rfl
    · rename_i zero
      simp only [ne_eq, not_not] at zero
      cases hstep
      have ht : step (settle s) h = some ⟨Function.update (settle s).pc h
          ((nextHart i).elim .done .sweep), s.mie, s.msip⟩ := by
        simp only [step, hu, settle_msip, zero, ne_eq, not_true_eq_false, if_false]; rfl
      refine .inr ⟨_, ht, (advances_of_sweep hu zero).moved ht, .inl ?_⟩
      have stays : (nextHart i).elim Pc.done Pc.sweep ≠ .checkMip := by
        cases nextHart i <;> exact nofun
      exact settle_move _ (absurd · stays) fun _ _ _ => Iff.rfl
  | done => simp [stepEarly, step, hpc] at hstep

/-- Every step of the blocking model is one with early returns: they only add behaviours. -/
theorem stepEarly_of_step (hstep : step s h = some s') : stepEarly s h = some s' := by
  unfold stepEarly
  split
  · rename_i hpc
    simp only [step, hpc] at hstep
    split at hstep <;> cases hstep
    rfl
  · exact hstep

theorem Reachable.early (hs : Reachable s) : ReachableEarly s := by
  induction hs with
  | init mie => exact .init mie
  | step h _ hstep ih => exact ih.step h (stepEarly_of_step hstep)

/-- **Early returns reach nothing new**: every state they reach settles to a reachable state of
the barrier model. -/
theorem ReachableEarly.settle (hs : ReachableEarly s) : Reachable (settle s) := by
  induction hs with
  | init mie => rw [settle_init]; exact .init mie
  | step h _ hstep ih =>
    rcases settle_stepEarly ih hstep with same | ⟨t, ht, -, same | ⟨j, hj⟩⟩
    · rwa [same]
    · rw [same]; exact ih.step h ht
    · exact (ih.step h ht).step j hj

/-- Every step with early returns that does not stutter lowers `remaining` of the settled
state. -/
theorem remaining_settle_stepEarly (hs : Reachable (settle s)) (hstep : stepEarly s h = some s') :
    settle s' = settle s ∨ remaining (settle s') < remaining (settle s) := by
  rcases settle_stepEarly hs hstep with same | ⟨t, ht, moved, same | ⟨j, hj⟩⟩
  · exact .inl same
  · rw [same]; exact .inr ((remaining_le_step hs ht).2 moved)
  · exact .inr (lt_of_le_of_lt (remaining_le_step (hs.step h ht) hj).1
      ((remaining_le_step hs ht).2 moved))

/-- **The barrier on hardware whose `wfi` returns early.**  Every state reached with early
returns settles to a reachable state of the blocking model; every step from it leaves the
settled state as it was or lowers its `remaining` count; and once a hart has left the final
sweep, every hart has acknowledged and all `N` msip words are `0`. -/
theorem barrier_early_wfi_refines (s : State N) (hs : ReachableEarly s) :
    Reachable (settle s) ∧
      (∀ h s', stepEarly s h = some s' →
        settle s' = settle s ∨ remaining (settle s') < remaining (settle s)) ∧
      ∀ h, s.pc h = .done → (∀ j, (s.pc j).acked) ∧ ∀ j, s.msip j = 0 := by
  have reach := hs.settle
  refine ⟨reach, fun _ _ => remaining_settle_stepEarly reach, fun h left => ?_⟩
  have acked : ∀ j, (s.pc j).acked := fun j => by
    rw [← settle_acked]
    exact reach.core.acked_of_done (settle_pc_eq left nofun) j
  exact ⟨acked, fun j => reach.clean j (by rw [settle_acked]; exact acked j)⟩

/-- Hart `1` runs `smp_pause` and returns from `wfi` at once, with no interrupt pending: its
check is about to fail, and the state settles to the one with hart `1` still at `wfi`. -/
theorem early_return_settles :
    ∃ s : State MAX_HARTS, ReachableEarly s ∧ s.pc 1 = .checkMip ∧ s.msip 1 = 0 ∧
      (Reachable (settle s) ∧
        (∀ h s', stepEarly s h = some s' →
          settle s' = settle s ∨ remaining (settle s') < remaining (settle s)) ∧
        ∀ h, s.pc h = .done → (∀ j, (s.pc j).acked) ∧ ∀ j, s.msip j = 0) := by
  obtain ⟨s₁, ran, s, early, check, zero⟩ : ∃ s₁ ∈ run (State.init fun _ => 0 : State MAX_HARTS) [1],
      ∃ s ∈ stepEarly s₁ 1, s.pc 1 = .checkMip ∧ s.msip 1 = 0 := by decide
  have hs : ReachableEarly s := ((Reachable.init _).run ran).early.step 1 early
  exact ⟨s, hs, check, zero, barrier_early_wfi_refines s hs⟩

end TCoreSbi.Barrier
