import TCoreSbi.Barrier.Invariant

/-!
# The barrier never deadlocks

In this model `wfi` blocks until `(mip & mie) != 0`, and the sweep spins on a word until it reads
`0`, so a hart of the barrier can be stuck.  The barrier as a whole cannot: in every reachable state in
which some hart has not left `smp_resume`, some such hart has a step that moves it on.

The argument follows the two waits.  A hart blocked in `wfi` has `mie = MIP_MSIP` (it ran
`smp_pause` first), so it is blocked only while its word is `0`; by `Core.pending` the word is
then not yet raised, and the broadcaster, still in `smp_pause` or in its broadcast loop, can
move.  A hart spinning in the sweep reads a non-zero word, which by `Clean` belongs to a hart
that has not acknowledged; that hart is one of the former kind.

## How far the barrier is from finishing

The sweep spins on a word without bound, so one may ask whether the barrier can go round for
ever.  In this model it cannot.  `Pc.remaining` counts the place changes a hart still has to
make.  Every step that moves a hart lowers the count (`remaining_step`), and a spin leaves it
alone.  The `mip` check here always goes on to the acknowledging store: `wfi` moves only on a
set word, and only its owner clears it (`CheckSet`).  With deadlock freedom some hart can always
move, so a schedule of at most `remaining` steps, `2 * N + 4` per hart from the start, takes
every hart out of `smp_resume` (`exists_finishing_run`).

On hardware whose `wfi` returns early the check does branch back to `wfi`, and the count can
rise.  `TCoreSbi.Barrier.EarlyWfi` reads such states through the blocking model.
-/

namespace TCoreSbi.Barrier

variable {N : Nat} [NeZero N] {s : State N}

/-- Hart `h` has a step that moves it to another place. -/
def Advances (s : State N) (h : Fin N) : Prop := ∃ s', step s h = some s' ∧ s'.pc h ≠ s.pc h

/-- `smp_pause`, a store of the broadcast, a `mip` check and the acknowledging store never
block, and each moves the hart on. -/
theorem advances_of_busy {h : Fin N}
    (busy : s.pc h = .pause ∨ (∃ i, s.pc h = .broadcast i) ∨ s.pc h = .checkMip ∨
      s.pc h = .ack) : Advances s h := by
  rcases busy with hpc | ⟨i, hpc⟩ | hpc | hpc
  · refine ⟨_, by simp only [step, hpc]; rfl, ?_⟩
    simp only [Function.update_same, hpc]; split <;> exact nofun
  · refine ⟨_, by simp only [step, hpc]; rfl, ?_⟩
    simp only [Function.update_same, hpc]
    cases hnext : nextHart i with
    | none => exact nofun
    | some k =>
      have := nextHart_eq_some.mp hnext
      simp only [Option.elim, ne_eq, Pc.broadcast.injEq, Fin.ext_iff]; omega
  · refine ⟨_, by simp only [step, hpc]; rfl, ?_⟩
    simp only [Function.update_same, hpc]; split <;> exact nofun
  · exact ⟨_, by simp only [step, hpc]; rfl, by simp [hpc]⟩

/-- A hart in `wfi` whose word is set wakes up. -/
theorem advances_of_wfi (inv : Core s) {h : Fin N} (hpc : s.pc h = .wfi) (set : s.msip h ≠ 0) :
    Advances s h := by
  have mie : s.mie h = MIP_MSIP := inv.mie_eq h (by rw [hpc]; exact nofun)
  refine ⟨{ s with pc := Function.update s.pc h .checkMip }, ?_, by simp [hpc]⟩
  simp only [step, hpc, mie, ne_eq, mip_and_mie_ne_zero, set, not_false_eq_true, if_true]

/-- A sweep that reads `0` moves past the word. -/
theorem advances_of_sweep {h i : Fin N} (hpc : s.pc h = .sweep i) (zero : s.msip i = 0) :
    Advances s h := by
  refine ⟨_, by simp only [step, hpc, zero, ne_eq, not_true_eq_false, if_false]; rfl, ?_⟩
  simp only [Function.update_same, hpc]
  cases hnext : nextHart i with
  | none => exact nofun
  | some k =>
    have := nextHart_eq_some.mp hnext
    simp only [Option.elim, ne_eq, Pc.sweep.injEq, Fin.ext_iff]; omega

/-- **Whatever waits on a hart that has not acknowledged, some unfinished hart can move.** -/
theorem advances_of_unacked (inv : Core s) {j : Fin N} (unacked : (s.pc j).acked = false) :
    ∃ h, s.pc h ≠ .done ∧ Advances s h := by
  have unfinished : ∀ {h : Fin N}, (s.pc h).acked = false → s.pc h ≠ .done :=
    fun hu hd => by rw [hd] at hu; cases hu
  cases hpc : s.pc j with
  | pause => exact ⟨j, unfinished unacked, advances_of_busy (.inl hpc)⟩
  | broadcast i => exact ⟨j, unfinished unacked, advances_of_busy (.inr (.inl ⟨i, hpc⟩))⟩
  | checkMip => exact ⟨j, unfinished unacked, advances_of_busy (.inr (.inr (.inl hpc)))⟩
  | ack => exact ⟨j, unfinished unacked, advances_of_busy (.inr (.inr (.inr hpc)))⟩
  | wfi =>
    by_cases set : s.msip j = 0
    · -- Its word is not raised yet, so the broadcaster has not finished broadcasting.
      have unraised : (s.pc ZERO_HART).raised j = false := by
        by_contra raised
        exact inv.pending j (by simpa using raised) unacked set
      cases hz : s.pc ZERO_HART with
      | pause =>
        exact ⟨ZERO_HART, by rw [hz]; exact nofun, advances_of_busy (.inl hz)⟩
      | broadcast i =>
        exact ⟨ZERO_HART, by rw [hz]; exact nofun, advances_of_busy (.inr (.inl ⟨i, hz⟩))⟩
      | _ => simp [hz, Pc.raised] at unraised
    · exact ⟨j, unfinished unacked, advances_of_wfi inv hpc set⟩
  | sweep i => simp [hpc, Pc.acked] at unacked
  | done => simp [hpc, Pc.acked] at unacked

/-- **Some unfinished hart can always move**, in every reachable state with a hart left in the
barrier. -/
theorem exists_advances (hs : Reachable s) {h : Fin N} (unfinished : s.pc h ≠ .done) :
    ∃ h, s.pc h ≠ .done ∧ Advances s h := by
  have inv := hs.core
  cases hpc : s.pc h with
  | sweep i =>
    by_cases zero : s.msip i = 0
    · exact ⟨h, by rw [hpc]; exact nofun, advances_of_sweep hpc zero⟩
    · -- The polled word is set, so its owner has not acknowledged.
      exact advances_of_unacked inv (by
        by_contra acked
        exact zero (hs.clean i (by simpa using acked)))
  | done => exact absurd hpc unfinished
  | _ => exact advances_of_unacked inv (by rw [hpc]; rfl)

/-- **Barrier deadlock freedom.**  Every hart has `MIP_MSIP` set in `mie` whenever it is at
`wfi`; and in every reachable state in which some hart has not left `smp_resume`, some such
hart has a step that moves it on: the broadcaster is still in `smp_pause` or broadcasting, a
hart in its wait loop has its own word set, a hart is at a `mip` check or its acknowledging
store, or a hart in the sweep reads `0` from the word it polls. -/
theorem barrier_deadlock_free (s : State N) (hs : Reachable s) :
    (∀ h, s.pc h = .wfi → s.mie h &&& MIP_MSIP ≠ 0) ∧
      ((∃ h, s.pc h ≠ .done) →
        ∃ h, s.pc h ≠ .done ∧ ∃ s', step s h = some s' ∧ s'.pc h ≠ s.pc h) :=
  ⟨fun h hpc => by rw [hs.core.mie_eq h (by rw [hpc]; exact nofun)]; simp,
    fun ⟨_, unfinished⟩ => exists_advances hs unfinished⟩

/-- The broadcaster has stored into the words of harts `0` and `1` only.  Hart `1` has woken
and acknowledged and spins on hart `0`'s word; hart `2` is blocked in `wfi`; harts `3` and `4`
have not started. -/
private def broadcastTwo : List (Fin MAX_HARTS) := [0, 1, 2, 0, 0, 1, 1, 1]

/-- Midway through the broadcast, with a hart blocked in `wfi` and one spinning in its sweep,
some unfinished hart can still move. -/
theorem barrier_deadlock_free_midway :
    ∃ s : State MAX_HARTS, Reachable s ∧ (s.pc 2 = .wfi ∧ step s 2 = none) ∧
      (s.pc 1 = .sweep firstWord ∧ s.msip firstWord ≠ 0) ∧
      ((∀ h, s.pc h = .wfi → s.mie h &&& MIP_MSIP ≠ 0) ∧
        ((∃ h, s.pc h ≠ .done) →
          ∃ h, s.pc h ≠ .done ∧ ∃ s', step s h = some s' ∧ s'.pc h ≠ s.pc h)) := by
  obtain ⟨s, ran, ⟨waiting, blocked⟩, spinning⟩ : ∃ s ∈ run (State.init fun _ => 0) broadcastTwo,
      (s.pc 2 = .wfi ∧ (step s 2).isNone) ∧ (s.pc 1 = .sweep firstWord ∧ s.msip firstWord ≠ 0) := by
    decide
  have hs := (Reachable.init _).run ran
  exact ⟨s, hs, ⟨waiting, Option.isNone_iff_eq_none.mp blocked⟩, spinning,
    barrier_deadlock_free s hs⟩

/-! ## How far the barrier is from finishing -/

omit [NeZero N] in
/-- How many more times a hart changes place before it leaves `smp_resume`, at most: the
broadcast loop word by word, the wait, the check, the acknowledging store, and the sweep word by
word. -/
def Pc.remaining : Pc N → Nat
  | .pause => 2 * N + 4
  | .broadcast i => 2 * N + 3 - i.val
  | .wfi => N + 3
  | .checkMip => N + 2
  | .ack => N + 1
  | .sweep i => N - i.val
  | .done => 0

omit [NeZero N] in
/-- The same, summed over the harts. -/
def remaining (s : State N) : Nat := ∑ h, (s.pc h).remaining

omit [NeZero N] in
/-- A step that moves only hart `h` changes the sum by what it changes `h`'s own count. -/
theorem remaining_update {s s' : State N} {h : Fin N} (same : ∀ j ≠ h, s'.pc j = s.pc j) :
    remaining s' + (s.pc h).remaining = remaining s + (s'.pc h).remaining := by
  unfold remaining
  rw [← Finset.add_sum_erase _ _ (Finset.mem_univ h),
    ← Finset.add_sum_erase _ (fun j => (s.pc j).remaining) (Finset.mem_univ h),
    Finset.sum_congr rfl fun j hj => by rw [same j (Finset.ne_of_mem_erase hj)]]
  omega

omit [NeZero N] in
/-- A hart at its `mip` check has its word set. -/
def CheckSet (s : State N) : Prop := ∀ j, s.pc j = .checkMip → s.msip j ≠ 0

variable {s' : State N} {h : Fin N}

/-- Only `wfi` leads to the `mip` check, and only on a set word, which only its owner clears. -/
theorem CheckSet.step (check : CheckSet s) (inv : Core s) (hstep : step s h = some s') :
    CheckSet s' := by
  intro j hj
  by_cases hjh : j = h
  · subst hjh
    cases hpc : s.pc j with
    | wfi =>
      simp only [step, hpc] at hstep
      split at hstep
      · rename_i wake
        cases hstep
        have mie : s.mie j = MIP_MSIP := inv.mie_eq j (by rw [hpc]; exact nofun)
        simpa [mie] using wake
      · cases hstep
    | done => simp [step, hpc] at hstep
    | sweep i =>
      simp only [step, hpc] at hstep
      split at hstep <;> cases hstep
      · rw [hpc] at hj; cases hj
      · simp only [Function.update_same] at hj; revert hj; cases nextHart i <;> simp
    | pause | checkMip =>
      simp only [step, hpc, Option.some.injEq] at hstep; subst hstep
      revert hj; simp only [Function.update_same]; split <;> simp
    | broadcast i =>
      simp only [step, hpc, Option.some.injEq] at hstep; subst hstep
      revert hj; simp only [Function.update_same]; cases nextHart i <;> simp
    | ack =>
      simp only [step, hpc, Option.some.injEq] at hstep; subst hstep
      simp at hj
  · rw [step_pc_ne hstep hjh] at hj
    rcases step_msip hstep with ⟨-, same⟩ | ⟨i, -, stored⟩ | ⟨-, stored⟩
    · rw [same]; exact check j hj
    · rw [stored, writeMsip_apply]; split
      · simp
      · exact check j hj
    · rw [stored, writeMsip_ne _ _ hjh]; exact check j hj

theorem Reachable.checkSet (hs : Reachable s) : CheckSet s := by
  induction hs with
  | init mie => exact fun _ hj => nomatch hj
  | step h hs hstep ih => exact ih.step hs.core hstep

/-- **Every move is progress.**  A step that changes a hart's place lowers its count.  A hart at
its check has its word set (`CheckSet`), so the check leads on to `ack`. -/
theorem remaining_step (check : CheckSet s) (hstep : step s h = some s')
    (moved : s'.pc h ≠ s.pc h) : (s'.pc h).remaining < (s.pc h).remaining := by
  have pos := Nat.pos_of_neZero N
  cases hpc : s.pc h with
  | pause =>
    simp only [step, hpc, Option.some.injEq] at hstep; subst hstep
    simp only [Function.update_same]; split <;> simp only [Pc.remaining] <;> omega
  | broadcast i =>
    simp only [step, hpc, Option.some.injEq] at hstep; subst hstep
    simp only [Function.update_same]
    cases hnext : nextHart i with
    | none => have := nextHart_eq_none.mp hnext; simp [Pc.remaining]; omega
    | some k => have := nextHart_eq_some.mp hnext; simp [Pc.remaining]; omega
  | wfi =>
    simp only [step, hpc] at hstep
    split at hstep <;> cases hstep
    simp [Pc.remaining]
  | checkMip =>
    simp only [step, hpc, Option.some.injEq] at hstep; subst hstep
    simp [check h hpc, Pc.remaining]
  | ack =>
    simp only [step, hpc, Option.some.injEq] at hstep; subst hstep
    simp [Pc.remaining]
  | sweep i =>
    simp only [step, hpc] at hstep
    split at hstep <;> cases hstep
    · exact absurd rfl moved
    · simp only [Function.update_same]
      cases hnext : nextHart i with
      | none => simp [Pc.remaining]
      | some k => have := nextHart_eq_some.mp hnext; simp [Pc.remaining]; omega
  | done => simp [step, hpc] at hstep

/-- No step raises the count, and a step that moves its hart lowers it. -/
theorem remaining_le_step (hs : Reachable s) (hstep : step s h = some s') :
    remaining s' ≤ remaining s ∧ (s'.pc h ≠ s.pc h → remaining s' < remaining s) := by
  have sum := remaining_update fun j hj => step_pc_ne hstep hj
  by_cases moved : s'.pc h = s.pc h
  · rw [moved] at sum; exact ⟨by omega, fun ne => absurd moved ne⟩
  · have := remaining_step hs.checkSet hstep moved
    exact ⟨by omega, fun _ => by omega⟩

/-- Some schedule of at most `remaining s` steps takes every hart out of `smp_resume`: while a
hart has not left, some hart can move, and each move lowers the count. -/
theorem exists_finishing_run (hs : Reachable s) :
    ∃ sched t, run s sched = some t ∧ (∀ h, t.pc h = .done) ∧ sched.length ≤ remaining s := by
  obtain ⟨n, hn⟩ : ∃ n, remaining s = n := ⟨_, rfl⟩
  induction n using Nat.strong_induction_on generalizing s with
  | _ n ih =>
    by_cases finished : ∀ h, s.pc h = .done
    · exact ⟨[], s, rfl, finished, Nat.zero_le _⟩
    · push_neg at finished
      obtain ⟨h, unfinished⟩ := finished
      obtain ⟨h', -, s', hstep, moved⟩ := exists_advances hs unfinished
      have lower := (remaining_le_step hs hstep).2 moved
      obtain ⟨sched, t, ran, done, len⟩ := ih _ (hn ▸ lower) (hs.step h' hstep) rfl
      refine ⟨h' :: sched, t, by simp only [run, hstep, Option.some_bind, ran], done, ?_⟩
      simp only [List.length_cons]
      omega

end TCoreSbi.Barrier
