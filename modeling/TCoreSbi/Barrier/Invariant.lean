import TCoreSbi.Barrier.Step

/-!
# The barrier invariant, and what a hart leaving the sweep knows

The sweep is shared code: secondaries sweep too.  What makes a secondary's sweep sound is an
ordering fact about every interleaving: the broadcaster raises hart `0`'s word first and clears
it only after its broadcast loop has ended, so a hart that reads hart `0`'s word as `0`
(after its own word was raised, hence after hart `0`'s was) knows that every word has been
raised; from then on a word reads `0` only once its owner has acknowledged.

`Core` records this as an inductive invariant:

* **`pending`** — a raised word stays non-zero until its owner acknowledges;
* **`raised_of_set`** — a non-zero word of an unacknowledged hart was raised by the broadcast;
* **`woken_raised`** — a hart past its `mip` check was raised;
* **`swept_acked`** — every word a sweep has passed belongs to a hart that has acknowledged;

with the two shape facts that only `ZERO_HART` broadcasts and that every hart past
`smp_pause` has `mie = MIP_MSIP`.  `Core` mentions the words only of unacknowledged harts, so
it survives the code that runs after the barrier (see `TCoreSbi.System`); the barrier alone
also keeps every acknowledged hart's word at `0` (`Clean`).
-/

namespace TCoreSbi.Barrier

variable {N : Nat} [NeZero N]

/-- **The barrier's invariant**, over the harts' places and the msip words. -/
structure Core (s : State N) : Prop where
  broadcaster : ∀ h i, s.pc h = .broadcast i → h = ZERO_HART
  mie_eq : ∀ h, s.pc h ≠ .pause → s.mie h = MIP_MSIP
  pending : ∀ j, (s.pc ZERO_HART).raised j → (s.pc j).acked = false → s.msip j ≠ 0
  raised_of_set : ∀ j, s.msip j ≠ 0 → (s.pc j).acked = false → (s.pc ZERO_HART).raised j
  woken_raised : ∀ j, (s.pc j).woken → (s.pc ZERO_HART).raised j
  swept_acked : ∀ h j, j.val < (s.pc h).swept → (s.pc j).acked

/-- In the barrier alone, an acknowledged hart's word stays `0`. -/
def Clean (s : State N) : Prop := ∀ j, (s.pc j).acked → s.msip j = 0

theorem core_init (mie : Fin N → UInt64) : Core (State.init mie) where
  broadcaster _ _ h := nomatch h
  mie_eq _ h := absurd rfl h
  pending _ h := by simp [State.init, Pc.raised] at h
  raised_of_set _ h := absurd rfl h
  woken_raised _ h := by simp [State.init, Pc.woken] at h
  swept_acked _ _ h := by simp [State.init, Pc.swept] at h

omit [NeZero N] in
theorem clean_init (mie : Fin N → UInt64) : Clean (State.init mie) := fun _ _ => rfl

/-! ## The invariant, one transition at a time -/

variable {s : State N} {h : Fin N}

omit [NeZero N] in
/-- A view of the places that reads hart `h`'s new place as it read the old one reads every
place as before. -/
theorem view_update {α : Type} (f : Pc N → α) (pc : Fin N → Pc N) (h : Fin N) (p' : Pc N)
    (same : f p' = f (pc h)) (j : Fin N) : f (Function.update pc h p' j) = f (pc j) := by
  by_cases hj : j = h
  · subst hj; simpa using same
  · simp [Function.update_noteq hj]

/-- A hart already past `smp_pause` keeps `mie = MIP_MSIP` wherever it moves. -/
theorem Core.mie_ok (inv : Core s) (past : s.pc h ≠ .pause) {p' : Pc N} :
    ∀ j, Function.update s.pc h p' j ≠ .pause → s.mie j = MIP_MSIP := by
  intro j hj
  by_cases hjh : j = h
  · subst hjh; exact inv.mie_eq _ past
  · exact inv.mie_eq j (by simpa [Function.update_noteq hjh] using hj)

/-- Moving hart `h` to a place that reads like its current one, without touching the words,
keeps `Core`: `smp_pause`, `wfi` and a failed `mip` check are such moves. -/
theorem Core.move (inv : Core s) {p' : Pc N} (mie' : Fin N → UInt64)
    (acked_eq : p'.acked = (s.pc h).acked) (woken_eq : p'.woken = (s.pc h).woken)
    (swept_eq : p'.swept = (s.pc h).swept) (raised_eq : h = ZERO_HART → p'.raised = (s.pc h).raised)
    (bcast : ∀ i, p' = .broadcast i → h = ZERO_HART)
    (mie_ok : ∀ j, Function.update s.pc h p' j ≠ .pause → mie' j = MIP_MSIP) :
    Core ⟨Function.update s.pc h p', mie', s.msip⟩ := by
  have hA := view_update Pc.acked s.pc h p' acked_eq
  have hW := view_update Pc.woken s.pc h p' woken_eq
  have hS := view_update Pc.swept s.pc h p' swept_eq
  have hR : (Function.update s.pc h p' ZERO_HART).raised = (s.pc ZERO_HART).raised := by
    by_cases hz : h = ZERO_HART
    · subst hz; simpa using raised_eq rfl
    · simp [Function.update_noteq (Ne.symm hz)]
  refine ⟨fun j i hj => ?_, mie_ok, ?_, ?_, ?_, ?_⟩
  · by_cases hjh : j = h
    · subst hjh; exact bcast i (by simpa using hj)
    · exact inv.broadcaster j i (by simpa [Function.update_noteq hjh] using hj)
  · intro j; simp only [hR, hA]; exact inv.pending j
  · intro j; simp only [hR, hA]; exact inv.raised_of_set j
  · intro j; simp only [hR, hW]; exact inv.woken_raised j
  · intro g j; simp only [hS, hA]; exact inv.swept_acked g j

omit [NeZero N] in
/-- The broadcaster's place after storing into hart `i`'s word raises exactly the words up to
`i`. -/
theorem raised_after_store (i j : Fin N) :
    ((nextHart i).elim Pc.wfi Pc.broadcast : Pc N).raised j ↔ j.val ≤ i.val := by
  cases hnext : nextHart i with
  | none =>
    have := nextHart_eq_none.mp hnext
    simp only [Option.elim, Pc.raised, true_iff]
    omega
  | some k =>
    have := nextHart_eq_some.mp hnext
    simp only [Option.elim, Pc.raised, decide_eq_true_eq, Fin.lt_def]
    omega

/-- `sw` of `1` into hart `i`'s word by the broadcaster keeps `Core`. -/
theorem Core.broadcast (inv : Core s) {i : Fin N} (hpc : s.pc h = .broadcast i) :
    Core { s with
      msip := writeMsip s.msip i 1
      pc := Function.update s.pc h ((nextHart i).elim .wfi .broadcast) } := by
  obtain rfl := inv.broadcaster h i hpc
  have hA := view_update Pc.acked s.pc ZERO_HART ((nextHart i).elim .wfi .broadcast)
    (by rw [hpc]; cases nextHart i <;> rfl)
  have hW := view_update Pc.woken s.pc ZERO_HART ((nextHart i).elim .wfi .broadcast)
    (by rw [hpc]; cases nextHart i <;> rfl)
  have hS := view_update Pc.swept s.pc ZERO_HART ((nextHart i).elim .wfi .broadcast)
    (by rw [hpc]; cases nextHart i <;> rfl)
  -- The new place raises exactly one more word, `i`.
  have hR : ∀ j, (Function.update s.pc ZERO_HART ((nextHart i).elim .wfi .broadcast)
      ZERO_HART).raised j ↔ ((s.pc ZERO_HART).raised j ∨ j = i) := by
    intro j
    rw [Function.update_same, raised_after_store, hpc]
    simp only [Pc.raised, decide_eq_true_eq, Fin.lt_def, Fin.ext_iff]
    omega
  -- The word stored is not yet acknowledged: its owner has not been woken.
  have fresh : (s.pc i).acked = false := by
    by_contra acked
    have := inv.woken_raised i (Pc.woken_of_acked (by simpa using acked))
    simp [hpc, Pc.raised] at this
  refine ⟨fun j k hj => ?_, fun j hj => ?_, fun j hr ha => ?_, fun j hm ha => ?_,
    fun j hw => ?_, fun g j hj => ?_⟩
  · by_cases hjz : j = ZERO_HART
    · exact hjz
    · exact inv.broadcaster j k (by simpa [Function.update_noteq hjz] using hj)
  · by_cases hjz : j = ZERO_HART
    · subst hjz; exact inv.mie_eq _ (by rw [hpc]; exact nofun)
    · exact inv.mie_eq j (by simpa [Function.update_noteq hjz] using hj)
  · simp only [hA] at hr ha ⊢
    by_cases hji : j = i
    · subst hji; simp
    · rw [writeMsip_ne _ _ hji]; exact inv.pending j (((hR j).mp hr).resolve_right hji) ha
  · simp only [hA] at hm ha ⊢
    refine (hR j).mpr ?_
    by_cases hji : j = i
    · exact Or.inr hji
    · exact Or.inl (inv.raised_of_set j (by rwa [writeMsip_ne _ _ hji] at hm) ha)
  · simp only [hW] at hw ⊢
    exact (hR j).mpr (Or.inl (inv.woken_raised j hw))
  · simp only [hS, hA] at hj ⊢
    exact inv.swept_acked g j hj

/-- A `mip` check that finds `MSIP` set wakes a hart whose word was raised. -/
theorem Core.wake (inv : Core s) (hpc : s.pc h = .checkMip) (set : s.msip h ≠ 0) :
    Core { s with pc := Function.update s.pc h .ack } := by
  have hA := view_update Pc.acked s.pc h .ack (by rw [hpc]; rfl)
  have hS := view_update Pc.swept s.pc h .ack (by rw [hpc]; rfl)
  have hR : (Function.update s.pc h .ack ZERO_HART).raised = (s.pc ZERO_HART).raised := by
    by_cases hz : h = ZERO_HART
    · subst hz; rw [Function.update_same, hpc]; rfl
    · rw [Function.update_noteq (Ne.symm hz)]
  refine ⟨fun j i hj => ?_, fun j hj => ?_, ?_, ?_, fun j hw => ?_, ?_⟩
  · by_cases hjh : j = h
    · subst hjh; simp at hj
    · exact inv.broadcaster j i (by simpa [Function.update_noteq hjh] using hj)
  · by_cases hjh : j = h
    · subst hjh; exact inv.mie_eq _ (by rw [hpc]; exact nofun)
    · exact inv.mie_eq j (by simpa [Function.update_noteq hjh] using hj)
  · intro j; simp only [hR, hA]; exact inv.pending j
  · intro j; simp only [hR, hA]; exact inv.raised_of_set j
  · simp only [hR] at hw ⊢
    by_cases hjh : j = h
    · subst hjh; exact inv.raised_of_set j set (by rw [hpc]; rfl)
    · exact inv.woken_raised j (by simpa [Function.update_noteq hjh] using hw)
  · intro g j; simp only [hS, hA]; exact inv.swept_acked g j

/-- The store of zero into the hart's own word acknowledges it and starts its sweep. -/
theorem Core.ack (inv : Core s) (hpc : s.pc h = .ack) :
    Core { s with msip := writeMsip s.msip h 0, pc := Function.update s.pc h (.sweep firstWord) } := by
  have hW := view_update Pc.woken s.pc h (.sweep firstWord) (by rw [hpc]; rfl)
  have hR : (Function.update s.pc h (.sweep firstWord) ZERO_HART).raised = (s.pc ZERO_HART).raised := by
    by_cases hz : h = ZERO_HART
    · subst hz; rw [Function.update_same, hpc]; rfl
    · rw [Function.update_noteq (Ne.symm hz)]
  -- Acknowledging only adds `h` to the acknowledged harts.
  have hA : ∀ j, (Function.update s.pc h (.sweep firstWord) j).acked = false →
      j ≠ h ∧ (s.pc j).acked = false := by
    intro j hj
    by_cases hjh : j = h
    · subst hjh; simp [Pc.acked] at hj
    · exact ⟨hjh, by simpa [Function.update_noteq hjh] using hj⟩
  refine ⟨fun j i hj => ?_, fun j hj => ?_, fun j hr ha => ?_, fun j hm ha => ?_,
    fun j hw => ?_, fun g j hj => ?_⟩
  · by_cases hjh : j = h
    · subst hjh; simp at hj
    · exact inv.broadcaster j i (by simpa [Function.update_noteq hjh] using hj)
  · by_cases hjh : j = h
    · subst hjh; exact inv.mie_eq _ (by rw [hpc]; exact nofun)
    · exact inv.mie_eq j (by simpa [Function.update_noteq hjh] using hj)
  · obtain ⟨hjh, ha⟩ := hA j ha
    simp only [hR, writeMsip_ne _ _ hjh] at hr ⊢
    exact inv.pending j hr ha
  · obtain ⟨hjh, ha⟩ := hA j ha
    simp only [hR, writeMsip_ne _ _ hjh] at hm ⊢
    exact inv.raised_of_set j hm ha
  · simp only [hR, hW] at hw ⊢
    exact inv.woken_raised j hw
  · have hg : j.val < (s.pc g).swept := by
      by_cases hgh : g = h
      · subst hgh; simp [Pc.swept] at hj
      · simpa [Function.update_noteq hgh] using hj
    by_cases hjh : j = h
    · subst hjh; simp [Pc.acked]
    · simpa [Function.update_noteq hjh] using inv.swept_acked g j hg

/-- **The sweep's key step.**  A hart whose sweep reads `0` from hart `i`'s word knows that `i`
has acknowledged.  For `i = ZERO_HART` the word was raised before the reader's own; past it,
the broadcaster has acknowledged, so its broadcast loop has ended. -/
theorem Core.acked_of_sweep (inv : Core s) {i : Fin N} (hpc : s.pc h = .sweep i)
    (zero : s.msip i = 0) : (s.pc i).acked := by
  by_contra unacked
  have raised : (s.pc ZERO_HART).raised i := by
    by_cases first : i.val = 0
    · obtain rfl : i = firstWord := Fin.ext first
      exact Pc.raised_zero (inv.woken_raised h (by rw [hpc]; rfl))
    · have := inv.swept_acked h ZERO_HART (by rw [hpc, ZERO_HART_val]; simp [Pc.swept]; omega)
      exact Pc.raised_of_woken (Pc.woken_of_acked this) i
  exact inv.pending i raised (by simpa using unacked) zero

/-- Reading `0` from hart `i`'s word moves the sweep past it. -/
theorem Core.sweep (inv : Core s) {i : Fin N} (hpc : s.pc h = .sweep i) (zero : s.msip i = 0) :
    Core { s with pc := Function.update s.pc h ((nextHart i).elim .done .sweep) } := by
  have next : ∀ {α : Type} (f : Pc N → α), f .done = f (.sweep i) →
      (∀ k, f (.sweep k) = f (.sweep i)) →
      f ((nextHart i).elim .done .sweep) = f (s.pc h) := by
    intro α f hdone hsweep
    rw [hpc]; cases nextHart i with
    | none => exact hdone
    | some k => exact hsweep k
  have hA := view_update Pc.acked s.pc h _ (next Pc.acked rfl fun _ => rfl)
  have hW := view_update Pc.woken s.pc h _ (next Pc.woken rfl fun _ => rfl)
  have hR : (Function.update s.pc h ((nextHart i).elim .done .sweep) ZERO_HART).raised =
      (s.pc ZERO_HART).raised := by
    by_cases hz : h = ZERO_HART
    · subst hz; rw [Function.update_same]; exact next Pc.raised rfl fun _ => rfl
    · rw [Function.update_noteq (Ne.symm hz)]
  have passed := inv.acked_of_sweep hpc zero
  refine ⟨fun j k hj => ?_, fun j hj => ?_, ?_, ?_, ?_, fun g j hj => ?_⟩
  · by_cases hjh : j = h
    · subst hjh; simp only [Function.update_same] at hj; revert hj; cases nextHart i <;> simp
    · exact inv.broadcaster j k (by simpa [Function.update_noteq hjh] using hj)
  · by_cases hjh : j = h
    · subst hjh; exact inv.mie_eq _ (by rw [hpc]; exact nofun)
    · exact inv.mie_eq j (by simpa [Function.update_noteq hjh] using hj)
  · intro j; simp only [hR, hA]; exact inv.pending j
  · intro j; simp only [hR, hA]; exact inv.raised_of_set j
  · intro j; simp only [hR, hW]; exact inv.woken_raised j
  · rw [hA]
    by_cases hgh : g = h
    · subst hgh
      simp only [Function.update_same] at hj
      -- The sweep now stands one word further: the new word is `i` itself.
      have : j.val < i.val ∨ j = i := by
        cases hnext : nextHart i with
        | none =>
          have := nextHart_eq_none.mp hnext
          rw [hnext] at hj; simp only [Option.elim, Pc.swept] at hj
          rcases Nat.lt_or_ge j.val i.val with lt | ge
          · exact Or.inl lt
          · exact Or.inr (Fin.ext (by omega))
        | some k =>
          have := nextHart_eq_some.mp hnext
          rw [hnext] at hj; simp only [Option.elim, Pc.swept] at hj
          rcases Nat.lt_or_ge j.val i.val with lt | ge
          · exact Or.inl lt
          · exact Or.inr (Fin.ext (by omega))
      rcases this with lt | rfl
      · exact inv.swept_acked g j (by rw [hpc]; exact lt)
      · exact passed
    · exact inv.swept_acked g j (by simpa [Function.update_noteq hgh] using hj)

/-- **`Core` is preserved by every step of every hart.** -/
theorem Core.step (inv : Core s) {s' : State N} (hstep : step s h = some s') : Core s' := by
  cases hpc : s.pc h with
  | pause =>
    simp only [Barrier.step, hpc, Option.some.injEq] at hstep
    subst hstep
    refine inv.move _ (by rw [hpc]; split <;> rfl) (by rw [hpc]; split <;> rfl)
      (by rw [hpc]; split <;> rfl) ?_ ?_ ?_
    · intro hz; subst hz; funext j; simp [hpc, Pc.raised, Fin.le_def]
    · intro i hi; by_contra hz; simp [hz] at hi
    · intro j hj
      by_cases hjh : j = h
      · subst hjh; simp
      · rw [Function.update_noteq hjh]
        exact inv.mie_eq j (by simpa [Function.update_noteq hjh] using hj)
  | broadcast i =>
    simp only [Barrier.step, hpc, Option.some.injEq] at hstep
    subst hstep; exact inv.broadcast hpc
  | wfi =>
    simp only [Barrier.step, hpc] at hstep
    split at hstep
    · cases hstep
      exact inv.move s.mie (by rw [hpc]; rfl) (by rw [hpc]; rfl) (by rw [hpc]; rfl)
        (fun _ => by rw [hpc]; rfl) (fun _ h => nomatch h) (inv.mie_ok (by rw [hpc]; exact nofun))
    · cases hstep
  | checkMip =>
    simp only [Barrier.step, hpc, Option.some.injEq] at hstep
    subst hstep
    split
    · exact inv.move s.mie (by rw [hpc]; rfl) (by rw [hpc]; rfl) (by rw [hpc]; rfl)
        (fun _ => by rw [hpc]; rfl) (fun _ h => nomatch h) (inv.mie_ok (by rw [hpc]; exact nofun))
    · rename_i set
      exact inv.wake hpc (by simpa using set)
  | ack =>
    simp only [Barrier.step, hpc, Option.some.injEq] at hstep
    subst hstep; exact inv.ack hpc
  | sweep i =>
    simp only [Barrier.step, hpc] at hstep
    split at hstep
    · cases hstep; exact inv
    · rename_i zero
      cases hstep; exact inv.sweep hpc (by simpa using zero)
  | done => simp [Barrier.step, hpc] at hstep

/-- **The barrier alone keeps acknowledged words at `0`**: only the broadcast stores a `1`,
and never into the word of a hart that has acknowledged. -/
theorem Clean.step (inv : Core s) (clean : Clean s) {s' : State N}
    (hstep : step s h = some s') : Clean s' := by
  intro j hj
  have acked_of := step_acked hstep hj
  rcases step_msip hstep with ⟨not_ack, same⟩ | ⟨i, hpc, stored⟩ | ⟨hpc, stored⟩
  · rw [same]
    exact clean j (acked_of.resolve_right fun ⟨_, bad⟩ => not_ack bad)
  · have old := acked_of.resolve_right fun ⟨_, bad⟩ => by rw [hpc] at bad; cases bad
    obtain rfl := inv.broadcaster h i hpc
    -- The broadcast never stores into the word of a hart that has acknowledged.
    have fresh : j ≠ i := by
      rintro rfl
      have := inv.woken_raised j (Pc.woken_of_acked old)
      simp [hpc, Pc.raised] at this
    rw [stored, writeMsip_ne _ _ fresh]
    exact clean j old
  · rw [stored]
    by_cases hjh : j = h
    · subst hjh; simp
    · rw [writeMsip_ne _ _ hjh]
      exact clean j (acked_of.resolve_right fun ⟨bad, _⟩ => hjh bad)

theorem Reachable.core {s : State N} (hs : Reachable s) : Core s := by
  induction hs with
  | init mie => exact core_init mie
  | step h _ hstep ih => exact ih.step hstep

theorem Reachable.clean {s : State N} (hs : Reachable s) : Clean s := by
  induction hs with
  | init mie => exact clean_init mie
  | step h hs hstep ih => exact Clean.step hs.core ih hstep

/-! ## After the barrier -/

/-- Once one hart has left the sweep, every hart has acknowledged. -/
theorem Core.acked_of_done (inv : Core s) (left : s.pc h = .done) (j : Fin N) :
    (s.pc j).acked :=
  inv.swept_acked h j (by rw [left]; exact j.isLt)

/-- Code that moves no hart within the barrier, sets `mie` to nothing but `MIP_MSIP` and stores
only into the words of acknowledged harts keeps `Core`: the code after the barrier is such. -/
theorem Core.frame (inv : Core s) {s' : State N} (pc_eq : s'.pc = s.pc)
    (mie_ok : ∀ j, s'.mie j = s.mie j ∨ s'.mie j = MIP_MSIP)
    (msip_eq : ∀ j, (s.pc j).acked = false → s'.msip j = s.msip j) : Core s' := by
  refine ⟨?_, fun j hj => ?_, fun j hr ha => ?_, fun j hm ha => ?_, ?_, ?_⟩
  · rw [pc_eq]; exact inv.broadcaster
  · rw [pc_eq] at hj
    rcases mie_ok j with e | e <;> rw [e]
    exact inv.mie_eq j hj
  · rw [pc_eq] at hr ha
    rw [msip_eq j ha]; exact inv.pending j hr ha
  · rw [pc_eq] at ha ⊢
    exact inv.raised_of_set j (by rwa [← msip_eq j ha]) ha
  · rw [pc_eq]; exact inv.woken_raised
  · rw [pc_eq]; exact inv.swept_acked

/-! ## The rendezvous -/

/-- **Barrier rendezvous safety.**  In every reachable state of every interleaving, once any
hart, the broadcaster or a secondary, has left the final sweep of `smp_resume`, every hart has
executed its acknowledging store of zero into its own word, and all `N` msip words are `0`. -/
theorem barrier_rendezvous (s : State N) (hs : Reachable s) (h : Fin N)
    (left : s.pc h = .done) : (∀ j, (s.pc j).acked) ∧ ∀ j, s.msip j = 0 := by
  have acked : ∀ j, (s.pc j).acked := fun j =>
    hs.core.swept_acked h j (by rw [left]; exact j.isLt)
  exact ⟨acked, fun j => hs.clean j (acked j)⟩

/-- A run of the firmware's five harts: each through `smp_pause`, the broadcast, each hart's
wake-up, check and acknowledging store, and then hart `1`'s sweep. -/
private def secondaryFirst : List (Fin MAX_HARTS) :=
  [0, 1, 2, 3, 4] ++ List.replicate 5 0 ++ [0, 0, 0, 1, 1, 1, 2, 2, 2, 3, 3, 3, 4, 4, 4] ++
    List.replicate 5 1

/-- Hart `1`, a secondary, leaves the barrier while the broadcaster is still in its sweep, and
the rendezvous holds there. -/
theorem secondary_leaves_first :
    ∃ s : State MAX_HARTS, Reachable s ∧ s.pc 1 = .done ∧ s.pc ZERO_HART ≠ .done ∧
      ((∀ j, (s.pc j).acked) ∧ ∀ j, s.msip j = 0) := by
  obtain ⟨s, ran, left, sweeping⟩ : ∃ s ∈ run (State.init fun _ => 0) secondaryFirst,
      s.pc 1 = .done ∧ s.pc ZERO_HART ≠ .done := by decide
  have hs := (Reachable.init _).run ran
  exact ⟨s, hs, left, sweeping, barrier_rendezvous s hs 1 left⟩

end TCoreSbi.Barrier
