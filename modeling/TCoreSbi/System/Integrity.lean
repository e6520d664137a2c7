import TCoreSbi.System.Invariant
import TCoreSbi.Memory

/-!
# The integrity of the mailbox

What `Inv` says, read back as statements about the firmware: for every console input and every
interleaving of the harts,

* the mailbox channel accepts the log: a secondary prints exactly the line the primary sent it,
  and the primary's `wait_ipi` returns only after that secondary's reply;
* step by step, the firmware refines the channel: each step is a stutter of it or one of its
  steps;
* when `test_ipi` raises a secondary's word, the mailbox holds the line and its NUL;
* `memcpy` never writes the mailbox while a secondary reads it;
* the primary never reaches undefined behaviour, and every access to the mailbox lies inside
  `SMP_ADDR .. SMP_ADDR + SMP_SIZE`;
* the copy into the mailbox, a byte a step, leaves the mailbox as `memcpy(SMP_ADDR, m, n)` of
  `TCoreSbi.Memory` leaves it, on any memory that holds `buf` apart from the mailbox;
* one secondary at a time prints, while the primary waits for it.

The runs at the end take the line `hi` to hart `1` through the model, one whole handoff and
parts of it, so that each statement is seen to hold of a state where it has something to say.
-/

namespace TCoreSbi.System

open Mailbox

variable {N : Nat} [NeZero N]

/-- **Mailbox handoff integrity.**  In every reachable state: the channel accepts the log, so
every `wait_ipi(ZERO_HART)` after `clint_send_soft(k)` has returned only after hart `k`'s reply
to that message, and every string a secondary has printed with `uart_puts(SMP_ADDR)` is the line
sent to it; when `test_ipi` raises a word, the mailbox holds the line `m` in `buf` and its NUL,
the `strlen(m) + 1` bytes `memcpy` copied; and while `memcpy` writes the mailbox, no hart is
between the return of its `wait_ipi` and its reply. -/
theorem mailbox_handoff_integrity (s : State N) (hs : Reachable s) :
    Accepts s.log ∧
      (∀ k, s.pc ZERO_HART = .main (.send k) → Holds s.smp (cstr s.buf.bytes)) ∧
      ∀ k j n, s.pc ZERO_HART = .main (.copy k j n) → ∀ h, (s.pc h).handling = false := by
  have inv := hs.inv
  obtain ⟨c, hc, -, hsec⟩ := inv.chan
  refine ⟨by simp [Accepts, hc], fun k hpc => ?_, fun k j n hpc h => ?_⟩
  · obtain ⟨-, -, ⟨-, n, hn, copied⟩, -⟩ := inv.idle_main hpc rfl
    exact holds_cstr hn copied
  · obtain ⟨-, hc', -, -⟩ := inv.idle_main hpc rfl
    obtain rfl : c = .idle := Option.some.inj (hc.symm.trans hc')
    by_cases hz : h = ZERO_HART
    · subst hz; rw [hpc]; rfl
    · exact handling_of_calm (by simpa [secondaryOk_of_idle (c := Chan.idle) rfl] using hsec h hz)

/-- **The firmware refines the channel.**  Read through the log, every step of every hart is a
stutter of the channel or one step of it: from a reachable state, a step leaves the channel's
state as it was, or records one event that takes the channel from its state to the new one. -/
theorem step_refines_channel (s : State N) (hs : Reachable s) (h : Fin N) (s' : State N)
    (hstep : step s h = some s') :
    ∃ c, Chan.idle.run s.log = some c ∧
      (Chan.idle.run s'.log = some c ∨
        ∃ e c', s'.log = s.log ++ [e] ∧ c.step e = some c' ∧ Chan.idle.run s'.log = some c') := by
  obtain ⟨c, hc, -⟩ := hs.inv.chan
  obtain ⟨c', hc', -⟩ := (hs.step h hstep).inv.chan
  refine ⟨c, hc, ?_⟩
  rcases (step_frame hstep).2.2 with same | ⟨e, log, -⟩
  · exact .inl (same ▸ hc)
  · exact .inr ⟨e, c', log, by rwa [log, Chan.run_append_of_run hc] at hc', hc'⟩

/-- The barrier on five harts: every hart pauses, the primary raises every word, every hart
wakes, acknowledges and sweeps, and every hart stands at the end of `smp_resume`. -/
def bootSchedule : List (Fin MAX_HARTS) :=
  [0, 1, 2, 3, 4] ++ List.replicate 5 0 ++ [0, 0, 0, 1, 1, 1, 2, 2, 2, 3, 3, 3, 4, 4, 4] ++
    List.replicate 5 0 ++ List.replicate 5 1 ++ List.replicate 5 2 ++ List.replicate 5 3 ++
    List.replicate 5 4

/-- The barrier, then hart `1` starts `other_main` and waits; the primary reads an empty line,
the hart id `1` and the line `hi`, copies it and raises hart `1`'s word; hart `1` takes the
message, prints it and replies; the primary returns from `wait_ipi`. -/
def roundSchedule : List (Fin MAX_HARTS) :=
  bootSchedule ++ [1, 1, 1] ++ List.replicate 11 0 ++ List.replicate 7 1 ++ [0, 0, 0]

/-- The console input of that round: `\r`, `1\r`, `hi\r`. -/
def roundInput : List UInt32 := [13, 49, 13, 104, 105, 13]

set_option maxRecDepth 8000 in
private theorem round_ends :
    ∃ s ∈ run (State.init (fun _ => 0) (fun _ => 0) Buf.zeros roundInput : State MAX_HARTS)
      roundSchedule,
      s.log = [.send 1 [104, 105], .take 1, .print 1 [104, 105], .reply 1, .wake] := by
  decide

/-- The line `hi` handed to hart `1` and back: the log holds one complete round, and the
integrity statement holds there. -/
theorem full_round_reachable :
    ∃ s : State MAX_HARTS, Reachable s ∧
      s.log = [.send 1 [104, 105], .take 1, .print 1 [104, 105], .reply 1, .wake] ∧
      (Accepts s.log ∧
        (∀ k, s.pc ZERO_HART = .main (.send k) → Holds s.smp (cstr s.buf.bytes)) ∧
        ∀ k j n, s.pc ZERO_HART = .main (.copy k j n) → ∀ h, (s.pc h).handling = false) := by
  obtain ⟨s, ran, log⟩ := round_ends
  have hs := (Reachable.init _ _ _ _).run ran
  exact ⟨s, hs, log, mailbox_handoff_integrity s hs⟩

/-- The barrier, hart `1` waiting in `other_main`, and the primary up to `clint_send_soft(1)` with
the line `hi` copied. -/
def sendSchedule : List (Fin MAX_HARTS) := bootSchedule ++ [1, 1, 1] ++ List.replicate 9 0

set_option maxRecDepth 8000 in
private theorem send_ends :
    ∃ s ∈ run (State.init (fun _ => 0) (fun _ => 0) Buf.zeros roundInput : State MAX_HARTS)
      sendSchedule, ∃ s' ∈ step s ZERO_HART, s'.log = [.send 1 [104, 105]] := by decide

/-- `clint_send_soft(1)` records the send of `hi`, one step of the channel. -/
theorem send_refines_channel :
    ∃ s s' : State MAX_HARTS, Reachable s ∧ step s ZERO_HART = some s' ∧
      s'.log = [.send 1 [104, 105]] ∧
      ∃ c, Chan.idle.run s.log = some c ∧
        (Chan.idle.run s'.log = some c ∨
          ∃ e c', s'.log = s.log ++ [e] ∧ c.step e = some c' ∧ Chan.idle.run s'.log = some c') := by
  obtain ⟨s, ran, s', hstep, log⟩ := send_ends
  have hs := (Reachable.init _ _ _ _).run ran
  exact ⟨s, s', hs, hstep, log, step_refines_channel s hs _ s' hstep⟩

/-! ## No undefined behaviour, and the mailbox's bounds -/

/-- **`test_ipi` has no undefined behaviour.**  No hart ever reaches `MainPc.fault`: `readline`
never returns `NULL` to `readline(NULL)[0]`, never stores outside `buf`, `strlen(m)` finds its NUL
inside `buf`, and `memcpy` reads only bytes of `buf`. -/
theorem primary_never_faults (s : State N) (hs : Reachable s) (h : Fin N) :
    s.pc h ≠ .main .fault := fun hpc => (hs.inv.idle_main hpc rfl).2.2.1

/-- **Every access to the mailbox lies inside it.**  The byte `memcpy(SMP_ADDR, m, strlen(m) + 1)`
copies next lies inside `buf` and inside `SMP_ADDR .. SMP_ADDR + SMP_SIZE`, and so does the byte
a secondary's `uart_puts(SMP_ADDR)` loads next. -/
theorem mailbox_access_in_bounds (s : State N) (hs : Reachable s) :
    (∀ k j n, s.pc ZERO_HART = .main (.copy k j n) → j < n → j < BUFSIZE ∧ j < SMP_SIZE) ∧
      ∀ h out, s.pc h = .other (.print out) → out.length < SMP_SIZE := by
  have inv := hs.inv
  refine ⟨fun k j n hpc lt => ?_, fun h out hpc => ?_⟩
  · obtain ⟨-, -, ⟨-, -, -, found, -⟩, -⟩ := inv.idle_main hpc rfl
    have nul := strlen_lt_length found
    rw [s.buf.length_eq] at nul
    unfold BUFSIZE SMP_SIZE at *
    omega
  · obtain ⟨c, -, prim, sec⟩ := inv.chan
    have hz : h ≠ ZERO_HART := by simpa [hpc, HartPc.RoleOk] using inv.roles h
    obtain ⟨m, rfl, begins, -⟩ := secondaryOk_print (by simpa [hpc] using sec h hz)
    have short : m.length < BUFSIZE := prim.2.2.2.1
    have := begins.length_le
    unfold BUFSIZE SMP_SIZE at *
    omega

/-! ## The mailbox copy is `memcpy` -/

variable {s : State N} {h : Fin N}

/-- **The copy loop**, run to its end by the primary alone: bytes `j .. n - 1` of `buf` land in
the mailbox, and the primary comes to `clint_send_soft`. -/
theorem copy_run {k : Fin N} {j n : Nat} (hpc : s.pc h = .main (.copy k j n)) (hn : n ≤ BUFSIZE)
    (hj : j ≤ n) :
    run s (List.replicate (n - j + 1) h) = some (({ s with
      smp := fun i => if j ≤ i ∧ i < n then (s.buf.load i).getD 0 else s.smp i } : State N).setPc h
        (.main (.send k))) := by
  obtain ⟨m, hm⟩ : ∃ m, n - j = m := ⟨_, rfl⟩
  induction m generalizing s j with
  | zero =>
    obtain rfl : n = j := by omega
    have smp : (fun i => if n ≤ i ∧ i < n then (s.buf.load i).getD 0 else s.smp i) = s.smp :=
      funext fun i => if_neg (by omega)
    simp only [hm, zero_add, List.replicate_one, run, step_main hpc, mainStep, lt_irrefl,
      if_false, Option.some_bind, smp]
  | succ m ih =>
    have lt : j < n := by omega
    obtain ⟨b, hb⟩ : ∃ b, s.buf.load j = some b :=
      ⟨_, List.getElem?_eq_getElem (by rw [s.buf.length_eq]; omega)⟩
    have hstep : step s h = some { s.setPc h (.main (.copy k (j + 1) n)) with
        smp := Function.update s.smp j b } := by
      simp only [step_main hpc, mainStep, if_pos lt, hb]
    have rest := ih (s := { s.setPc h (.main (.copy k (j + 1) n)) with
      smp := Function.update s.smp j b }) (j := j + 1) (by simp [State.setPc]) lt (by omega)
    rw [show n - (j + 1) + 1 = m + 1 by omega] at rest
    rw [hm, List.replicate_succ, run, hstep, Option.some_bind, rest]
    simp only [State.setPc, Function.update_idem]
    congr 2
    funext i
    by_cases hij : i = j
    · subst hij; simp [hb, lt]
    · rw [Function.update_noteq hij]
      split_ifs <;> first | rfl | omega

/-- **The mailbox copy is `memcpy`.**  Take any byte memory `mem` that holds `buf` at an address
`bufAddr` and the mailbox at `SMP_ADDR`, with the two apart.  The primary's copy loop, run
from its first byte by the primary alone, leaves every mailbox byte as `memcpy(SMP_ADDR, buf, n)`
of `libs/string.c` leaves it in `mem`, and the primary comes to `clint_send_soft`. -/
theorem copy_refines_memcpy (s : State N) (h k : Fin N) (n : Nat)
    (hpc : s.pc h = .main (.copy k 0 n)) (hn : n ≤ BUFSIZE) (mem : Nat → UInt8) (bufAddr : Nat)
    (apart : bufAddr + BUFSIZE ≤ SMP_ADDR ∨ SMP_ADDR + SMP_SIZE ≤ bufAddr)
    (hbuf : ∀ i < BUFSIZE, mem (bufAddr + i) = (s.buf.load i).getD 0)
    (hsmp : ∀ i < SMP_SIZE, mem (SMP_ADDR + i) = s.smp i) :
    ∃ t, run s (List.replicate (n + 1) h) = some t ∧ t.pc h = .main (.send k) ∧
      ∀ i < SMP_SIZE, t.smp i = memcpy mem SMP_ADDR bufAddr n (SMP_ADDR + i) := by
  refine ⟨_, by simpa using copy_run hpc hn (Nat.zero_le n), by simp, fun i hi => ?_⟩
  rw [memcpy_apply (by omega)]
  by_cases copied : i < n
  · rw [if_pos ⟨by omega, by omega⟩, Nat.add_sub_cancel_left, hbuf i (by omega)]
    simp [copied]
  · rw [if_neg (by omega), hsmp i hi]
    simp [copied]

/-- The barrier, hart `1` waiting in `other_main`, and the primary about to copy the line `hi`. -/
def copySchedule : List (Fin MAX_HARTS) := bootSchedule ++ [1, 1, 1] ++ List.replicate 5 0

set_option maxRecDepth 8000 in
private theorem copy_ends :
    ∃ s ∈ run (State.init (fun _ => 0) (fun _ => 0) Buf.zeros roundInput : State MAX_HARTS)
      copySchedule, s.pc ZERO_HART = .main (.copy 1 0 3) := by decide

/-- The copy of `hi` and its NUL is `memcpy(SMP_ADDR, buf, 3)` on the memory that holds `buf` at
address `0` and the mailbox at `SMP_ADDR`. -/
theorem copy_hi_is_memcpy :
    ∃ s : State MAX_HARTS, Reachable s ∧ s.pc ZERO_HART = .main (.copy 1 0 3) ∧
      ∃ t, run s (List.replicate 4 ZERO_HART) = some t ∧ t.pc ZERO_HART = .main (.send 1) ∧
        ∀ i < SMP_SIZE, t.smp i = memcpy (fun a => if a < SMP_ADDR then (s.buf.load a).getD 0
          else s.smp (a - SMP_ADDR)) SMP_ADDR 0 3 (SMP_ADDR + i) := by
  obtain ⟨s, ran, hpc⟩ := copy_ends
  refine ⟨s, (Reachable.init _ _ _ _).run ran, hpc,
    copy_refines_memcpy s ZERO_HART 1 3 hpc (by decide) _ 0 (.inl (by decide)) (fun i hi => ?_)
      fun i _ => ?_⟩
  · rw [Nat.zero_add, if_pos (by unfold BUFSIZE SMP_ADDR at *; omega)]
  · rw [if_neg (by omega), Nat.add_sub_cancel_left]

/-- A hart between the return of its `wait_ipi` and its reply holds the message in flight. -/
theorem Inv.partner_of_handling {s : State N} (inv : Inv s) {c : Chan N}
    (hc : Chan.idle.run s.log = some c) {h : Fin N} (handling : (s.pc h).handling) :
    partner c = some h := by
  obtain ⟨c₀, hc₀, -, sec⟩ := inv.chan
  obtain rfl : c = c₀ := Option.some.inj (hc.symm.trans hc₀)
  have hz : h ≠ ZERO_HART := by
    have role := inv.roles h
    rcases hpc : s.pc h with _ | _ | o <;> rw [hpc] at handling role
    · cases handling
    · cases handling
    · exact role
  have calm_false : ¬ (s.pc h).calm := fun calm => by
    rw [handling_of_calm calm] at handling; cases handling
  cases hp : partner c with
  | none => exact absurd ((secondaryOk_of_idle hp).mp (sec h hz)) calm_false
  | some k =>
    by_contra hne
    exact calm_false ((secondaryOk_ne hp fun e => hne (by rw [e])).mp (sec h hz)).1

/-- **The UART is one secondary's at a time.**  A secondary between the return of its `wait_ipi`
and its reply (printing the mailbox with `uart_puts`, or about to reply) is the only one, and the
primary meanwhile waits in `wait_ipi(ZERO_HART)` for it, so no two harts' output interleaves. -/
theorem uart_print_exclusive (s : State N) (hs : Reachable s) (h : Fin N)
    (handling : (s.pc h).handling) :
    (∃ w, s.pc ZERO_HART = .main (.wait h w)) ∧ ∀ j, (s.pc j).handling → j = h := by
  have inv := hs.inv
  obtain ⟨c, hc, prim, -⟩ := inv.chan
  have busy := inv.partner_of_handling hc handling
  exact ⟨(primaryOk_awaits prim busy).2,
    fun j other => Option.some.inj ((inv.partner_of_handling hc other).symm.trans busy)⟩

/-- The barrier, then the round of `roundSchedule` up to hart `1` having printed the `h` of `hi`. -/
def printSchedule : List (Fin MAX_HARTS) :=
  bootSchedule ++ [1, 1, 1] ++ List.replicate 11 0 ++ List.replicate 4 1

set_option maxRecDepth 8000 in
private theorem print_ends :
    ∃ s ∈ run (State.init (fun _ => 0) (fun _ => 0) Buf.zeros roundInput : State MAX_HARTS)
      printSchedule, s.pc 1 = .other (.print [104]) := by decide

private theorem print_reachable :
    ∃ s : State MAX_HARTS, Reachable s ∧ s.pc 1 = .other (.print [104]) :=
  have ⟨s, ran, pc⟩ := print_ends
  ⟨s, (Reachable.init _ _ _ _).run ran, pc⟩

/-- Hart `1` printing `hi`, and no hart at a fault. -/
theorem printing_never_faults :
    ∃ s : State MAX_HARTS, Reachable s ∧ s.pc 1 = .other (.print [104]) ∧
      ∀ h, s.pc h ≠ .main .fault :=
  have ⟨s, hs, pc⟩ := print_reachable
  ⟨s, hs, pc, primary_never_faults s hs⟩

/-- Hart `1` printing `hi`, its next load inside the mailbox. -/
theorem printing_in_bounds :
    ∃ s : State MAX_HARTS, Reachable s ∧ s.pc 1 = .other (.print [104]) ∧
      ((∀ k j n, s.pc ZERO_HART = .main (.copy k j n) → j < n → j < BUFSIZE ∧ j < SMP_SIZE) ∧
        ∀ h out, s.pc h = .other (.print out) → out.length < SMP_SIZE) :=
  have ⟨s, hs, pc⟩ := print_reachable
  ⟨s, hs, pc, mailbox_access_in_bounds s hs⟩

/-- Hart `1` printing `hi` holds the UART alone, the primary waiting for it. -/
theorem printing_exclusive :
    ∃ s : State MAX_HARTS, Reachable s ∧ (s.pc 1).handling ∧
      ((∃ w, s.pc ZERO_HART = .main (.wait 1 w)) ∧ ∀ j, (s.pc j).handling → j = 1) :=
  have ⟨s, hs, pc⟩ := print_reachable
  have handling : (s.pc 1).handling := by rw [pc]; rfl
  ⟨s, hs, handling, uart_print_exclusive s hs 1 handling⟩

end TCoreSbi.System
