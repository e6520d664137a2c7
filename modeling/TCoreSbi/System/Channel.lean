import TCoreSbi.Platform

/-!
# The mailbox channel: what `test_ipi` and `other_main` are for

After the barrier the primary hands lines to the secondaries one at a time.  It fills the
mailbox at `SMP_ADDR`, raises the target's software interrupt, and waits for its own; the
target's `wait_ipi` returns, it prints the mailbox and raises the primary's interrupt.  This
module states that protocol on its own terms, as an automaton over the events the harts
produce: `TCoreSbi.System` logs those events at the instructions that produce them, and
`TCoreSbi.System.Invariant` proves that this automaton accepts every log the code can produce.

## Design notes

* **One message in flight.**  `Chan` is the channel's state: no message, or a message `m` for
  hart `k` that has been sent, taken by `k`'s `wait_ipi`, printed, or replied to.  Every event
  out of turn is rejected, so acceptance says at once that a secondary prints exactly the line
  the primary sent, that only the target takes and replies, and that the primary's
  `wait_ipi` returns only after the reply.
* **The primary never signals itself**: a send names a hart other than `ZERO_HART`.
-/

namespace TCoreSbi.Mailbox

/-- What the harts do to the mailbox, in the order they do it. -/
inductive Event (N : Nat)
  /-- `clint_send_soft(k)` in `test_ipi`, the mailbox filled with line `m`. -/
  | send (k : Fin N) (m : List UInt8)
  /-- Hart `k`'s `wait_ipi` returns: it has seen and cleared its word. -/
  | take (k : Fin N)
  /-- Hart `k`'s `uart_puts(SMP_ADDR)` returns, having printed `out`. -/
  | print (k : Fin N) (out : List UInt8)
  /-- Hart `k`'s `clint_send_soft(ZERO_HART)`. -/
  | reply (k : Fin N)
  /-- The primary's `wait_ipi(ZERO_HART)` returns. -/
  | wake
  deriving DecidableEq

/-- The channel: empty, or one message for hart `k` at one stage of its handoff. -/
inductive Chan (N : Nat)
  | idle
  | sent (k : Fin N) (m : List UInt8)
  | taken (k : Fin N) (m : List UInt8)
  | printed (k : Fin N)
  | replied (k : Fin N)
  deriving DecidableEq

namespace Chan

variable {N : Nat} [NeZero N]

/-- **The handoff, one event at a time**; `none` for an event out of turn. -/
def step : Chan N → Event N → Option (Chan N)
  | .idle, .send k m => if k ≠ ZERO_HART then some (.sent k m) else none
  | .sent k m, .take j => if j = k then some (.taken k m) else none
  | .taken k m, .print j out => if j = k ∧ out = m then some (.printed k) else none
  | .printed k, .reply j => if j = k then some (.replied k) else none
  | .replied _, .wake => some .idle
  | _, _ => none

/-- The channel after a sequence of events, `none` once one is out of turn. -/
def run (c : Chan N) : List (Event N) → Option (Chan N)
  | [] => some c
  | e :: es => (c.step e).bind fun c' => c'.run es

@[simp] theorem run_nil (c : Chan N) : c.run [] = some c := rfl

/-- Logs grow at the end, so the run is read from the end too. -/
theorem run_append_event (c : Chan N) (es : List (Event N)) (e : Event N) :
    c.run (es ++ [e]) = (c.run es).bind fun c' => c'.step e := by
  induction es generalizing c with
  | nil => simp [run]
  | cons e' es ih =>
    simp only [List.cons_append, run]
    cases c.step e' with
    | none => rfl
    | some c' => exact ih c'

/-- Two event sequences the channel accepts, one after the other. -/
theorem run_append_of_run {c c' : Chan N} {es : List (Event N)} (ran : c.run es = some c')
    (e : Event N) : c.run (es ++ [e]) = c'.step e := by
  rw [run_append_event, ran, Option.some_bind]

/-- The events that close the round in progress at `c`. -/
def rest : Chan N → List (Event N)
  | .idle => []
  | .sent k m => [.take k, .print k m, .reply k, .wake]
  | .taken k m => [.print k m, .reply k, .wake]
  | .printed k => [.reply k, .wake]
  | .replied _ => [.wake]

end Chan

/-- The channel accepts a log: every event came in turn. -/
def Accepts {N : Nat} [NeZero N] (log : List (Event N)) : Prop := (Chan.idle.run log).isSome

instance {N : Nat} [NeZero N] (log : List (Event N)) : Decidable (Accepts log) :=
  inferInstanceAs (Decidable (_ = true))

/-- A complete round for hart `1` of two: sent, taken, printed as sent, replied, woken. -/
example : Accepts (N := 2)
    [.send 1 [104, 105], .take 1, .print 1 [104, 105], .reply 1, .wake] := by decide

/-- A secondary that prints anything but the line sent breaks the protocol. -/
example : ¬ Accepts (N := 2) [.send 1 [104, 105], .take 1, .print 1 [104]] := by decide

end TCoreSbi.Mailbox
