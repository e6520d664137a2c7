import TCoreSbi.System.Step
import TCoreSbi.Barrier.Invariant

/-!
# The handoff invariant, and the integrity of the mailbox

The primary and a secondary share the mailbox without a lock: the primary writes it only while
no secondary is between the return of its `wait_ipi` and its reply, and a secondary reads it
only in that window.  What keeps the two apart is the order of the msip stores, and that order
is an invariant of every interleaving, stated here against the channel of `TCoreSbi.Mailbox`.

`Inv` holds in every reachable state:

* **`core`** — the barrier's invariant holds of the projection `State.toBarrier`.  After the
  barrier every hart has acknowledged, and `Barrier.Core` mentions the words only of harts that
  have not, so the code after the barrier keeps it (`Barrier.Core.frame`);
* **`roles`** — only `ZERO_HART` runs `main`, and only the others run `other_main`;
* **`clearing`** — a hart at the clear that ends `wait_ipi` sees its own word set;
* **`chan`** — the channel accepts the log, and its state `c` says where everyone is:
  `primaryOk` for the primary (while idle, how much of the line `memcpy` has copied; once
  sent, that the mailbox holds the line and where the primary waits) and `secondaryOk` for
  each secondary (only the partner of the message in flight holds it; every other secondary
  is calm and its word is `0`).

Each kind of step keeps `Inv` by its own lemma below; `Inv.step` dispatches on the stepping
hart's place.
-/

namespace TCoreSbi.System

open Mailbox

section Places

variable {N : Nat}

namespace HartPc

/-- A secondary that holds no message: in the barrier, at `other_main`'s startup clear, or in
`wait_ipi` before it has seen its word set. -/
def calm : HartPc N → Bool
  | .boot _ | .other .clear | .other (.wait .check) | .other (.wait .wfi) => true
  | _ => false

/-- Between the return of `wait_ipi` and the reply after it. -/
def handling : HartPc N → Bool
  | .other (.print _) | .other .reply => true
  | _ => false

/-- At the clear that ends `wait_ipi`, which only a set `MSIP` bit leads to. -/
def clearing : HartPc N → Bool
  | .main (.wait _ .clear) | .other (.wait .clear) => true
  | _ => false

/-- Only `ZERO_HART` runs `main`, and only the others run `other_main`. -/
def RoleOk [NeZero N] (h : Fin N) : HartPc N → Prop
  | .boot _ => True
  | .main _ => h = ZERO_HART
  | .other _ => h ≠ ZERO_HART

end HartPc

/-- The mailbox holds the C string `m`: its bytes, then a NUL. -/
def Holds (smp : Nat → UInt8) (m : List UInt8) : Prop :=
  ∀ j ≤ m.length, some (smp j) = (m ++ [0])[j]?

/-- The secondary a message in flight is for. -/
def partner : Chan N → Option (Fin N)
  | .idle => none
  | .sent k _ | .taken k _ | .printed k | .replied k => some k

/-- What channel state `c` says of the partner, at `p` with word `v`. -/
def partnerOk : Chan N → HartPc N → UInt32 → Prop
  | .idle, _, _ => True
  | .sent _ _, p, _ => p.calm ∨ p = .other (.wait .clear)
  | .taken _ m, p, v => v = 0 ∧ ∃ out, p = .other (.print out) ∧ out <+: m
  | .printed _, p, v => v = 0 ∧ p = .other .reply
  | .replied _, p, v => p.calm ∧ v = 0

/-- What channel state `c` says of secondary `j`, at `p` with word `v`: the partner as
`partnerOk` says, every other secondary calm, with its word at `0` once a message is in
flight. -/
def secondaryOk (c : Chan N) (j : Fin N) (p : HartPc N) (v : UInt32) : Prop :=
  match partner c with
  | none => p.calm
  | some k => if j = k then partnerOk c p v else p.calm ∧ v = 0

/-! ## Reading the channel's state -/

section Reading

variable {c : Chan N} {j k : Fin N} {p p' : HartPc N} {v v' : UInt32}

theorem secondaryOk_of_idle (hc : partner c = none) : secondaryOk c j p v ↔ p.calm := by
  simp only [secondaryOk, hc]

theorem secondaryOk_partner (hc : partner c = some k) : secondaryOk c k p v ↔ partnerOk c p v := by
  simp only [secondaryOk, hc, if_true]

theorem secondaryOk_ne (hc : partner c = some k) (hj : j ≠ k) :
    secondaryOk c j p v ↔ p.calm ∧ v = 0 := by
  simp only [secondaryOk, hc, hj, if_false]

/-- A calm partner moving to a calm place, its word unchanged or cleared, stays acceptable. -/
theorem partnerOk_calm (ok : partnerOk c p v) (calm : p.calm) (calm' : p'.calm)
    (word : v' = v ∨ v' = 0) : partnerOk c p' v' := by
  cases c with
  | idle => trivial
  | sent k m => exact Or.inl calm'
  | taken k m => obtain ⟨-, out, rfl, -⟩ := ok; cases calm
  | printed k => obtain ⟨-, rfl⟩ := ok; cases calm
  | replied k => exact ⟨calm', by rcases word with rfl | rfl; exacts [ok.2, rfl]⟩

/-- A calm secondary moving to a calm place, its word unchanged or cleared, stays acceptable. -/
theorem secondaryOk_calm (ok : secondaryOk c j p v) (calm : p.calm) (calm' : p'.calm)
    (word : v' = v ∨ v' = 0) : secondaryOk c j p' v' := by
  cases hc : partner c with
  | none => rw [secondaryOk_of_idle hc] at ok ⊢; exact calm'
  | some k =>
    by_cases hj : j = k
    · subst hj
      rw [secondaryOk_partner hc] at ok ⊢
      exact partnerOk_calm ok calm calm' word
    · rw [secondaryOk_ne hc hj] at ok ⊢
      exact ⟨calm', by rcases word with rfl | rfl; exacts [ok.2, rfl]⟩

/-- A calm secondary that sees its word set while a message is in flight is the partner of a
message just sent. -/
theorem secondaryOk_wake (ok : secondaryOk c j p v) (calm : p.calm) (set : v ≠ 0)
    (busy : partner c ≠ none) : secondaryOk c j (.other (.wait .clear)) v := by
  cases hc : partner c with
  | none => exact absurd hc busy
  | some k =>
    by_cases hj : j = k
    · subst hj
      rw [secondaryOk_partner hc] at ok ⊢
      cases c with
      | idle => cases hc
      | sent k m => exact Or.inr rfl
      | taken k m => obtain ⟨-, out, rfl, -⟩ := ok; cases calm
      | printed k => obtain ⟨-, rfl⟩ := ok; cases calm
      | replied k => exact absurd ok.2 set
    · rw [secondaryOk_ne hc hj] at ok
      exact absurd ok.2 set

/-- Only the partner of a message just sent clears its word in `wait_ipi`. -/
theorem secondaryOk_clearing (ok : secondaryOk c j (.other (.wait .clear)) v) :
    ∃ m, c = .sent j m := by
  cases hc : partner c with
  | none => rw [secondaryOk_of_idle hc] at ok; cases ok
  | some k =>
    by_cases hj : j = k
    · subst hj
      rw [secondaryOk_partner hc] at ok
      cases c with
      | sent k m => obtain rfl : k = j := by simpa [partner] using hc
                    exact ⟨m, rfl⟩
      | idle => cases hc
      | taken k m => obtain ⟨-, out, bad, -⟩ := ok; cases bad
      | printed k => obtain ⟨-, bad⟩ := ok; cases bad
      | replied k => cases ok.1
    · rw [secondaryOk_ne hc hj] at ok; cases ok.1

/-- Only the partner of a message taken prints, and what it has printed begins the message. -/
theorem secondaryOk_print {out : List UInt8} (ok : secondaryOk c j (.other (.print out)) v) :
    ∃ m, c = .taken j m ∧ out <+: m ∧ v = 0 := by
  cases hc : partner c with
  | none => rw [secondaryOk_of_idle hc] at ok; cases ok
  | some k =>
    by_cases hj : j = k
    · subst hj
      rw [secondaryOk_partner hc] at ok
      cases c with
      | taken k m =>
        obtain rfl : k = j := by simpa [partner] using hc
        obtain ⟨zero, out', same, begins⟩ := ok
        cases same
        exact ⟨m, rfl, begins, zero⟩
      | idle => cases hc
      | sent k m => rcases ok with bad | bad <;> cases bad
      | printed k => obtain ⟨-, bad⟩ := ok; cases bad
      | replied k => cases ok.1
    · rw [secondaryOk_ne hc hj] at ok; cases ok.1

/-- Only the partner of a message printed replies. -/
theorem secondaryOk_reply (ok : secondaryOk c j (.other .reply) v) : c = .printed j ∧ v = 0 := by
  cases hc : partner c with
  | none => rw [secondaryOk_of_idle hc] at ok; cases ok
  | some k =>
    by_cases hj : j = k
    · subst hj
      rw [secondaryOk_partner hc] at ok
      cases c with
      | printed k =>
        obtain rfl : k = j := by simpa [partner] using hc
        exact ⟨rfl, ok.1⟩
      | idle => cases hc
      | sent k m => rcases ok with bad | bad <;> cases bad
      | taken k m => obtain ⟨-, out, bad, -⟩ := ok; cases bad
      | replied k => cases ok.1
    · rw [secondaryOk_ne hc hj] at ok; cases ok.1

/-- Secondaries that do not step keep what the channel says of them. -/
theorem secondaries_step {c' : Chan N} {s s' : State N} {h : Fin N} [NeZero N]
    (old : ∀ j ≠ ZERO_HART, secondaryOk c j (s.pc j) (s.msip j))
    (pc_ne : ∀ j ≠ h, s'.pc j = s.pc j)
    (msip_ne : ∀ j ≠ h, j ≠ ZERO_HART → s'.msip j = s.msip j)
    (others : ∀ j ≠ h, ∀ p v, secondaryOk c j p v → secondaryOk c' j p v)
    (own : h ≠ ZERO_HART → secondaryOk c' h (s'.pc h) (s'.msip h)) :
    ∀ j ≠ ZERO_HART, secondaryOk c' j (s'.pc j) (s'.msip j) := by
  intro j hj
  by_cases hjh : j = h
  · subst hjh; exact own hj
  · rw [pc_ne j hjh, msip_ne j hjh hj]; exact others j hjh _ _ (old j hj)

end Reading

/-- One more byte of `m` read after a proper beginning of it is still a beginning of it. -/
theorem begins_append_next {out m : List UInt8} (begins : out <+: m) (lt : out.length < m.length) :
    out ++ [m[out.length]] <+: m := by
  obtain ⟨t, rfl⟩ := begins
  cases t with
  | nil => simp at lt
  | cons b t => exact ⟨t, by simp [List.getElem_append_right]⟩

/-- The primary is in `wait_ipi`. -/
def MainPc.waiting : MainPc N → Bool
  | .wait _ _ => true
  | _ => false

/-- Outside `wait_ipi` the primary is at no clear. -/
theorem clearing_main {m : MainPc N} (idle : m.waiting = false) :
    (HartPc.main m : HartPc N).clearing = false := by
  cases m <;> first | rfl | cases idle

/-- Every secondary is calm with its word at `0` once the partner has replied. -/
theorem secondaryOk_replied {k j : Fin N} {p : HartPc N} {v : UInt32}
    (ok : secondaryOk (.replied k) j p v) : p.calm ∧ v = 0 := by
  by_cases hj : j = k
  · subst hj; rwa [secondaryOk_partner (c := .replied j) rfl] at ok
  · rwa [secondaryOk_ne (c := .replied k) rfl hj] at ok

/-- Once `memcpy` has copied `strlen(m) + 1` bytes of `buf`, the mailbox holds the C string in
`buf`. -/
theorem holds_cstr {buf : Buf} {smp : Nat → UInt8} {n : Nat} (found : strlen buf.bytes = some n)
    (copied : ∀ i ≤ n, buf.load i = some (smp i)) : Holds smp (cstr buf.bytes) := by
  obtain ⟨len, spelled⟩ := getElem?_of_strlen found
  intro j hj
  rw [← spelled j (by omega)]
  exact (copied j (by omega)).symm

/-- A calm secondary is not handling a message. -/
theorem handling_of_calm {p : HartPc N} (calm : p.calm) : p.handling = false := by
  rcases p with _ | _ | (_ | _ | _ | _) <;> first | rfl | cases calm

end Places

variable {N : Nat} [NeZero N]

/-! ## What the channel's state says -/

/-- The primary's place while no message is in flight: any chosen target is a secondary, and
the bytes `memcpy` has copied so far are `buf`'s. -/
def idleMain (buf : Buf) (smp : Nat → UInt8) : HartPc N → Prop
  | .boot _ | .main .console | .main .clear | .main .askHart => True
  | .main (.askMsg k) => k ≠ ZERO_HART
  | .main (.copy k j n) =>
    k ≠ ZERO_HART ∧ 0 < n ∧ j ≤ n ∧ strlen buf.bytes = some (n - 1) ∧
      ∀ i < j, buf.load i = some (smp i)
  | .main (.send k) =>
    k ≠ ZERO_HART ∧ ∃ n, strlen buf.bytes = some n ∧ ∀ i ≤ n, buf.load i = some (smp i)
  | _ => False

/-- The primary waits in `wait_ipi` after its send to the secondary `k`. -/
def Awaits (s : State N) (k : Fin N) : Prop :=
  k ≠ ZERO_HART ∧ ∃ w, s.pc ZERO_HART = .main (.wait k w)

/-- What channel state `c` says of the primary, the mailbox and the primary's word. -/
def primaryOk : Chan N → State N → Prop
  | .idle, s => Barrier.Clean s.toBarrier ∧ idleMain s.buf s.smp (s.pc ZERO_HART)
  | .sent k m, s | .taken k m, s =>
    Awaits s k ∧ Holds s.smp m ∧ (0 : UInt8) ∉ m ∧ m.length < BUFSIZE ∧ s.msip ZERO_HART = 0
  | .printed k, s => Awaits s k ∧ s.msip ZERO_HART = 0
  | .replied k, s => Awaits s k ∧ s.msip ZERO_HART ≠ 0

/-- **The invariant of the whole firmware.** -/
structure Inv (s : State N) : Prop where
  core : Barrier.Core s.toBarrier
  roles : ∀ h, (s.pc h).RoleOk h
  clearing : ∀ h, (s.pc h).clearing → s.msip h ≠ 0
  chan : ∃ c, Chan.idle.run s.log = some c ∧ primaryOk c s ∧
    ∀ j ≠ ZERO_HART, secondaryOk c j (s.pc j) (s.msip j)


/-! ## The primary's place and the channel -/

section Primary

variable {c : Chan N} {s s' : State N}

/-- While the primary is anywhere but `wait_ipi`, no message is in flight. -/
theorem primaryOk_idle (ok : primaryOk c s) (idle : ∀ k w, s.pc ZERO_HART ≠ .main (.wait k w)) :
    c = .idle := by
  cases c with
  | idle => rfl
  | _ => obtain ⟨⟨-, w, hw⟩, -⟩ := ok; exact absurd hw (idle _ w)

/-- While the primary waits after its send to `k`, `k` is the partner. -/
theorem primaryOk_busy {k : Fin N} {w : WaitPc} (ok : primaryOk c s)
    (hpc : s.pc ZERO_HART = .main (.wait k w)) : partner c = some k := by
  cases c with
  | idle => have := ok.2; rw [hpc] at this; exact this.elim
  | _ =>
    obtain ⟨⟨-, w', hw⟩, -⟩ := ok
    rw [hpc] at hw
    cases hw
    rfl

theorem primaryOk_awaits {k : Fin N} (ok : primaryOk c s) (hc : partner c = some k) :
    Awaits s k := by
  cases c <;> simp only [partner, Option.some.injEq, reduceCtorEq] at hc <;> (subst hc; exact ok.1)

/-- What is said of the primary survives a step that leaves its place, its word, the mailbox and
`buf` alone. -/
theorem primaryOk_frame (ok : primaryOk c s) (pc0 : s'.pc ZERO_HART = s.pc ZERO_HART)
    (msip0 : s'.msip ZERO_HART = s.msip ZERO_HART) (smp : s'.smp = s.smp) (buf : s'.buf = s.buf)
    (clean : c = .idle → Barrier.Clean s'.toBarrier) : primaryOk c s' := by
  cases c with
  | idle => exact ⟨clean rfl, by rw [pc0, smp, buf]; exact ok.2⟩
  | _ => simpa only [primaryOk, Awaits, pc0, msip0, smp] using ok

/-- The primary moving inside `wait_ipi` keeps what is said of it. -/
theorem primaryOk_wait {k : Fin N} {w w' : WaitPc} (ok : primaryOk c s)
    (hpc : s.pc ZERO_HART = .main (.wait k w)) (hpc' : s'.pc ZERO_HART = .main (.wait k w'))
    (msip0 : s'.msip ZERO_HART = s.msip ZERO_HART) (smp : s'.smp = s.smp) : primaryOk c s' := by
  have awaits : ∀ {j}, Awaits s j → Awaits s' j := fun ⟨hj, _, hw⟩ => by
    rw [hpc] at hw; cases hw; exact ⟨hj, w', hpc'⟩
  cases c with
  | idle => have := ok.2; rw [hpc] at this; exact this.elim
  | sent j m | taken j m =>
    obtain ⟨hj, hold, nz, short, zero⟩ := ok
    exact ⟨awaits hj, by rw [smp]; exact hold, nz, short, by rw [msip0]; exact zero⟩
  | printed j => exact ⟨awaits ok.1, by rw [msip0]; exact ok.2⟩
  | replied j => exact ⟨awaits ok.1, by rw [msip0]; exact ok.2⟩

/-- The primary's word is set while it waits only once the partner has replied. -/
theorem primaryOk_replied {k : Fin N} {w : WaitPc} (ok : primaryOk c s)
    (hpc : s.pc ZERO_HART = .main (.wait k w)) (set : s.msip ZERO_HART ≠ 0) : c = .replied k := by
  have busy := primaryOk_busy ok hpc
  cases c with
  | idle => cases busy
  | sent j m => exact absurd ok.2.2.2.2 set
  | taken j m => exact absurd ok.2.2.2.2 set
  | printed j => exact absurd ok.2 set
  | replied j => simp only [partner, Option.some.injEq] at busy; rw [busy]

end Primary

/-! ## Facts of every state the invariant holds in -/

namespace Inv

variable {s : State N} {h : Fin N}

/-- Once one hart is past the barrier, every hart has acknowledged. -/
theorem acked (inv : Inv s) (launched : (s.pc h).barrierPc = .done) (j : Fin N) :
    (s.pc j).barrierPc.acked := by
  simpa using inv.core.acked_of_done (h := h) (by simpa using launched) j

/-- Code past the barrier keeps the barrier's invariant: it moves no hart within the barrier,
and sets `mie` to nothing but `MIP_MSIP`. -/
theorem core_post (inv : Inv s) (launched : (s.pc h).barrierPc = .done) {s' : State N}
    (pc_eq : ∀ j, (s'.pc j).barrierPc = (s.pc j).barrierPc)
    (mie_ok : ∀ j, s'.mie j = s.mie j ∨ s'.mie j = MIP_MSIP) : Barrier.Core s'.toBarrier :=
  inv.core.frame (funext fun j => by simpa using pc_eq j) (by simpa using mie_ok)
    (fun j unacked => absurd (inv.acked launched j) (by simpa using unacked))

/-- `set_csr(mie, MIP_MSIP)` on a hart past the barrier leaves `mie = MIP_MSIP`. -/
theorem mie_set (inv : Inv s) (launched : (s.pc h).barrierPc = .done) (j : Fin N) :
    Function.update s.mie h (s.mie h ||| MIP_MSIP) j = s.mie j ∨
      Function.update s.mie h (s.mie h ||| MIP_MSIP) j = MIP_MSIP := by
  by_cases hj : j = h
  · subst hj
    have mie : s.mie j = MIP_MSIP :=
      by simpa using inv.core.mie_eq j (by simp [launched])
    right; simp [mie]
  · left; rw [Function.update_noteq hj]

/-- With the channel idle and some hart past the barrier, every word is `0`. -/
theorem msip_zero (inv : Inv s) (clean : Barrier.Clean s.toBarrier)
    (launched : (s.pc h).barrierPc = .done) (j : Fin N) : s.msip j = 0 := by
  simpa using clean j (by simpa using inv.acked launched j)

/-- Hart `h` moving to a place that fits its role keeps every hart in its role. -/
theorem roles_update (inv : Inv s) {p' : HartPc N} (role : p'.RoleOk h) :
    ∀ j, (Function.update s.pc h p' j).RoleOk j :=
  (Function.forall_update_iff s.pc fun j p => p.RoleOk j).mpr ⟨role, fun j _ => inv.roles j⟩

/-- A step that clears no other hart's word keeps the harts at their clears seeing it set. -/
theorem clearing_update (inv : Inv s) {p' : HartPc N} {msip' : Fin N → UInt32}
    (own : p'.clearing → msip' h ≠ 0) (others : ∀ j ≠ h, s.msip j ≠ 0 → msip' j ≠ 0) :
    ∀ j, (Function.update s.pc h p' j).clearing → msip' j ≠ 0 := by
  intro j
  by_cases hj : j = h
  · subst hj; simpa using own
  · rw [Function.update_noteq hj]; exact fun cl => others j hj (inv.clearing j cl)

/-- **A step that moves one hart and touches nothing else.**  It keeps `Inv` when the hart's
new place projects as its old one, fits its role, is a clear only with the word set, and when
what the channel says of the primary and of the hart still holds. -/
theorem move (inv : Inv s) {p' : HartPc N}
    (bar : p'.barrierPc = (s.pc h).barrierPc) (role : p'.RoleOk h)
    (clr : p'.clearing → s.msip h ≠ 0)
    (prim : ∀ c, Chan.idle.run s.log = some c → primaryOk c s → primaryOk c (s.setPc h p'))
    (sec : ∀ c, Chan.idle.run s.log = some c → primaryOk c s → h ≠ ZERO_HART →
      secondaryOk c h (s.pc h) (s.msip h) → secondaryOk c h p' (s.msip h)) :
    Inv (s.setPc h p') := by
  obtain ⟨c, hc, hp, hs⟩ := inv.chan
  refine ⟨toBarrier_setPc bar ▸ inv.core, ?_, ?_, c, hc, prim c hc hp, ?_⟩
  · simp only [State.setPc_pc]
    exact (Function.forall_update_iff s.pc fun j p => p.RoleOk j).mpr
      ⟨role, fun j _ => inv.roles j⟩
  · simp only [State.setPc_pc, State.setPc_msip]
    exact (Function.forall_update_iff s.pc fun j p => p.clearing → s.msip j ≠ 0).mpr
      ⟨clr, fun j _ => inv.clearing j⟩
  · exact secondaries_step (h := h) hs
      (fun j hj => by rw [State.setPc_pc, Function.update_noteq hj]) (fun _ _ _ => rfl)
      (fun _ _ _ _ => id) fun hne => by simpa using sec c hc hp hne (hs h hne)

/-! ## The barrier inside the whole firmware -/

/-- Leaving `smp_resume` for `main` or `other_main`. -/
theorem launch (inv : Inv s) (hpc : s.pc h = .boot .done) : Inv (s.setPc h (entry h)) := by
  have bar : (entry h).barrierPc = (s.pc h).barrierPc := by
    rw [hpc]; unfold entry; split <;> rfl
  refine inv.move bar ?_ (fun clr => ?_) (fun c _ ok => ?_) (fun c _ _ hne old => ?_)
  · unfold entry; split <;> assumption
  · unfold entry at clr; split at clr <;> cases clr
  · by_cases hz : h = ZERO_HART
    · subst hz
      obtain rfl := primaryOk_idle ok (by rw [hpc]; exact fun _ _ => nofun)
      exact ⟨toBarrier_setPc bar ▸ ok.1, by simp [entry]; trivial⟩
    · exact primaryOk_frame ok (by rw [State.setPc_pc, Function.update_noteq (Ne.symm hz)]) rfl
        rfl rfl fun idle => by subst idle; exact toBarrier_setPc bar ▸ ok.1
  · have other : entry h = .other .clear := by simp [entry, hne]
    rw [other]
    exact secondaryOk_calm old (by rw [hpc]; rfl) rfl (Or.inl rfl)

/-- A step of the barrier: the barrier's own invariants carry it; past the barrier, only the
sweep of a secondary can still step, and it stores nothing. -/
theorem barrier (inv : Inv s) {p : Barrier.Pc N} (hpc : s.pc h = .boot p)
    {b : Barrier.State N} (hb : Barrier.step s.toBarrier h = some b) :
    Inv { s with pc := Function.update s.pc h (.boot (b.pc h)), mie := b.mie, msip := b.msip } := by
  obtain ⟨c, hc, hp, hs⟩ := inv.chan
  have raised : ∀ j ≠ h, s.msip j ≠ 0 → b.msip j ≠ 0 := by
    intro j hj set
    rcases Barrier.step_msip hb with ⟨-, same⟩ | ⟨i, -, stored⟩ | ⟨-, stored⟩
    · simpa [same] using set
    · rw [stored, writeMsip_apply]; split
      · decide
      · simpa using set
    · simpa [stored, writeMsip_ne _ _ hj] using set
  refine ⟨by rw [toBarrier_boot_step hb]; exact inv.core.step hb, fun j => ?_, fun j => ?_, c, hc, ?_⟩
  · by_cases hj : j = h
    · subst hj; simp [HartPc.RoleOk]
    · simpa [Function.update_noteq hj] using inv.roles j
  · by_cases hj : j = h
    · subst hj; simp [HartPc.clearing]
    · simpa [Function.update_noteq hj] using fun cl => raised j hj (inv.clearing j cl)
  cases hpart : partner c with
  | none =>
    obtain rfl : c = .idle := by cases c <;> first | rfl | cases hpart
    have pc0 : idleMain s.buf s.smp
        (Function.update s.pc h (.boot (b.pc h)) ZERO_HART) := by
      by_cases hz : ZERO_HART = h
      · rw [hz, Function.update_same]; trivial
      · rw [Function.update_noteq hz]; exact hp.2
    refine ⟨⟨by rw [toBarrier_boot_step hb]; exact Barrier.Clean.step inv.core hp.1 hb, pc0⟩,
      fun j hj => ?_⟩
    rw [secondaryOk_of_idle (c := Chan.idle) rfl]
    by_cases hjh : j = h
    · subst hjh; simp [HartPc.calm]
    · simpa [Function.update_noteq hjh, secondaryOk_of_idle] using hs j hj
  | some k =>
    -- The primary is past the barrier, so the stepping hart is a secondary in its sweep.
    obtain ⟨-, w, hw⟩ := primaryOk_awaits hp hpart
    have hz : h ≠ ZERO_HART := by rintro rfl; rw [hpc] at hw; cases hw
    have acked : p.acked := by simpa [hpc] using inv.acked (h := ZERO_HART) (by simp [hw]) h
    have past : s.toBarrier.pc h ≠ .ack ∧ s.toBarrier.pc h ≠ .pause := by
      simp only [toBarrier_pc, hpc, barrierPc_boot]
      constructor <;> rintro rfl <;> cases acked
    have same : b.msip = s.msip := by
      rcases Barrier.step_msip hb with ⟨-, same⟩ | ⟨i, bc, -⟩ | ⟨ack, -⟩
      · simpa using same
      · exact absurd bc (by simp only [toBarrier_pc, hpc, barrierPc_boot]; rintro rfl; cases acked)
      · exact absurd ack past.1
    have mie : b.mie = s.mie := by simpa using Barrier.step_mie hb past.2
    refine ⟨primaryOk_frame hp ?_ ?_ rfl rfl (fun idle => by subst idle; cases hpart), ?_⟩
    · simp [Function.update_noteq (Ne.symm hz)]
    · simp [same]
    refine secondaries_step (h := h) hs (fun j hj => by simp [Function.update_noteq hj])
      (fun j _ _ => by simp [same]) (fun _ _ _ _ => id) fun _ => ?_
    have own := secondaryOk_calm (hs h hz) (by rw [hpc]; rfl)
      (show (HartPc.boot (b.pc h) : HartPc N).calm = true from rfl) (Or.inl rfl)
    simpa [same] using own

omit [NeZero N] in
/-- A hart's move that keeps its projection keeps every projection. -/
theorem barrierPc_update {p' : HartPc N} (bar : p'.barrierPc = (s.pc h).barrierPc) (j : Fin N) :
    (Function.update s.pc h p' j).barrierPc = (s.pc j).barrierPc := by
  by_cases hj : j = h
  · subst hj; simpa using bar
  · rw [Function.update_noteq hj]

/-! ## `other_main` -/

/-- `clint_clear_soft(hartid); set_csr(mie, MIP_MSIP)` before `other_main`'s loop: a store of `0`
into the hart's own word.  For a message already sent to the hart, this store is the one that
loses it; the invariant allows for that. -/
theorem otherClear (inv : Inv s) (hpc : s.pc h = .other .clear) :
    Inv { s.setPc h (.other (.wait .check)) with
      msip := clintClearSoft s.msip h
      mie := Function.update s.mie h (s.mie h ||| MIP_MSIP) } := by
  obtain ⟨c, hc, hp, hs⟩ := inv.chan
  have launched : (s.pc h).barrierPc = .done := by rw [hpc]; rfl
  have hz : h ≠ ZERO_HART := by simpa [hpc, HartPc.RoleOk] using inv.roles h
  have msip_ne : ∀ j ≠ h, clintClearSoft s.msip h j = s.msip j := fun j hj => writeMsip_ne _ _ hj
  refine ⟨?_, ?_, ?_, c, hc, ?_, ?_⟩
  · exact inv.core_post launched (by simpa using barrierPc_update (by rw [hpc]; rfl))
      (inv.mie_set launched)
  · simpa using inv.roles_update (by simpa [hpc] using inv.roles h)
  · simpa using inv.clearing_update (by simp [HartPc.clearing])
      (fun j hj => by rw [msip_ne j hj]; exact id)
  · refine primaryOk_frame hp (by simp [Function.update_noteq (Ne.symm hz)])
      (by simp [msip_ne _ (Ne.symm hz)]) rfl rfl fun idle => ?_
    subst idle
    intro j acked
    by_cases hj : j = h
    · subst hj; simp [clintClearSoft]
    · simpa [msip_ne j hj, Function.update_noteq hj] using hp.1 j (by simpa [Function.update_noteq hj] using acked)
  · refine secondaries_step (h := h) hs (fun j hj => by simp [Function.update_noteq hj])
      (fun j hj _ => by simp [msip_ne j hj]) (fun _ _ _ _ => id) fun _ => ?_
    have own := secondaryOk_calm (hs h hz) (by rw [hpc]; rfl)
      (show (HartPc.other (.wait .check) : HartPc N).calm = true from rfl) (Or.inr rfl)
    simpa [clintClearSoft] using own

/-- A secondary moving within `other_main` without a store. -/
theorem moveOther (inv : Inv s) {o o' : OtherPc} (hpc : s.pc h = .other o)
    (clr : (HartPc.other o' : HartPc N).clearing → s.msip h ≠ 0)
    (sec : ∀ c, Chan.idle.run s.log = some c → primaryOk c s →
      secondaryOk c h (.other o) (s.msip h) → secondaryOk c h (.other o') (s.msip h)) :
    Inv (s.setPc h (.other o')) := by
  have bar : (HartPc.other o' : HartPc N).barrierPc = (s.pc h).barrierPc := by rw [hpc]; rfl
  have hz : h ≠ ZERO_HART := by simpa [hpc, HartPc.RoleOk] using inv.roles h
  refine inv.move bar hz clr (fun c _ ok => ?_) fun c hc ok _ old => sec c hc ok (by rwa [hpc] at old)
  exact primaryOk_frame ok (by rw [State.setPc_pc, Function.update_noteq (Ne.symm hz)]) rfl rfl rfl
    fun idle => by subst idle; exact toBarrier_setPc bar ▸ ok.1

/-- `wait_ipi` on a secondary, up to the clear: the loop test and `wfi`. -/
theorem otherWait (inv : Inv s) {w : WaitPc} (hpc : s.pc h = .other (.wait w)) {s' : State N}
    (hstep : otherStep s h (.wait w) = some s') (notClear : w ≠ .clear) : Inv s' := by
  have hz : h ≠ ZERO_HART := by simpa [hpc, HartPc.RoleOk] using inv.roles h
  cases w with
  | check =>
    simp only [otherStep, waitIpi, Option.some.injEq] at hstep
    subst hstep
    refine inv.moveOther hpc (fun cl => ?_) fun c _ ok old => ?_
    · split at cl
      · cases cl
      · rename_i set; simpa using set
    · split
      · exact secondaryOk_calm old rfl rfl (Or.inl rfl)
      · rename_i set
        simp only [mip_and_MIP_MSIP_eq_zero] at set
        refine secondaryOk_wake old rfl set fun idle => ?_
        obtain rfl : c = .idle := by cases c <;> first | rfl | cases idle
        exact set (inv.msip_zero ok.1 (by rw [hpc]; rfl) h)
  | wfi =>
    simp only [otherStep, waitIpi] at hstep
    split at hstep
    · cases hstep
      exact inv.moveOther hpc nofun fun c _ _ old => secondaryOk_calm old rfl rfl (Or.inl rfl)
    · cases hstep
  | clear => exact absurd rfl notClear

/-- `wait_ipi` returns on a secondary: it clears its word and takes the message. -/
theorem otherTake (inv : Inv s) (hpc : s.pc h = .other (.wait .clear)) :
    Inv ((({ s with msip := clintClearSoft s.msip h } : State N).setPc h
      (.other (.print []))).emit (.take h)) := by
  obtain ⟨c, hc, hp, hs⟩ := inv.chan
  have launched : (s.pc h).barrierPc = .done := by rw [hpc]; rfl
  have hz : h ≠ ZERO_HART := by simpa [hpc, HartPc.RoleOk] using inv.roles h
  have msip_ne : ∀ j ≠ h, clintClearSoft s.msip h j = s.msip j := fun j hj => writeMsip_ne _ _ hj
  obtain ⟨m, rfl⟩ := secondaryOk_clearing (by simpa [hpc] using hs h hz)
  obtain ⟨⟨-, w, hw⟩, hold, nz, short, zero⟩ := hp
  refine ⟨?_, ?_, ?_, .taken h m, ?_, ?_, ?_⟩
  · exact inv.core_post launched (by simpa using barrierPc_update (by rw [hpc]; rfl))
      fun _ => Or.inl rfl
  · simpa using inv.roles_update (by simpa [hpc] using inv.roles h)
  · simpa using inv.clearing_update (by simp [HartPc.clearing])
      (fun j hj => by rw [msip_ne j hj]; exact id)
  · simp only [State.emit_log, State.setPc_log]
    rw [Chan.run_append_of_run hc]; simp [Chan.step]
  · refine ⟨⟨hz, w, ?_⟩, hold, nz, short, ?_⟩
    · simpa [Function.update_noteq (Ne.symm hz)] using hw
    · simpa [msip_ne _ (Ne.symm hz)] using zero
  · refine secondaries_step (h := h) hs (fun j hj => by simp [Function.update_noteq hj])
      (fun j hj _ => by simp [msip_ne j hj]) (fun j hj p v ok => ?_) fun _ => ?_
    · rwa [secondaryOk_ne (c := .taken h m) rfl hj, ← secondaryOk_ne (c := .sent h m) rfl hj]
    · rw [secondaryOk_partner (c := .taken h m) rfl]
      exact ⟨by simp [clintClearSoft], [], by simp, m, rfl⟩

/-- `uart_puts(SMP_ADDR)`, one byte: the partner reads the message it took, and at its NUL it
has printed exactly that message. -/
theorem otherPrint (inv : Inv s) {out : List UInt8} (hpc : s.pc h = .other (.print out))
    {s' : State N} (hstep : otherStep s h (.print out) = some s') : Inv s' := by
  obtain ⟨c, hc, hp, hs⟩ := inv.chan
  have launched : (s.pc h).barrierPc = .done := by rw [hpc]; rfl
  have hz : h ≠ ZERO_HART := by simpa [hpc, HartPc.RoleOk] using inv.roles h
  obtain ⟨m, rfl, begins, zero⟩ := secondaryOk_print (by simpa [hpc] using hs h hz)
  obtain ⟨⟨-, w, hw⟩, hold, nz, -, zero0⟩ := hp
  have len_le : out.length ≤ m.length := begins.length_le
  by_cases last : out.length = m.length
  · -- At the NUL: what has been printed is the whole message.
    obtain rfl : out = m := begins.eq_of_length last
    have nul : s.smp out.length = 0 := by simpa using hold out.length le_rfl
    simp only [otherStep, nul, if_true, Option.some.injEq] at hstep
    subst hstep
    refine ⟨?_, ?_, ?_, .printed h, ?_, ⟨⟨hz, w, ?_⟩, zero0⟩, ?_⟩
    · exact inv.core_post launched (by simpa using barrierPc_update (by rw [hpc]; rfl))
        fun _ => Or.inl rfl
    · simpa using inv.roles_update (by simpa [hpc] using inv.roles h)
    · simpa using inv.clearing_update (by simp [HartPc.clearing]) fun j _ => id
    · simp only [State.emit_log, State.setPc_log]
      rw [Chan.run_append_of_run hc]; simp [Chan.step]
    · simpa [Function.update_noteq (Ne.symm hz)] using hw
    · refine secondaries_step (h := h) hs (fun j hj => by simp [Function.update_noteq hj])
        (fun _ _ _ => rfl) (fun j hj p v ok => ?_) fun _ => ?_
      · rwa [secondaryOk_ne (c := .printed h) rfl hj, ← secondaryOk_ne (c := .taken h out) rfl hj]
      · rw [secondaryOk_partner (c := .printed h) rfl]; exact ⟨zero, by simp⟩
  · -- Before the NUL: the byte read is the message's next one.
    have lt : out.length < m.length := lt_of_le_of_ne len_le last
    have byte : s.smp out.length = m[out.length] := by
      simpa [List.getElem?_append_left lt, List.getElem?_eq_getElem lt] using hold out.length len_le
    have nonzero : s.smp out.length ≠ 0 := fun h0 => nz (by
      have mem := List.getElem_mem lt
      rwa [← byte, h0] at mem)
    simp only [otherStep, nonzero, if_false, Option.some.injEq] at hstep
    subst hstep
    refine inv.moveOther hpc nofun fun c hc' _ _ => ?_
    obtain rfl : c = .taken h m := Option.some.inj (hc'.symm.trans hc)
    rw [secondaryOk_partner (c := .taken h m) rfl]
    refine ⟨zero, _, rfl, ?_⟩
    rw [byte]
    exact begins_append_next begins lt

/-- `clint_send_soft(ZERO_HART)`: the partner raises the primary's word. -/
theorem otherReply (inv : Inv s) (hpc : s.pc h = .other .reply) :
    Inv ((({ s with msip := clintSendSoft s.msip ZERO_HART } : State N).setPc h
      (.other (.wait .check))).emit (.reply h)) := by
  obtain ⟨c, hc, hp, hs⟩ := inv.chan
  have launched : (s.pc h).barrierPc = .done := by rw [hpc]; rfl
  have hz : h ≠ ZERO_HART := by simpa [hpc, HartPc.RoleOk] using inv.roles h
  have msip_ne : ∀ j ≠ ZERO_HART, clintSendSoft s.msip ZERO_HART j = s.msip j :=
    fun j hj => writeMsip_ne _ _ hj
  obtain ⟨rfl, zero⟩ := secondaryOk_reply (by simpa [hpc] using hs h hz)
  obtain ⟨⟨-, w, hw⟩, -⟩ := hp
  refine ⟨?_, ?_, ?_, .replied h, ?_, ⟨⟨hz, w, ?_⟩, ?_⟩, ?_⟩
  · exact inv.core_post launched (by simpa using barrierPc_update (by rw [hpc]; rfl))
      fun _ => Or.inl rfl
  · simpa using inv.roles_update (by simpa [hpc] using inv.roles h)
  · have others : ∀ j ≠ h, s.msip j ≠ 0 → clintSendSoft s.msip ZERO_HART j ≠ 0 := by
      intro j _ set
      by_cases hj : j = ZERO_HART
      · subst hj; simp [clintSendSoft]
      · rwa [msip_ne j hj]
    simpa using inv.clearing_update (by simp [HartPc.clearing]) others
  · simp only [State.emit_log, State.setPc_log]
    rw [Chan.run_append_of_run hc]; simp [Chan.step]
  · simpa [Function.update_noteq (Ne.symm hz)] using hw
  · simp [clintSendSoft]
  · refine secondaries_step (h := h) hs (fun j hj => by simp [Function.update_noteq hj])
      (fun j _ hj => by simp [msip_ne j hj]) (fun j hj p v ok => ?_) fun _ => ?_
    · rwa [secondaryOk_ne (c := .replied h) rfl hj, ← secondaryOk_ne (c := .printed h) rfl hj]
    · rw [secondaryOk_partner (c := .replied h) rfl]
      exact ⟨by simp [HartPc.calm], by simpa [msip_ne h hz] using zero⟩

/-! ## `main` and `test_ipi` -/

/-- While the primary is outside `wait_ipi`, it is `ZERO_HART`, no message is in flight, its
place says what `idleMain` says, and every word is `0`. -/
theorem idle_main (inv : Inv s) {m : MainPc N} (hpc : s.pc h = .main m)
    (idle : m.waiting = false) :
    h = ZERO_HART ∧ Chan.idle.run s.log = some .idle ∧ idleMain s.buf s.smp (.main m) ∧
      ∀ j, s.msip j = 0 := by
  obtain ⟨c, hc, hp, -⟩ := inv.chan
  have hz : h = ZERO_HART := by simpa [hpc, HartPc.RoleOk] using inv.roles h
  subst hz
  obtain rfl := primaryOk_idle hp (by rw [hpc]; intro k w e; cases e; cases idle)
  exact ⟨rfl, hc, hpc ▸ hp.2, inv.msip_zero hp.1 (by rw [hpc]; rfl)⟩

/-- **A step of the primary while no message is in flight**: it moves within `main` and
`test_ipi`, sets `mie` to `MIP_MSIP` at most, stores only zeros into the words, and ends where
`idleMain` holds. -/
theorem idleStep (inv : Inv s) {m m' : MainPc N} (hpc : s.pc h = .main m)
    (idle : m.waiting = false) (idle' : m'.waiting = false) {s' : State N}
    (pc_eq : s'.pc = Function.update s.pc h (.main m'))
    (mie_ok : ∀ j, s'.mie j = s.mie j ∨ s'.mie j = MIP_MSIP)
    (msip_ok : ∀ j, s'.msip j = s.msip j ∨ s'.msip j = 0) (log : s'.log = s.log)
    (main' : idleMain s'.buf s'.smp (.main m')) : Inv s' := by
  obtain ⟨rfl, hc, -, zero⟩ := inv.idle_main hpc idle
  obtain ⟨c, hc', -, hs⟩ := inv.chan
  obtain rfl : c = .idle := Option.some.inj (hc'.symm.trans hc)
  have launched : (s.pc ZERO_HART).barrierPc = .done := by rw [hpc]; rfl
  have zero' : ∀ j, s'.msip j = 0 := fun j => by
    rcases msip_ok j with e | e <;> rw [e]
    exact zero j
  have bar : ∀ j, (s'.pc j).barrierPc = (s.pc j).barrierPc := by
    rw [pc_eq]; exact barrierPc_update (by rw [hpc]; rfl)
  refine ⟨inv.core_post launched bar mie_ok, ?_, ?_, .idle, log ▸ hc, ⟨fun j _ => zero' j, ?_⟩,
    ?_⟩
  · rw [pc_eq]; exact inv.roles_update (by exact rfl)
  · rw [pc_eq]
    exact inv.clearing_update (by simp [clearing_main idle']) fun j _ set => absurd (zero j) set
  · rw [pc_eq, Function.update_same]; exact main'
  · exact secondaries_step (h := ZERO_HART) hs
      (fun j hj => by rw [pc_eq, Function.update_noteq hj]) (fun j _ _ => by rw [zero' j, zero j])
      (fun _ _ _ _ => id) fun hne => absurd rfl hne

/-- `clint_send_soft(to_hartid)`: the mailbox holds the line, and the message is in flight. -/
theorem send (inv : Inv s) {k : Fin N} (hpc : s.pc h = .main (.send k)) :
    Inv ((({ s with msip := clintSendSoft s.msip k } : State N).setPc h
      (.main (.wait k .check))).emit (.send k (cstr s.buf.bytes))) := by
  obtain ⟨rfl, hc, ⟨hk, n, hn, copied⟩, zero⟩ := inv.idle_main hpc rfl
  obtain ⟨c, hc', -, hs⟩ := inv.chan
  obtain rfl : c = .idle := Option.some.inj (hc'.symm.trans hc)
  have launched : (s.pc ZERO_HART).barrierPc = .done := by rw [hpc]; rfl
  have msip_ne : ∀ j ≠ k, clintSendSoft s.msip k j = s.msip j := fun j hj => writeMsip_ne _ _ hj
  refine ⟨?_, ?_, ?_, .sent k (cstr s.buf.bytes), ?_, ⟨⟨hk, .check, by simp⟩, holds_cstr hn copied,
    zero_not_mem_cstr _, ?_, by simpa [msip_ne _ (Ne.symm hk)] using zero ZERO_HART⟩, ?_⟩
  · exact inv.core_post launched (by simpa using barrierPc_update (by rw [hpc]; rfl))
      fun _ => Or.inl rfl
  · simpa using inv.roles_update (by exact rfl)
  · have others : ∀ j ≠ ZERO_HART, s.msip j ≠ 0 → clintSendSoft s.msip k j ≠ 0 :=
      fun j _ set => absurd (zero j) set
    simpa using inv.clearing_update (by simp [HartPc.clearing]) others
  · simp only [State.emit_log, State.setPc_log]
    rw [Chan.run_append_of_run hc]; simp [Chan.step, hk]
  · rw [(getElem?_of_strlen hn).1, ← s.buf.length_eq]
    exact strlen_lt_length hn
  · intro j hj
    have calm : (s.pc j).calm := by simpa [secondaryOk_of_idle (c := Chan.idle) rfl] using hs j hj
    by_cases hjk : j = k
    · subst hjk
      rw [secondaryOk_partner (c := .sent j (cstr s.buf.bytes)) rfl]
      exact Or.inl (by simpa [Function.update_noteq hj] using calm)
    · rw [secondaryOk_ne (c := .sent k (cstr s.buf.bytes)) rfl hjk]
      exact ⟨by simpa [Function.update_noteq hj] using calm, by simp [msip_ne j hjk, zero j]⟩

/-- `wait_ipi` returns on the primary: the partner has replied, and the channel is idle again. -/
theorem wake (inv : Inv s) {k : Fin N} (hpc : s.pc h = .main (.wait k .clear)) :
    Inv ((({ s with msip := clintClearSoft s.msip h } : State N).setPc h
      (.main .askHart)).emit .wake) := by
  obtain ⟨c, hc, hp, hs⟩ := inv.chan
  have hz : h = ZERO_HART := by simpa [hpc, HartPc.RoleOk] using inv.roles h
  subst hz
  have launched : (s.pc ZERO_HART).barrierPc = .done := by rw [hpc]; rfl
  have set : s.msip ZERO_HART ≠ 0 := inv.clearing ZERO_HART (by rw [hpc]; rfl)
  have msip_ne : ∀ j ≠ ZERO_HART, clintClearSoft s.msip ZERO_HART j = s.msip j :=
    fun j hj => writeMsip_ne _ _ hj
  obtain rfl := primaryOk_replied hp hpc set
  have quiet : ∀ j ≠ ZERO_HART, (s.pc j).calm ∧ s.msip j = 0 := fun j hj =>
    secondaryOk_replied (hs j hj)
  refine ⟨?_, ?_, ?_, .idle, ?_, ⟨fun j _ => ?_, trivial⟩, fun j hj => ?_⟩
  · exact inv.core_post launched (by simpa using barrierPc_update (by rw [hpc]; rfl))
      fun _ => Or.inl rfl
  · simpa using inv.roles_update (by exact rfl)
  · simpa using inv.clearing_update (by simp [HartPc.clearing])
      fun j hj set => by rwa [msip_ne j hj]
  · simp only [State.emit_log, State.setPc_log]
    rw [Chan.run_append_of_run hc]; rfl
  · by_cases hj : j = ZERO_HART
    · subst hj; simp [clintClearSoft]
    · simpa [msip_ne j hj] using (quiet j hj).2
  · rw [secondaryOk_of_idle (c := Chan.idle) rfl]
    simpa [Function.update_noteq hj] using (quiet j hj).1

/-- **Every step of the primary keeps `Inv`.** -/
theorem mainStep_inv (inv : Inv s) {m : MainPc N} (hpc : s.pc h = .main m) {s' : State N}
    (hstep : mainStep s h m = some s') : Inv s' := by
  cases m with
  | console =>
    obtain ⟨⟨r, rest⟩, ret, rfl⟩ := Option.map_eq_some'.mp hstep
    obtain ⟨line, rfl, -⟩ := readline_line ret
    dsimp only
    exact inv.idleStep hpc rfl (by exact rfl) rfl (fun _ => Or.inl rfl) (fun _ => Or.inl rfl) rfl trivial
  | clear =>
    cases hstep
    refine inv.idleStep hpc rfl (by exact rfl) rfl (inv.mie_set (by rw [hpc]; rfl)) (fun j => ?_) rfl
      trivial
    show writeMsip s.msip h 0 j = s.msip j ∨ writeMsip s.msip h 0 j = 0
    rw [writeMsip_apply]
    split
    · exact Or.inr rfl
    · exact Or.inl rfl
  | askHart =>
    obtain ⟨⟨r, rest⟩, ret, rfl⟩ := Option.map_eq_some'.mp hstep
    obtain ⟨line, rfl, -⟩ := readline_line ret
    dsimp only
    cases target : targetHart N line.first with
    | some k =>
      exact inv.idleStep hpc rfl (by exact rfl) rfl (fun _ => Or.inl rfl) (fun _ => Or.inl rfl) rfl
        (targetHart_ne_zero target)
    | none =>
      exact inv.idleStep hpc rfl (by exact rfl)
        (by rw [← hpc, Function.update_eq_self] : s.pc = Function.update s.pc h (.main .askHart))
        (fun _ => Or.inl rfl) (fun _ => Or.inl rfl) rfl trivial
  | askMsg k =>
    obtain ⟨⟨r, rest⟩, ret, rfl⟩ := Option.map_eq_some'.mp hstep
    obtain ⟨line, rfl, hlen, -⟩ := readline_line ret
    dsimp only
    have hk : k ≠ ZERO_HART := (inv.idle_main hpc rfl).2.2.1
    simp only [hlen]
    exact inv.idleStep hpc rfl (by exact rfl) rfl (fun _ => Or.inl rfl) (fun _ => Or.inl rfl) rfl
      ⟨hk, by omega, by omega, by simpa using hlen, fun _ hi => absurd hi (Nat.not_lt_zero _)⟩
  | copy k j n =>
    obtain ⟨-, -, ⟨hk, npos, jle, hstrlen, copied⟩, -⟩ := inv.idle_main hpc rfl
    simp only [mainStep] at hstep
    split at hstep
    · -- `*d++ = *s++`: the source byte lies inside `buf`, before its NUL.
      rename_i lt
      have inside := strlen_lt_length hstrlen
      obtain ⟨b, hb⟩ : ∃ b, s.buf.load j = some b :=
        ⟨_, List.getElem?_eq_getElem (by omega)⟩
      simp only [hb, Option.some.injEq] at hstep
      subst hstep
      refine inv.idleStep hpc rfl (by exact rfl) rfl (fun _ => Or.inl rfl) (fun _ => Or.inl rfl) rfl
        ⟨hk, npos, lt, hstrlen, fun i hi => ?_⟩
      by_cases hij : i = j
      · subst hij; simpa using hb
      · simpa [Function.update_noteq hij] using copied i (by omega)
    · cases hstep
      exact inv.idleStep hpc rfl (by exact rfl) rfl (fun _ => Or.inl rfl) (fun _ => Or.inl rfl) rfl
        ⟨hk, n - 1, hstrlen, fun i hi => copied i (by omega)⟩
  | send k => cases hstep; exact inv.send hpc
  | wait k w =>
    have hz : h = ZERO_HART := by simpa [hpc, HartPc.RoleOk] using inv.roles h
    subst hz
    have bar : ∀ w' : WaitPc, (HartPc.main (.wait k w') : HartPc N).barrierPc =
        (s.pc ZERO_HART).barrierPc := fun _ => by rw [hpc]; rfl
    cases w with
    | check =>
      simp only [mainStep, waitIpi, Option.some.injEq] at hstep
      subst hstep
      refine inv.move (bar _) rfl (fun cl => ?_) (fun c _ ok => primaryOk_wait ok hpc
        (by rw [State.setPc_pc, Function.update_same]) rfl rfl) fun _ _ _ hne => absurd rfl hne
      split at cl
      · cases cl
      · rename_i set; simpa using set
    | wfi =>
      simp only [mainStep, waitIpi] at hstep
      split at hstep
      · cases hstep
        exact inv.move (bar _) rfl nofun
          (fun c _ ok => primaryOk_wait ok hpc (by rw [State.setPc_pc, Function.update_same]) rfl rfl)
          fun _ _ _ hne => absurd rfl hne
      · cases hstep
    | clear => cases hstep; exact inv.wake hpc
  | fault => cases hstep

/-- **Every step of a secondary keeps `Inv`.** -/
theorem otherStep_inv (inv : Inv s) {o : OtherPc} (hpc : s.pc h = .other o) {s' : State N}
    (hstep : otherStep s h o = some s') : Inv s' := by
  cases o with
  | clear => cases hstep; exact inv.otherClear hpc
  | wait w =>
    cases w with
    | clear => cases hstep; exact inv.otherTake hpc
    | check => exact inv.otherWait hpc hstep (by decide)
    | wfi => exact inv.otherWait hpc hstep (by decide)
  | print out => exact inv.otherPrint hpc hstep
  | reply => cases hstep; exact inv.otherReply hpc

/-- **Every step of every hart keeps `Inv`.** -/
theorem step (inv : Inv s) {s' : State N} (hstep : System.step s h = some s') : Inv s' := by
  cases hpc : s.pc h with
  | boot p =>
    by_cases done : p = .done
    · subst done
      rw [step_launch hpc] at hstep
      cases hstep
      exact inv.launch hpc
    · rw [step_boot hpc done] at hstep
      obtain ⟨b, hb, rfl⟩ := Option.map_eq_some'.mp hstep
      exact inv.barrier hpc hb
  | main m => rw [step_main hpc] at hstep; exact inv.mainStep_inv hpc hstep
  | other o => rw [step_other hpc] at hstep; exact inv.otherStep_inv hpc hstep

end Inv

theorem inv_init (mie : Fin N → UInt64) (smp : Nat → UInt8) (buf : Buf) (rx : List UInt32) :
    Inv (State.init mie smp buf rx : State N) where
  core := Barrier.core_init mie
  roles _ := trivial
  clearing _ boot := nomatch boot
  chan := ⟨.idle, rfl, ⟨Barrier.clean_init mie, trivial⟩, fun _ _ => rfl⟩

theorem Reachable.inv {s : State N} (hs : Reachable s) : Inv s := by
  induction hs with
  | init mie smp buf rx => exact inv_init mie smp buf rx
  | step h _ hstep ih => exact ih.step hstep

end TCoreSbi.System
