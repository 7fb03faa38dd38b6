import Mathlib.Logic.Function.Basic
import Mathlib.Data.List.Basic

/-!
# Starting the AP cores

`smpboot_init()` in `arch/x86/smpboot.c` starts the cores the MP tables list
one after the other, from `cpus[1]` to `cpus[nr_cpus - 1]`. For each,
`start_secondary_cpu` reads `count = nr_alive_cpus`, allocates the core's
`current` and stack and copies them, with the per-CPU area, into the
trampoline's parameters, sends an INIT and up to `MAX_SIPI_RETRY` SIPIs
until the local APIC acknowledges one, and then waits up to 1000 tests of
`count == nr_alive_cpus` for the core to signal. The core signals in
`secondary_start`, reached from the trampoline, by `++nr_alive_cpus`, a load
and a store that nothing makes atomic. A failed allocation, an INIT or SIPI
the APIC does not acknowledge, and a timeout all end in a `panic`; after the
loop, `smpboot_init` asserts `nr_alive_cpus == nr_cpus`.

The bootstrap core and every AP core run at once, and `step` names the one
that moves: the bootstrap core's steps carry what the hardware answers (the
allocations, the acknowledgement of an IPI and whether the IPI reached the
core anyway), and an AP core's steps are the trampoline's read of its
parameters and the load and the store of `++nr_alive_cpus`. An INIT puts its
core in wait-for-SIPI; a SIPI starts a core waiting for one, and any other
core ignores it.

Since the bootstrap core starts the next core only after it has seen the
counter move, at most one core is between its load and its store, and none
of the increments is lost: the counter is always one more than the number of
cores that have signalled (`nrAlive_eq_countP`). Each core reads the
parameters written for it, so runs on its own stack and per-CPU area
(`percpu_eq`), and when the loop ends every core has signalled and the final
`assert` holds (`done_all_alive`).

`apic_send_ipi`, `apic_ipi_acked`, `kmalloc` and `pit_udelay` are not among
the sources: their results are the labels of the steps, and the delays pass
no time the model counts. The cores are the entries of `cpus[]`, one
physical core each. What `secondary_start` does after its increment does not
touch the counter and is left out.
-/

namespace Mcube

namespace SmpBoot

open Function

/-- `MAX_SIPI_RETRY`. -/
def maxSipiRetry : ℕ := 3

/-- The `timeout` of `start_secondary_cpu`: the tests of the counter it makes. -/
def startTimeout : ℕ := 1000

/-- Where an AP core is. -/
inductive ApPc
  /-- Halted with `IF = 0`, before its INIT. -/
  | halted
  /-- After its INIT, waiting for a SIPI. -/
  | waitSipi
  /-- Started by a SIPI, in the trampoline before it reads its parameters. -/
  | trampoline
  /-- In `secondary_start`, on the per-CPU area of `cpus[percpu]`, before
  `++nr_alive_cpus`. -/
  | running (percpu : ℕ)
  /-- `++nr_alive_cpus`: the counter loaded, as `v`. -/
  | loaded (percpu v : ℕ)
  /-- `++nr_alive_cpus` stored: the core has signalled. -/
  | alive (percpu : ℕ)
  deriving DecidableEq, Repr

/-- Whether the core has signalled. -/
def ApPc.signalled : ApPc → Bool
  | .alive _ => true
  | _ => false

/-- The per-CPU area a core runs on, once it has read its parameters. -/
def ApPc.percpu : ApPc → Option ℕ
  | .running p | .loaded p _ | .alive p => some p
  | _ => none

/-- Where the bootstrap core is in `smpboot_init`, with the loop's `cpu`,
`cpus[i]`, and the `count` and `timeout` of `start_secondary_cpu`. -/
inductive BspPc
  /-- The test `cpu != &cpus[nr_cpus]` of the loop. -/
  | next (i : ℕ)
  /-- `send_init_ipi`. -/
  | init (i count : ℕ)
  /-- `send_startup_ipi`, the `j`-th time. -/
  | sipi (i count j : ℕ)
  /-- The test `timeout-- && count == nr_alive_cpus`. -/
  | wait (i count timeout : ℕ)
  /-- After the loop: `assert(nr_alive_cpus == nr_cpus)`. -/
  | done
  /-- A `panic` while starting `cpus[i]`. -/
  | panic (i : ℕ) (msg : String)
  deriving DecidableEq, Repr

/-- The cores and what they share: `nr_alive_cpus`, and the core whose stack
and per-CPU area the trampoline's parameters hold. -/
structure State where
  nrAlive : ℕ
  params : ℕ
  bsp : BspPc
  aps : ℕ → ApPc

/-- The cores when `smpboot_init` enters its loop: `nr_alive_cpus = 1`, every
AP core halted. -/
def State.boot : State := ⟨1, 0, .next 1, fun _ => .halted⟩

/-- What moves: the bootstrap core, with what the hardware answers, or the
AP core `k`. -/
inductive Act
  /-- `count = nr_alive_cpus`, the two `kmalloc`s, `ok` when both succeed,
  and the copy of the parameters. -/
  | alloc (ok : Bool)
  /-- An INIT or a SIPI: `apic_ipi_acked()`, and whether it reached the core. -/
  | ipi (acked delivered : Bool)
  /-- A test of the wait loop, and its `pit_udelay`. -/
  | poll
  /-- The loop's end. -/
  | finish
  /-- AP core `k` reads its parameters in the trampoline. -/
  | params (k : ℕ)
  /-- AP core `k` loads `nr_alive_cpus`. -/
  | load (k : ℕ)
  /-- AP core `k` stores its increment. -/
  | store (k : ℕ)

/-- The `panic` of `start_secondary_cpu` when `kmalloc` fails. -/
def allocMsg : String := "Error: cannot allocate memory %lu\n"

/-- The `panic` of `smpboot_init` when `start_secondary_cpu` returns 1. -/
def failMsg : String := "SMP: Could not start-up all AP cores\n"

/-- An INIT reaching core `i` puts it in wait-for-SIPI. -/
def State.initIpi (s : State) (i : ℕ) : State := { s with aps := update s.aps i .waitSipi }

/-- A SIPI reaching core `i` starts it if it waits for one. -/
def State.startupIpi (s : State) (i : ℕ) : State :=
  if s.aps i = .waitSipi then { s with aps := update s.aps i .trampoline } else s

/-- One step of the core `a` names, `none` when it cannot move. -/
def step (nrCpus : ℕ) (s : State) : Act → Option State
  | .finish =>
    match s.bsp with
    | .next i => if i = nrCpus then some { s with bsp := .done } else none
    | _ => none
  | .alloc ok =>
    match s.bsp with
    | .next i =>
      if i = nrCpus then none
      else if ok then some { s with bsp := .init i s.nrAlive, params := i }
      else some { s with bsp := .panic i allocMsg }
    | _ => none
  | .ipi acked delivered =>
    match s.bsp with
    | .init i count =>
      let s := if acked || delivered then s.initIpi i else s
      some { s with bsp := if acked then .sipi i count 1 else .panic i failMsg }
    | .sipi i count j =>
      let s := if acked || delivered then s.startupIpi i else s
      some { s with bsp := if acked then .wait i count startTimeout
        else if j = maxSipiRetry then .panic i failMsg else .sipi i count (j + 1) }
    | _ => none
  | .poll =>
    match s.bsp with
    | .wait i count timeout =>
      if timeout = 0 then some { s with bsp := .panic i failMsg }
      else if count = s.nrAlive then some { s with bsp := .wait i count (timeout - 1) }
      else some { s with bsp := .next (i + 1) }
    | _ => none
  | .params k =>
    match s.aps k with
    | .trampoline => some { s with aps := update s.aps k (.running s.params) }
    | _ => none
  | .load k =>
    match s.aps k with
    | .running p => some { s with aps := update s.aps k (.loaded p s.nrAlive) }
    | _ => none
  | .store k =>
    match s.aps k with
    | .loaded p v => some { s with aps := update s.aps k (.alive p), nrAlive := v + 1 }
    | _ => none

/-- The states some interleaving of the cores' steps reaches. -/
inductive Reachable (nrCpus : ℕ) : State → Prop
  | boot : Reachable nrCpus State.boot
  | step {s s' : State} {a : Act} : Reachable nrCpus s → step nrCpus s a = some s' →
      Reachable nrCpus s'

/-- The state after the steps `as`, one after the other. -/
def run (nrCpus : ℕ) : State → List Act → Option State
  | s, [] => some s
  | s, a :: as => (step nrCpus s a).bind (run nrCpus · as)

theorem Reachable.run {nrCpus : ℕ} {s s' : State} (as : List Act) (hr : Reachable nrCpus s)
    (h : SmpBoot.run nrCpus s as = some s') : Reachable nrCpus s' := by
  induction as generalizing s with
  | nil => exact Option.some.inj h ▸ hr
  | cons a as ih =>
    simp only [SmpBoot.run, Option.bind_eq_some] at h
    obtain ⟨s₁, h₁, h₂⟩ := h
    exact ih (hr.step h₁) h₂

/-- Two cores, the second started by the first SIPI and signalling after one
test of the counter. -/
def twoCoreActs : List Act :=
  [.alloc true, .ipi true false, .ipi true true, .params 1, .load 1, .poll, .store 1, .poll, .finish]

/-- Where `twoCoreActs` ends. -/
def twoCoresDone : State := (run 2 State.boot twoCoreActs).getD State.boot

theorem reachable_twoCoresDone : Reachable 2 twoCoresDone := Reachable.boot.run twoCoreActs rfl

/-! ## The invariant -/

/-- What the core `i` the bootstrap core deals with may be doing, and the
counter then. -/
def ApOk (i nrAlive : ℕ) : ApPc → Prop
  | .halted | .waitSipi | .trampoline => nrAlive = i
  | .running p => p = i ∧ nrAlive = i
  | .loaded p v => p = i ∧ v = i ∧ nrAlive = i
  | .alive p => p = i ∧ nrAlive = i + 1

/-- The bootstrap core deals with `cpus[i]`: the cores before it have
signalled, those after it are halted. -/
structure At (nrCpus i : ℕ) (s : State) : Prop where
  pos : 1 ≤ i
  le : i ≤ nrCpus
  before : ∀ k, 1 ≤ k → k < i → s.aps k = .alive k
  after : ∀ k, i < k → s.aps k = .halted
  zero : s.aps 0 = .halted
  cur : ApOk i s.nrAlive (s.aps i)
  last : i = nrCpus → s.aps i = .halted

/-- The invariant of every reachable state, by where the bootstrap core is. -/
def Inv (nrCpus : ℕ) (s : State) : Prop :=
  match s.bsp with
  | .next i => At nrCpus i s ∧ s.aps i = .halted
  | .init i count => At nrCpus i s ∧ i < nrCpus ∧ count = i ∧ s.aps i = .halted ∧ s.params = i
  | .sipi i count _ => At nrCpus i s ∧ i < nrCpus ∧ count = i ∧ s.params = i
  | .wait i count _ => At nrCpus i s ∧ i < nrCpus ∧ count = i ∧ s.params = i
  | .done => At nrCpus nrCpus s
  | .panic i _ => At nrCpus i s ∧ (s.aps i = .trampoline → s.params = i)

/-- The core the bootstrap core deals with: `cpus[nr_cpus]` once the loop
is over. -/
def BspPc.index (nrCpus : ℕ) : BspPc → ℕ
  | .next i | .init i _ | .sipi i _ _ | .wait i _ _ | .panic i _ => i
  | .done => nrCpus

section Invariant

variable {nrCpus i : ℕ} {s s' : State}

theorem Inv.at (h : Inv nrCpus s) : At nrCpus (s.bsp.index nrCpus) s := by
  unfold Inv at h
  cases hb : s.bsp <;> rw [hb] at h <;> first | exact h | exact h.1

/-- Only the core the bootstrap core deals with can be neither halted nor
signalled. -/
theorem At.index_eq (h : At nrCpus i s) {k : ℕ} (hh : s.aps k ≠ .halted) (ha : s.aps k ≠ .alive k) :
    k = i := by
  rcases Nat.lt_trichotomy k i with hk | hk | hk
  · rcases Nat.eq_zero_or_pos k with rfl | hk0
    · exact absurd h.zero hh
    · exact absurd (h.before k hk0 hk) ha
  · exact hk
  · exact absurd (h.after k hk) hh

/-- `At` reads only the cores and the counter. -/
theorem At.congr (h : At nrCpus i s) (ha : s'.aps = s.aps) (hm : s'.nrAlive = s.nrAlive) :
    At nrCpus i s' := by
  obtain ⟨h₁, h₂, h₃, h₄, h₅, h₆, h₇⟩ := h
  exact ⟨h₁, h₂, by rwa [ha], by rwa [ha], by rwa [ha], by rwa [ha, hm], by rwa [ha]⟩

/-- The core `i` moves, as `ApOk` allows. -/
theorem At.update (h : At nrCpus i s) {p : ApPc} {m : ℕ} (hp : ApOk i m p)
    (hl : i = nrCpus → p = .halted) (hs : s'.aps = update s.aps i p) (hm : s'.nrAlive = m) :
    At nrCpus i s' := by
  obtain ⟨h₁, h₂, hb, ha, hz, -, -⟩ := h
  refine ⟨h₁, h₂, fun k hk hki => ?_, fun k hk => ?_, ?_, ?_, fun he => ?_⟩ <;> rw [hs]
  · rw [update_noteq (by omega)]; exact hb k hk hki
  · rw [update_noteq (by omega)]; exact ha k hk
  · rw [update_noteq (by omega)]; exact hz
  · rw [update_same, hm]; exact hp
  · rw [update_same]; exact hl he

/-- Past a core that has signalled, the bootstrap core deals with the next. -/
theorem At.succ (h : At nrCpus i s) (hi : i < nrCpus) (ha : s.aps i = .alive i) :
    At nrCpus (i + 1) s ∧ s.aps (i + 1) = .halted := by
  have hm : s.nrAlive = i + 1 := by simpa [ApOk, ha] using h.cur
  have hh := h.after (i + 1) (by omega)
  refine ⟨⟨by omega, hi, fun k hk hki => ?_, fun k hk => h.after k (by omega), h.zero,
    by rw [hh, ApOk, hm], fun _ => hh⟩, hh⟩
  rcases Nat.lt_or_ge k i with hk' | hk'
  · exact h.before k hk hk'
  · rwa [show k = i by omega]

/-- **An AP core's step** keeps the invariant when it moves the core the
bootstrap core deals with, out of the states the IPIs put it in. -/
theorem Inv.ap (h : Inv nrCpus s) (hh : s.aps (s.bsp.index nrCpus) ≠ .halted) {p : ApPc} {m : ℕ}
    (hp : ApOk (s.bsp.index nrCpus) m p) (hp₂ : p ≠ .trampoline) :
    Inv nrCpus { s with aps := update s.aps (s.bsp.index nrCpus) p, nrAlive := m } := by
  have hu : (s.bsp.index nrCpus = nrCpus → p = .halted) → At nrCpus (s.bsp.index nrCpus)
      { s with aps := update s.aps (s.bsp.index nrCpus) p, nrAlive := m } :=
    fun hl => h.at.update hp hl rfl rfl
  unfold Inv at h ⊢
  cases hb : s.bsp <;> rw [hb] at h <;> simp only [hb, BspPc.index] at hh hp hu ⊢
  · exact absurd h.2 hh
  · exact absurd h.2.2.2.1 hh
  · exact ⟨hu fun _ => by omega, h.2⟩
  · exact ⟨hu fun _ => by omega, h.2⟩
  · exact absurd (h.last rfl) hh
  · exact ⟨hu fun e => absurd (h.1.last e) hh, fun ht => absurd (by simpa using ht) hp₂⟩

/-- The core the bootstrap core deals with has signalled once the counter
has moved. -/
theorem At.alive_of_ne (h : At nrCpus i s) (hm : s.nrAlive ≠ i) : s.aps i = .alive i := by
  have := h.cur
  cases hi : s.aps i <;> simp only [hi, ApOk] at this <;> first | omega | rw [this.1]

theorem At.initIpi (h : At nrCpus i s) (hh : s.aps i = .halted) (hi : i < nrCpus) :
    At nrCpus i (s.initIpi i) :=
  h.update (by simpa [ApOk, hh] using h.cur) (fun e => absurd e (by omega)) rfl rfl

theorem At.startupIpi (h : At nrCpus i s) (hi : i < nrCpus) : At nrCpus i (s.startupIpi i) := by
  unfold State.startupIpi
  split_ifs with hw
  · exact h.update (by simpa [ApOk, hw] using h.cur) (fun e => absurd e (by omega)) rfl rfl
  · exact h

/-- A core in the trampoline is the one the bootstrap core deals with, and
the parameters are its own. -/
theorem Inv.params_of_trampoline (h : Inv nrCpus s) {k : ℕ} (hk : s.aps k = .trampoline) :
    k = s.bsp.index nrCpus ∧ s.params = k := by
  have hi := h.at.index_eq (by rw [hk]; nofun) (by rw [hk]; nofun)
  refine ⟨hi, ?_⟩
  subst hi
  unfold Inv at h
  cases hb : s.bsp <;> rw [hb] at h <;> simp only [hb, BspPc.index] at hk ⊢
  · rw [h.2] at hk; cases hk
  · rw [h.2.2.2.1] at hk; cases hk
  · exact h.2.2.2
  · exact h.2.2.2
  · rw [h.last rfl] at hk; cases hk
  · exact h.2 hk

/-- **Every step keeps the invariant**, whatever the hardware answers and
whichever core moves. -/
theorem Inv.step {a : Act} (h : Inv nrCpus s) (hs : step nrCpus s a = some s') : Inv nrCpus s' := by
  have hat := h.at
  cases a with
  | finish =>
    unfold Inv at h
    cases hb : s.bsp <;> simp only [SmpBoot.step, hb] at hs h <;> try contradiction
    split_ifs at hs with hi
    cases hs
    exact (hi ▸ h.1).congr rfl rfl
  | alloc ok =>
    unfold Inv at h
    cases hb : s.bsp <;> simp only [SmpBoot.step, hb] at hs h <;> try contradiction
    split_ifs at hs with hi hok <;> cases hs
    · exact ⟨h.1.congr rfl rfl, by have := h.1.le; omega, by simpa [ApOk, h.2] using h.1.cur, h.2, rfl⟩
    · exact ⟨h.1.congr rfl rfl, fun ht => by simp [h.2] at ht⟩
  | ipi acked delivered =>
    unfold Inv at h
    cases hb : s.bsp <;> simp only [SmpBoot.step, hb] at hs h <;> try contradiction
    · rename_i i c
      obtain ⟨h₁, hi, hc, hh, hp⟩ := h
      set s₁ := if (acked || delivered) = true then s.initIpi i else s
      have h₂ : At nrCpus i s₁ := by
        simp only [s₁]
        split_ifs
        exacts [h₁.initIpi hh hi, h₁]
      have ht : s₁.aps i ≠ .trampoline := by
        simp only [s₁]
        split_ifs <;> simp [State.initIpi, hh]
      have hp' : s₁.params = i := by
        simp only [s₁]
        split_ifs <;> exact hp
      cases acked <;> simp only [Bool.false_eq_true, ↓reduceIte] at hs <;> cases hs <;>
        unfold Inv <;> dsimp only
      · exact ⟨h₂.congr rfl rfl, fun e => absurd e ht⟩
      · exact ⟨h₂.congr rfl rfl, hi, hc, hp'⟩
    · rename_i i c j
      obtain ⟨h₁, hi, hc, hp⟩ := h
      set s₁ := if (acked || delivered) = true then s.startupIpi i else s
      have h₂ : At nrCpus i s₁ := by
        simp only [s₁]
        split_ifs
        exacts [h₁.startupIpi hi, h₁]
      have hp' : s₁.params = i := by
        simp only [s₁, State.startupIpi]
        split_ifs <;> exact hp
      cases acked <;> simp only [Bool.false_eq_true, ↓reduceIte] at hs
      · split_ifs at hs <;> cases hs <;> unfold Inv <;> dsimp only
        · exact ⟨h₂.congr rfl rfl, fun _ => hp'⟩
        · exact ⟨h₂.congr rfl rfl, hi, hc, hp'⟩
      · cases hs
        exact ⟨h₂.congr rfl rfl, hi, hc, hp'⟩
  | poll =>
    unfold Inv at h
    cases hb : s.bsp <;> simp only [SmpBoot.step, hb] at hs h <;> try contradiction
    obtain ⟨h₁, hi, rfl, hp⟩ := h
    split_ifs at hs with ht hc <;> cases hs
    · exact ⟨h₁.congr rfl rfl, fun _ => hp⟩
    · exact ⟨h₁.congr rfl rfl, hi, rfl, hp⟩
    · have := h₁.succ hi (h₁.alive_of_ne (Ne.symm hc))
      exact ⟨this.1.congr rfl rfl, this.2⟩
  | params k =>
    simp only [SmpBoot.step] at hs
    split at hs <;> cases hs
    next hk =>
    obtain ⟨rfl, hp⟩ := h.params_of_trampoline hk
    exact h.ap (by rw [hk]; nofun) (by simpa [ApOk, hk, hp] using hat.cur) nofun
  | load k =>
    simp only [SmpBoot.step] at hs
    split at hs <;> cases hs
    next p hk =>
    obtain rfl := hat.index_eq (by rw [hk]; nofun) (by rw [hk]; nofun)
    have hp := hat.cur
    rw [hk] at hp
    exact h.ap (by rw [hk]; nofun) (by simpa [ApOk] using hp) nofun
  | store k =>
    simp only [SmpBoot.step] at hs
    split at hs <;> cases hs
    next p v hk =>
    obtain rfl := hat.index_eq (by rw [hk]; nofun) (by rw [hk]; nofun)
    have hp := hat.cur
    rw [hk] at hp
    exact h.ap (by rw [hk]; nofun) (by simp only [ApOk] at hp ⊢; omega) nofun

end Invariant

theorem inv_boot {nrCpus : ℕ} (h : 0 < nrCpus) : Inv nrCpus State.boot :=
  ⟨⟨le_refl 1, h, fun _ _ hk => absurd hk (by omega), fun _ _ => rfl, rfl, rfl, fun _ => rfl⟩, rfl⟩

theorem Reachable.inv {nrCpus : ℕ} {s : State} (h : 0 < nrCpus) (hr : Reachable nrCpus s) :
    Inv nrCpus s := by
  induction hr with
  | boot => exact inv_boot h
  | step _ hs ih => exact ih.step hs

/-! ## What every run keeps -/

section Runs

variable {nrCpus i : ℕ} {s : State}

theorem ApOk.nrAlive_eq {m : ℕ} {p : ApPc} (h : ApOk i m p) : m = i + (if p.signalled then 1 else 0) := by
  cases p <;> simp [ApOk, ApPc.signalled] at h ⊢ <;> omega

/-- The cores below `m` that have signalled: all of `cpus[1 .. i)`, and
`cpus[i]` if it has. -/
theorem At.countP_range (h : At nrCpus i s) (m : ℕ) :
    (List.range m).countP (fun k => (s.aps k).signalled) =
      if m ≤ i then m - 1 else i - 1 + (if (s.aps i).signalled then 1 else 0) := by
  induction m with
  | zero => simp
  | succ m ih =>
    rw [List.range_succ, List.countP_append, ih, List.countP_singleton]
    rcases Nat.lt_trichotomy m i with hm | rfl | hm
    · rcases Nat.eq_zero_or_pos m with rfl | hm0
      · simp [h.zero, ApPc.signalled, h.pos]
      · simp [h.before m hm0 hm, ApPc.signalled, hm.le, show m + 1 ≤ i by omega]
        omega
    · simp [show ¬m + 1 ≤ m by omega]
    · simp [h.after m hm, ApPc.signalled, show ¬m ≤ i by omega, show ¬m + 1 ≤ i by omega]

/-- **No increment is lost**: in every interleaving, `nr_alive_cpus` is one
more than the number of cores that have stored their `++nr_alive_cpus`,
although nothing makes the increment atomic. -/
theorem nrAlive_eq_countP (h : 0 < nrCpus) (hr : Reachable nrCpus s) :
    (List.range nrCpus).countP (fun k => (s.aps k).signalled) + 1 = s.nrAlive := by
  have hat := (hr.inv h).at
  rw [hat.countP_range, hat.cur.nrAlive_eq]
  have := hat.pos
  have := hat.le
  split_ifs with hle hs hs
  · rw [hat.last (by have := hat.le; omega)] at hs
    cases hs
  · omega
  · omega
  · omega

theorem nrAlive_eq_countP_twoCores :
    0 < 2 ∧ Reachable 2 twoCoresDone ∧
      (List.range 2).countP (fun k => (twoCoresDone.aps k).signalled) + 1 = twoCoresDone.nrAlive :=
  ⟨by decide, reachable_twoCoresDone, nrAlive_eq_countP (by decide) reachable_twoCoresDone⟩

/-- **Each core runs on its own stack and per-CPU area**: in every
interleaving, a core that has read the trampoline's parameters read those
`start_secondary_cpu` wrote for it. -/
theorem percpu_eq (h : 0 < nrCpus) (hr : Reachable nrCpus s) (k p : ℕ)
    (hp : (s.aps k).percpu = some p) : p = k := by
  have hat := (hr.inv h).at
  by_cases ha : s.aps k = .alive k
  · rw [ha] at hp
    exact (Option.some.inj hp).symm
  · have hi := hat.index_eq (by rw [Ne]; intro e; rw [e] at hp; cases hp) ha
    subst hi
    have hc := hat.cur
    cases hk : s.aps (s.bsp.index nrCpus) <;> simp only [hk, ApPc.percpu] at hp <;>
      simp only [hk, ApOk] at hc <;> cases hp <;> exact hc.1

theorem percpu_eq_twoCores :
    0 < 2 ∧ Reachable 2 twoCoresDone ∧ (twoCoresDone.aps 1).percpu = some 1 ∧ 1 = 1 :=
  ⟨by decide, reachable_twoCoresDone, rfl,
    percpu_eq (by decide) reachable_twoCoresDone 1 1 rfl⟩

/-- **The final `assert` of `smpboot_init` holds**: in every interleaving in
which the loop ends, every core of `cpus[1 .. nr_cpus)` has signalled and
`nr_alive_cpus == nr_cpus`. -/
theorem done_all_alive (h : 0 < nrCpus) (hr : Reachable nrCpus s) (hd : s.bsp = .done) :
    s.nrAlive = nrCpus ∧ ∀ k, 1 ≤ k → k < nrCpus → s.aps k = .alive k := by
  have hi := hr.inv h
  unfold Inv at hi
  rw [hd] at hi
  refine ⟨?_, hi.before⟩
  have := hi.cur
  rwa [hi.last rfl] at this

theorem done_all_alive_twoCores :
    0 < 2 ∧ Reachable 2 twoCoresDone ∧ twoCoresDone.bsp = .done ∧
      twoCoresDone.nrAlive = 2 ∧ ∀ k, 1 ≤ k → k < 2 → twoCoresDone.aps k = .alive k :=
  ⟨by decide, reachable_twoCoresDone, rfl, done_all_alive (by decide) reachable_twoCoresDone rfl⟩

/-- The steps that start `cpus[i]` when every IPI is acknowledged and the
core signals before the first test of the counter. -/
def startActs (i : ℕ) : List Act :=
  [.alloc true, .ipi true true, .ipi true true, .params i, .load i, .store i, .poll]

/-- From the test of the loop at `cpus[i]`, `startActs i` reaches the test at
`cpus[i + 1]`, whatever the other cores are doing. -/
theorem run_startActs (hb : s.bsp = .next i) (hi : i ≠ nrCpus) :
    ∃ s', run nrCpus s (startActs i) = some s' ∧ s'.bsp = .next (i + 1) := by
  simp only [startActs, run, SmpBoot.step, hb, hi, State.initIpi, State.startupIpi, update_same,
    Option.some_bind, if_true, if_false, Bool.or_self, startTimeout]
  rw [if_neg (by decide), if_neg (Nat.ne_of_lt (Nat.lt_succ_self _))]
  exact ⟨_, rfl, rfl⟩

/-- **The loop can end**: for every number of cores, some interleaving
starts them all, and by `done_all_alive` the final `assert` then holds. -/
theorem done_reachable (h : 0 < nrCpus) : ∃ s, Reachable nrCpus s ∧ s.bsp = .done := by
  have hnext : ∀ i, 1 ≤ i → i ≤ nrCpus → ∃ s, Reachable nrCpus s ∧ s.bsp = .next i := by
    intro i hi
    induction i, hi using Nat.le_induction with
    | base => exact fun _ => ⟨_, .boot, rfl⟩
    | succ i _ ih =>
      intro hle
      obtain ⟨s, hr, hb⟩ := ih (by omega)
      obtain ⟨s', hs', hb'⟩ := run_startActs hb (show i ≠ nrCpus by omega)
      exact ⟨s', hr.run _ hs', hb'⟩
  obtain ⟨s, hr, hb⟩ := hnext nrCpus h le_rfl
  have hs : SmpBoot.step nrCpus s .finish = some { s with bsp := .done } := by
    simp only [SmpBoot.step, hb, if_true]
  exact ⟨_, hr.step hs, rfl⟩

theorem done_reachable_two : 0 < 2 ∧ ∃ s, Reachable 2 s ∧ s.bsp = .done :=
  ⟨by decide, done_reachable (by decide)⟩

end Runs

end SmpBoot

end Mcube
