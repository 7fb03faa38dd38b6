import Mathlib.Logic.Function.Basic
import Mathlib.Data.List.Basic

/-!
# SMP spinlocks under interleaving

`arch/x86/lib/spinlock.c` implements `spin_lock`, `spin_trylock` and
`spin_unlock` over a `struct lock_spin`: a lock word `val` (`_SPIN_LOCKED` is
`1`) and the `rflags` its holder had before it disabled interrupts. Each
function starts by saving the CPU's interrupt flag and clearing it, and
`spin_unlock` puts back the flag kept in the lock.

Each function is cut into the atomic steps it performs on shared memory or on
the interrupt flag: the `atomic_bit_test_and_set` of `lock->val`, each load and
store of `lock->val` and `lock->rflags`, and each change of the flag. A context
inside one of them is at one of the program points `Pc`, which carry the
function's local `rflags`. Any number of CPUs run at once (`step` names the CPU
that moves), and on each CPU an interrupt handler may start while the flag is
set: the interrupted context is saved with the flag, and resumed with it when
the handler returns holding no lock.

Which locks a context holds is not stored by the code; it is the ghost field
`held`: the locks whose test-and-set the context won and whose release it has
not yet stored, most recent first, each with the interrupt flag saved by the
call that acquired it. The callers' discipline is the guard of a call: a
context locks only locks it does not hold, and unlocks only a lock it holds;
with `lifo`, the one it acquired last.

`local_irq_disable_save`, `local_irq_restore`, `local_irq_disable` and
`atomic_bit_test_and_set` are not among the sources. Modelled from the spec:
the first returns the interrupt flag and clears it, the second sets the flag
to the value saved, the third clears it, and the test-and-set atomically
returns the lock bit and sets it. Of `union x86_rflags` only the interrupt
flag is kept.
-/

namespace Mcube

namespace Spinlock

open Function

/-- A `struct lock_spin`: whether `val` is `_SPIN_LOCKED`, and the interrupt
flag kept in `rflags`. -/
structure LockSpin where
  val : Bool
  rflags : Bool
  deriving DecidableEq, Repr

/-- `spin_init`: mark the lock free. -/
def spinInit (lock : LockSpin) : LockSpin := { lock with val := false }

/-- `atomic_bit_test_and_set(&lock->val)`: the old bit, and the lock with the
bit set. Modelled from the spec: an atomic test-and-set. -/
def atomicBitTestAndSet (lock : LockSpin) : Bool × LockSpin := (lock.val, { lock with val := true })

/-- Where a context is inside the three functions, with the lock `l` it works
on and its local `rflags`. -/
inductive Pc
  /-- Outside the three functions. -/
  | idle
  /-- `spin_lock`: the test-and-set of the loop condition. -/
  | lockTas (l : ℕ) (rflags : Bool)
  /-- `spin_lock`: `local_irq_restore(rflags)` after a lost test-and-set. -/
  | lockRestore (l : ℕ) (rflags : Bool)
  /-- `spin_lock`: a load of `lock->val` in the busy-wait loop. -/
  | lockSpin (l : ℕ) (rflags : Bool)
  /-- `spin_lock`: `local_irq_disable()` before the next test-and-set. -/
  | lockDisable (l : ℕ) (rflags : Bool)
  /-- `spin_lock`: `lock->rflags = rflags`. -/
  | lockStore (l : ℕ) (rflags : Bool)
  /-- `spin_trylock`: the test-and-set. -/
  | tryTas (l : ℕ) (rflags : Bool)
  /-- `spin_trylock`: `local_irq_restore(rflags)` after a lost test-and-set. -/
  | tryRestore (l : ℕ) (rflags : Bool)
  /-- `spin_trylock`: `lock->rflags = rflags`. -/
  | tryStore (l : ℕ) (rflags : Bool)
  /-- `spin_trylock`: returning `ret`. -/
  | tryRet (l : ℕ) (ret rflags : Bool)
  /-- `spin_unlock`: `lock->val = _SPIN_UNLOCKED`, with `rflags` loaded. -/
  | unlockStore (l : ℕ) (rflags : Bool)
  /-- `spin_unlock`: `local_irq_restore(rflags)`. Ghost: `acquired` is the
  flag saved by the call that acquired the lock just released. -/
  | unlockRestore (rflags acquired : Bool)
  deriving DecidableEq, Repr

/-- A context of execution on a CPU: a thread or an interrupt handler. -/
structure Ctx where
  pc : Pc
  /-- Ghost: the locks held, most recent first, each with the interrupt flag
  saved by the call that acquired it. -/
  held : List (ℕ × Bool)
  deriving DecidableEq, Repr

/-- A CPU: its interrupt flag, its running context, and the contexts its
interrupt handlers interrupted, innermost first, each with its flag. -/
structure Cpu where
  irq : Bool
  ctx : Ctx
  saved : List (Ctx × Bool)

/-- The locks and the CPUs. -/
structure State where
  locks : ℕ → LockSpin
  cpus : ℕ → Cpu

/-- What a CPU does next: call one of the functions, run the next step of its
running context, take an interrupt, or return from its handler. -/
inductive Act
  | spinLock (l : ℕ)
  | spinTrylock (l : ℕ)
  | spinUnlock (l : ℕ)
  | run
  | irq
  | iret
  deriving DecidableEq, Repr

/-- The locks named in a list of held locks. -/
def keys (held : List (ℕ × Bool)) : List ℕ := held.map Prod.fst

/-- The callers' discipline for `spin_unlock(l)`: hold `l` and, with `lifo`,
have acquired it last. -/
def canUnlock (lifo : Bool) (l : ℕ) (held : List (ℕ × Bool)) : Bool :=
  if lifo then decide (held.head?.map Prod.fst = some l) else decide (l ∈ keys held)

/-! ## One step -/

section Step

variable (locks : ℕ → LockSpin)

/-- **One atomic step of a context** at its program point, on the locks and
the CPU's interrupt flag `irq`. -/
def runCtx (irq : Bool) (x : Ctx) : Option ((ℕ → LockSpin) × Bool × Ctx) :=
  match x.pc with
  | .idle => none
  | .lockTas l r =>
    let (old, lock) := atomicBitTestAndSet (locks l)
    if old then some (update locks l lock, irq, ⟨.lockRestore l r, x.held⟩)
    else some (update locks l lock, irq, ⟨.lockStore l r, (l, r) :: x.held⟩)
  | .lockRestore l r => some (locks, r, ⟨.lockSpin l r, x.held⟩)
  | .lockSpin l r =>
    if (locks l).val then some (locks, irq, x) else some (locks, irq, ⟨.lockDisable l r, x.held⟩)
  | .lockDisable l r => some (locks, false, ⟨.lockTas l r, x.held⟩)
  | .lockStore l r => some (update locks l { locks l with rflags := r }, irq, ⟨.idle, x.held⟩)
  | .tryTas l r =>
    let (old, lock) := atomicBitTestAndSet (locks l)
    if old then some (update locks l lock, irq, ⟨.tryRestore l r, x.held⟩)
    else some (update locks l lock, irq, ⟨.tryStore l r, (l, r) :: x.held⟩)
  | .tryRestore l r => some (locks, r, ⟨.tryRet l false r, x.held⟩)
  | .tryStore l r =>
    some (update locks l { locks l with rflags := r }, irq, ⟨.tryRet l true r, x.held⟩)
  | .tryRet _ _ _ => some (locks, irq, ⟨.idle, x.held⟩)
  | .unlockStore l r =>
    some (update locks l { locks l with val := false }, irq,
      ⟨.unlockRestore r ((x.held.lookup l).getD false), x.held.filter fun e => e.1 != l⟩)
  | .unlockRestore r _ => some (locks, r, ⟨.idle, x.held⟩)

/-- **One step of a CPU.** A call starts from outside the functions, saving
the interrupt flag in the local `rflags` and clearing it (`spin_lock`,
`spin_trylock`), or loading `lock->rflags` (`spin_unlock`). An interrupt is
taken only while the flag is set, and the handler runs with it clear; it
returns, restoring the interrupted context and its flag, once outside the
functions and holding no lock. -/
def stepCpu (lifo : Bool) (cpu : Cpu) : Act → Option ((ℕ → LockSpin) × Cpu)
  | .spinLock l =>
    if cpu.ctx.pc = .idle ∧ l ∉ keys cpu.ctx.held then
      some (locks, { cpu with irq := false, ctx := ⟨.lockTas l cpu.irq, cpu.ctx.held⟩ })
    else none
  | .spinTrylock l =>
    if cpu.ctx.pc = .idle ∧ l ∉ keys cpu.ctx.held then
      some (locks, { cpu with irq := false, ctx := ⟨.tryTas l cpu.irq, cpu.ctx.held⟩ })
    else none
  | .spinUnlock l =>
    if cpu.ctx.pc = .idle ∧ canUnlock lifo l cpu.ctx.held then
      some (locks, { cpu with ctx := ⟨.unlockStore l (locks l).rflags, cpu.ctx.held⟩ })
    else none
  | .run => (runCtx locks cpu.irq cpu.ctx).map fun r => (r.1, { cpu with irq := r.2.1, ctx := r.2.2 })
  | .irq => if cpu.irq then some (locks, ⟨false, ⟨.idle, []⟩, (cpu.ctx, cpu.irq) :: cpu.saved⟩) else none
  | .iret =>
    match cpu.saved with
    | [] => none
    | (x, f) :: rest => if cpu.ctx.pc = .idle ∧ cpu.ctx.held = [] then some (locks, ⟨f, x, rest⟩) else none

end Step

/-- **One step of the system**: CPU `c` does `a`; every other CPU stays. -/
def step (lifo : Bool) (s : State) (c : ℕ) (a : Act) : Option State :=
  (stepCpu s.locks lifo (s.cpus c) a).map fun r => ⟨r.1, update s.cpus c r.2⟩

/-- Boot: every lock initialised by `spin_init`, its `rflags` whatever memory
held, and every CPU outside the functions, holding nothing, with its own
interrupt flag. -/
def init (locks₀ : ℕ → LockSpin) (irq₀ : ℕ → Bool) : State :=
  ⟨fun l => spinInit (locks₀ l), fun c => ⟨irq₀ c, ⟨.idle, []⟩, []⟩⟩

/-- **The states of every interleaving** of the CPUs' steps from boot. -/
inductive Reachable (lifo : Bool) : State → Prop
  | init (locks₀ : ℕ → LockSpin) (irq₀ : ℕ → Bool) : Reachable lifo (init locks₀ irq₀)
  | step {s s' : State} (c : ℕ) (a : Act) :
    Reachable lifo s → step lifo s c a = some s' → Reachable lifo s'

/-- **A schedule** run from `s`: in turn, each CPU named does what is named
with it. -/
def runSchedule (lifo : Bool) (s : State) : List (ℕ × Act) → Option State
  | [] => some s
  | (c, a) :: as => (step lifo s c a).bind fun s' => runSchedule lifo s' as

/-- What a schedule reaches from a reachable state is reachable. -/
theorem Reachable.runSchedule {lifo : Bool} {s : State} (hr : Reachable lifo s) :
    ∀ {as : List (ℕ × Act)} {s' : State}, Spinlock.runSchedule lifo s as = some s' →
      Reachable lifo s'
  | [], _, h => Option.some.inj h ▸ hr
  | (c, a) :: _, _, h => by
    obtain ⟨s₁, h₁, h⟩ := Option.bind_eq_some.1 h
    exact (hr.step c a h₁).runSchedule h

end Spinlock

end Mcube
