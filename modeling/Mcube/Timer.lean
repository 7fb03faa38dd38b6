import Mcube.VmMap
import Mathlib.Data.Nat.Bitwise
import Mathlib.Data.List.OfFn

/-!
# The timers

`arch/x86/pit.c` programs the i8253/i8254 PIT through four I/O ports: a
control word to `PIT_CONTROL` (`0x43`) selects a counter, its mode and how
its count is written (`RW_16bit`: least significant byte first), and the
count then goes to the counter's port. `pit_set_counter(us, reg)` computes
the count of a delay of `us` µs as `PIT_CLOCK_RATE / ((1000 * 1000) / us)`
and writes its two bytes; `pit_mdelay` runs counter 2, gated by bit 0 of
port `0x61`; `pit_oneshot`, `init_timer`, `start_timer` and `stop_timer`
program counter 0, and `start_timer`'s periodic mode is guarded by
`timer0_monotonic`, which `pit_oneshot` refuses to override.
`arch/x86/apic.c` computes the count of the local APIC timer the same way
from the bus clock (`apic_set_counter_us`), which it calibrates against the
PIT (`pit_calibrate_apic_timer`), as it does the processor clock
(`pit_calibrate_cpu`).

What is proved:

* The count is never short of the delay asked for, and over it by at most
  the factor `10⁶ / (10⁶ - us)`, because `(1000 * 1000) / us` rounds down
  (`counterFor_bounds`).
* The driver and the chip: over any sequence of calls, from a chip whose
  counter 0 takes a 16-bit count, the bytes the driver writes leave in the
  counters exactly the modes and counts the calls are for, faults included
  (`run_refines`). So counter 0 runs periodic only while
  `timer0_monotonic` is set, and `pit_oneshot` never overrides it
  (`periodic_monotonic`); but nothing clears the flag, so after
  `start_timer` no `pit_oneshot` succeeds, `stop_timer` notwithstanding
  (`oneshot_after_startTimer`).
* The APIC calibration is 200 times the fewest ticks the timer counted in
  the five runs, in the 32-bit arithmetic of `ticks_min`
  (`pitCalibrateApicTimer_eq`), and `apic_ipi_acked`'s `while (timeout--)`
  polls exactly 100 times (`apicIpiAcked_iff`).

The chip is modelled as the comments of `pit.c` describe it: the fields of
the control word (`union pit_cmd`), the read/write modes `RW_*`, GATE-2 and
the speaker glue at bits 0 and 1 of port `0x61`. Bytes and the `uint32_t`
and `uint64_t` values of the calibrations are bit vectors of their widths.
The busy-waits on OUT-2 and on the APIC's current count wait for hardware
time and are not modelled; nor are the APIC's register layouts, which are
not among the sources.
-/

namespace Mcube

namespace Timer

open VmMap (Fault)

/-! ## The count for a delay -/

/-- `1000 * 1000`: microseconds in a second. -/
def usPerSec : ℕ := 1000 * 1000

/-- The count `pit_set_counter` and `apic_set_counter_us` compute for `us`
microseconds of a clock of `clock` Hz, `clock / ((1000 * 1000) / us)`,
behind their `assert`s `us > 0`, `(1000 * 1000) / us > 0` and
`counter <= max`. -/
def counterFor (clock max us : ℕ) : Except Fault ℕ :=
  if 0 < us ∧ 0 < usPerSec / us then
    if clock / (usPerSec / us) ≤ max then pure (clock / (usPerSec / us)) else throw .assert
  else throw .assert

theorem counterFor_eq_ok {clock max us c : ℕ} :
    counterFor clock max us = .ok c ↔
      0 < us ∧ us ≤ usPerSec ∧ c = clock / (usPerSec / us) ∧ c ≤ max := by
  unfold counterFor
  by_cases h₁ : 0 < us ∧ 0 < usPerSec / us
  · have hle : us ≤ usPerSec := (Nat.div_pos_iff h₁.1.ne').mp h₁.2
    rw [if_pos h₁]
    split_ifs with h₂ <;> simp only [pure, Except.pure, throw, throwThe, MonadExceptOf.throw,
      Except.ok.injEq, reduceCtorEq, false_iff] <;> omega
  · rw [if_neg h₁]
    simp only [throw, throwThe, MonadExceptOf.throw, reduceCtorEq, false_iff]
    exact fun ⟨hu, hle, _⟩ => h₁ ⟨hu, Nat.div_pos hle hu⟩

theorem map_eq_ok {ε α β : Type} {f : α → β} {x : Except ε α} {b : β} :
    f <$> x = .ok b ↔ ∃ a, x = .ok a ∧ f a = b := by
  cases x <;> simp [Functor.map, Except.map]

/-- **The count is never short of the delay, and long by at most the factor
`10⁶ / (10⁶ - us)`**: `c` ticks of the clock last at least the `us` µs asked
for, up to a tick, and `(1000 * 1000) / us` rounding down lengthens them by
at most `us / (10⁶ - us)` of the delay. -/
theorem counterFor_bounds {clock max us c : ℕ} (h : counterFor clock max us = .ok c) :
    clock * us / usPerSec ≤ c ∧ c * (usPerSec - us) ≤ clock * us := by
  obtain ⟨hu, hle, rfl, -⟩ := counterFor_eq_ok.mp h
  have hq : 0 < usPerSec / us := Nat.div_pos hle hu
  have hqu : usPerSec / us * us ≤ usPerSec := Nat.div_mul_le_self _ _
  have hqu' : usPerSec < usPerSec / us * us + us := Nat.lt_div_mul_add hu
  constructor
  · apply Nat.lt_succ_iff.mp
    rw [Nat.div_lt_iff_lt_mul (by decide)]
    calc clock * us < (clock / (usPerSec / us) + 1) * (usPerSec / us) * us := by
          refine Nat.mul_lt_mul_of_pos_right ?_ hu
          rw [Nat.succ_mul]; exact Nat.lt_div_mul_add hq
      _ ≤ (clock / (usPerSec / us) + 1) * usPerSec := by
          rw [Nat.mul_assoc]; exact Nat.mul_le_mul_left _ hqu
  · calc clock / (usPerSec / us) * (usPerSec - us)
        ≤ clock / (usPerSec / us) * (usPerSec / us * us) := Nat.mul_le_mul_left _ (by omega)
      _ = clock / (usPerSec / us) * (usPerSec / us) * us := (Nat.mul_assoc _ _ _).symm
      _ ≤ clock * us := Nat.mul_le_mul_right _ (Nat.div_mul_le_self _ _)

theorem counterFor_bounds_ten_ms :
    counterFor 1193182 0xffff 10000 = .ok 11931 ∧
      1193182 * 10000 / usPerSec ≤ 11931 ∧ 11931 * (usPerSec - 10000) ≤ 1193182 * 10000 :=
  ⟨rfl, @counterFor_bounds 1193182 0xffff 10000 11931 rfl⟩

/-! ## The PIT -/

/-- `PIT_CLOCK_RATE`: the PIT's input clock, in Hz. -/
def pitClockRate : ℕ := 1193182

/-- `PIT_GATE2`: bit 0 of port `0x61`, the PIT's GATE-2 input. -/
def pitGate2 : BitVec 8 := 0x1

/-- `PIT_SPEAKER`: bit 1 of port `0x61`, the glue between OUT-2 and the
speaker. -/
def pitSpeaker : BitVec 8 := 0x2

/-- `PIT_COUNTER0`: the port of counter 0; counters 1 and 2 follow it. -/
def pitCounter0 : ℕ := 0x40

/-- `PIT_COUNTER2`. -/
def pitCounter2 : ℕ := 0x42

/-- `PIT_CONTROL`: the control word register. -/
def pitControl : ℕ := 0x43

/-- `RW_LATCH`: the counter latch command. -/
def rwLatch : Fin 4 := 0x0

/-- `RW_LSB`: least significant byte only. -/
def rwLsb : Fin 4 := 0x1

/-- `RW_MSB`: most significant byte only. -/
def rwMsb : Fin 4 := 0x2

/-- `RW_16bit`: least, then most significant byte. -/
def rw16bit : Fin 4 := 0x3

/-- `MODE_0`: a single interrupt on timeout. -/
def mode0 : Fin 8 := 0x0

/-- `MODE_2`: the rate generator. -/
def mode2 : Fin 8 := 0x2

/-- `union pit_cmd`: the bit fields `bcd: 1, mode: 3, rw: 2, timer: 2` of
the byte `raw`, from bit 0 up. -/
structure PitCmd where
  bcd : Fin 2
  mode : Fin 8
  rw : Fin 4
  timer : Fin 4
  deriving DecidableEq, Repr

namespace PitCmd

/-- `cmd.raw`. -/
def raw (c : PitCmd) : BitVec 8 :=
  BitVec.ofNat 8 (c.bcd.val + 2 * c.mode.val + 16 * c.rw.val + 64 * c.timer.val)

/-- The fields of the byte `b`, as the chip reads a control word. -/
def ofRaw (b : BitVec 8) : PitCmd :=
  ⟨⟨b.toNat % 2, Nat.mod_lt _ (by decide)⟩, ⟨b.toNat / 2 % 8, Nat.mod_lt _ (by decide)⟩,
    ⟨b.toNat / 16 % 4, Nat.mod_lt _ (by decide)⟩, ⟨b.toNat / 64 % 4, Nat.mod_lt _ (by decide)⟩⟩

/-- The chip reads back the fields the driver set. -/
@[simp] theorem ofRaw_raw (c : PitCmd) : ofRaw c.raw = c := by
  have := c.bcd.isLt; have := c.mode.isLt; have := c.rw.isLt; have := c.timer.isLt
  have h : c.raw.toNat = c.bcd.val + 2 * c.mode.val + 16 * c.rw.val + 64 * c.timer.val := by
    simp only [raw, BitVec.toNat_ofNat]; omega
  simp only [ofRaw, h]
  congr 1 <;> apply Fin.ext <;> dsimp only <;> omega

/-- Every byte is a control word. -/
theorem raw_ofRaw (b : BitVec 8) : (ofRaw b).raw = b := by
  apply BitVec.eq_of_toNat_eq
  have := b.isLt
  simp only [raw, ofRaw, BitVec.toNat_ofNat]
  omega

end PitCmd

/-- A counter of the PIT, as the chip holds it: the mode and the read/write
mode of its last control word, whether the LSB of a `RW_16bit` count has
come and its MSB is next, that LSB, and the count loaded last. -/
structure Counter where
  mode : Fin 8
  rw : Fin 4
  msbNext : Bool
  lsb : BitVec 8
  count : ℕ

/-- The counter after a control word selecting `mode` and `rw`: no byte of a
count has come. -/
def Counter.program (c : Counter) (mode : Fin 8) (rw : Fin 4) : Counter :=
  { c with mode := mode, rw := rw, msbNext := false }

@[simp] theorem Counter.program_mode (c : Counter) (mode : Fin 8) (rw : Fin 4) :
    (c.program mode rw).mode = mode := rfl

@[simp] theorem Counter.program_rw (c : Counter) (mode : Fin 8) (rw : Fin 4) :
    (c.program mode rw).rw = rw := rfl

@[simp] theorem Counter.program_msbNext (c : Counter) (mode : Fin 8) (rw : Fin 4) :
    (c.program mode rw).msbNext = false := rfl

@[simp] theorem Counter.program_count (c : Counter) (mode : Fin 8) (rw : Fin 4) :
    (c.program mode rw).count = c.count := rfl

/-- The counter after the byte `v` comes to its port: the count's LSB or MSB
as its read/write mode says, `RW_16bit` taking the LSB first. -/
def Counter.write (c : Counter) (v : BitVec 8) : Counter :=
  if c.rw = rwLsb then { c with count := v.toNat }
  else if c.rw = rwMsb then { c with count := 256 * v.toNat }
  else if c.rw = rw16bit then
    if c.msbNext then { c with msbNext := false, count := c.lsb.toNat + 256 * v.toNat }
    else { c with msbNext := true, lsb := v }
  else c

/-- The counter once the two bytes of the count `n` have come. -/
def Counter.load (c : Counter) (n : ℕ) : Counter :=
  { c with msbNext := false, lsb := BitVec.ofNat 8 (n &&& 0xff), count := n }

@[simp] theorem Counter.load_mode (c : Counter) (n : ℕ) : (c.load n).mode = c.mode := rfl

@[simp] theorem Counter.load_rw (c : Counter) (n : ℕ) : (c.load n).rw = c.rw := rfl

@[simp] theorem Counter.load_msbNext (c : Counter) (n : ℕ) : (c.load n).msbNext = false := rfl

@[simp] theorem Counter.load_count (c : Counter) (n : ℕ) : (c.load n).count = n := rfl

/-- The PIT's three counters, and port `0x61`. -/
structure Chip where
  counters : Fin 3 → Counter
  port61 : BitVec 8

/-- `outb(v, port)`, as the chip takes it: a control word programs the
counter it selects (a latch command, or timer 3, changes nothing the model
holds), a byte to the port of a counter is written to it, and port `0x61`
takes the byte. -/
def Chip.outb (k : Chip) (v : BitVec 8) (port : ℕ) : Chip :=
  if port = pitControl then
    let cmd := PitCmd.ofRaw v
    if h : cmd.timer.val < 3 ∧ cmd.rw ≠ rwLatch then
      let i : Fin 3 := ⟨cmd.timer.val, h.1⟩
      { k with counters := Function.update k.counters i ((k.counters i).program cmd.mode cmd.rw) }
    else k
  else if h : pitCounter0 ≤ port ∧ port < pitControl then
    let i : Fin 3 := ⟨port - pitCounter0, by simp only [pitCounter0, pitControl] at h ⊢; omega⟩
    { k with counters := Function.update k.counters i ((k.counters i).write v) }
  else if port = 0x61 then { k with port61 := v }
  else k

/-- `timer2_stop`: GATE-2 down. -/
def timer2Stop (k : Chip) : Chip := k.outb (k.port61 &&& ~~~pitGate2) 0x61

/-- `timer2_start`: GATE-2 up, OUT-2 cut off from the speaker. -/
def timer2Start (k : Chip) : Chip := k.outb ((k.port61 ||| pitGate2) &&& ~~~pitSpeaker) 0x61

/-- `pit_set_counter(us, counter_reg)`: the count's low byte, then its high
byte, to the counter's port. -/
def pitSetCounter (us counterReg : ℕ) (k : Chip) : Except Fault Chip := do
  let counter ← counterFor pitClockRate 0xffff us
  let counterLow : BitVec 8 := BitVec.ofNat 8 (counter &&& 0xff)
  let counterHigh : BitVec 8 := BitVec.ofNat 8 (counter >>> 8)
  return (k.outb counterLow counterReg).outb counterHigh counterReg

/-- The control word `pit_mdelay`, `pit_oneshot`, `start_timer` and
`stop_timer` build from `{ .raw = 0 }`: a binary count in `RW_16bit`, of the
mode and the timer given. -/
def cmdFor (mode : Fin 8) (timer : Fin 3) : PitCmd := ⟨0, mode, rw16bit, timer.castSucc⟩

/-- The driver's state: `timer0_monotonic`, and the chip. -/
structure State where
  timer0Monotonic : Bool
  chip : Chip

/-- `pit_mdelay(us)` up to its busy-wait for OUT-2: GATE-2 down, counter 2
in `MODE_0` and its count, GATE-2 up. -/
def pitMdelay (us : BitVec 32) (s : State) : Except Fault State := do
  let k := (timer2Stop s.chip).outb (cmdFor mode0 2).raw pitControl
  let k ← pitSetCounter us.toNat pitCounter2 k
  return { s with chip := timer2Start k }

/-- The `panic` of `pit_oneshot`. -/
def oneshotPanic : Fault :=
  .panic "PIT: Programming timer0 as one-shot will stop currently setup monotonic mode"

/-- `pit_oneshot(us)`: counter 0 in `MODE_0` and its count, unless
`timer0_monotonic`. -/
def pitOneshot (us : BitVec 32) (s : State) : Except Fault State := do
  if s.timer0Monotonic = true then throw oneshotPanic
  let k ← pitSetCounter us.toNat pitCounter0 (s.chip.outb (cmdFor mode0 0).raw pitControl)
  return { s with chip := k }

/-- `init_timer(tick_us)`: the count of counter 0, with no control word; the
`unsigned long` `tick_us` is passed as the `uint32_t` of `pit_set_counter`. -/
def initTimer (tickUs : BitVec 64) (s : State) : Except Fault State := do
  let k ← pitSetCounter (tickUs.toNat % 2 ^ 32) pitCounter0 s.chip
  return { s with chip := k }

/-- `start_timer`: `timer0_monotonic`, and counter 0 in `MODE_2`. -/
def startTimer (s : State) : State := ⟨true, s.chip.outb (cmdFor mode2 0).raw pitControl⟩

/-- `stop_timer`: counter 0 back in `MODE_0`. -/
def stopTimer (s : State) : State := { s with chip := s.chip.outb (cmdFor mode0 0).raw pitControl }

/-- The calls into the driver. -/
inductive Act
  | mdelay (us : BitVec 32)
  | oneshot (us : BitVec 32)
  | initTimer (tickUs : BitVec 64)
  | startTimer
  | stopTimer
  deriving DecidableEq, Repr

/-- One call. -/
def step (s : State) : Act → Except Fault State
  | .mdelay us => pitMdelay us s
  | .oneshot us => pitOneshot us s
  | .initTimer tickUs => initTimer tickUs s
  | .startTimer => pure (startTimer s)
  | .stopTimer => pure (stopTimer s)

/-- A sequence of calls, up to the first fault. -/
def run (s : State) : List Act → Except Fault State
  | [] => pure s
  | a :: as => step s a >>= (run · as)

/-! ## The driver's bytes -/

section Chip

variable (k : Chip)

theorem Chip.outb_cmdFor (mode : Fin 8) (i : Fin 3) :
    k.outb (cmdFor mode i).raw pitControl =
      { k with counters := Function.update k.counters i ((k.counters i).program mode rw16bit) } := by
  simp [Chip.outb, cmdFor, show rw16bit ≠ rwLatch by decide]

theorem Chip.outb_counter (i : Fin 3) (v : BitVec 8) :
    k.outb v (pitCounter0 + i.val) =
      { k with counters := Function.update k.counters i ((k.counters i).write v) } := by
  have := i.isLt
  simp [Chip.outb, pitControl, pitCounter0, show 0x40 + i.val ≠ 0x43 by omega,
    show 0x40 + i.val < 0x43 by omega]

theorem Chip.outb_port61 (v : BitVec 8) : k.outb v 0x61 = { k with port61 := v } := rfl

end Chip

/-- The two bytes of a count in `RW_16bit`, LSB first, load the count. -/
theorem Counter.write_write (c : Counter) (h : c.rw = rw16bit) (hm : c.msbNext = false) {n : ℕ}
    (hn : n ≤ 0xffff) :
    (c.write (BitVec.ofNat 8 (n &&& 0xff))).write (BitVec.ofNat 8 (n >>> 8)) =
      { c with msbNext := false, lsb := BitVec.ofNat 8 (n &&& 0xff), count := n } := by
  have hb : (n &&& 0xff) % 2 ^ 8 + 256 * (n >>> 8 % 2 ^ 8) = n := by
    rw [show (0xff : ℕ) = 2 ^ 8 - 1 from rfl, Nat.and_pow_two_sub_one_eq_mod, Nat.shiftRight_eq_div_pow]
    omega
  simp only [Counter.write, h, hm, show rw16bit ≠ rwLsb by decide, show rw16bit ≠ rwMsb by decide,
    if_false, if_true, Bool.false_eq_true, BitVec.toNat_ofNat, hb]

/-- `pit_set_counter` to a counter in `RW_16bit`, with no LSB waiting, loads
it with the count. -/
theorem pitSetCounter_ready {k : Chip} {i : Fin 3} (h : (k.counters i).rw = rw16bit)
    (hm : (k.counters i).msbNext = false) (us : ℕ) :
    pitSetCounter us (pitCounter0 + i.val) k =
      (fun n => { k with counters := Function.update k.counters i ((k.counters i).load n) }) <$>
        counterFor pitClockRate 0xffff us := by
  cases hc : counterFor pitClockRate 0xffff us with
  | error e => simp [pitSetCounter, hc]
  | ok n =>
    simp only [pitSetCounter, hc, Chip.outb_counter, Function.update_same, Function.update_idem]
    exact congrArg Except.ok (by rw [Counter.write_write _ h hm (counterFor_eq_ok.mp hc).2.2.2]; rfl)

/-! ## What the calls are for -/

/-- The timers as the driver means them: `timer0_monotonic`, the mode and
count of counters 0 and 2, GATE-2 and the speaker glue. -/
structure Timers where
  monotonic : Bool
  counter0Mode : Fin 8
  counter0Count : ℕ
  counter2Mode : Fin 8
  counter2Count : ℕ
  gate2 : Bool
  speaker : Bool
  deriving DecidableEq, Repr

/-- What each call is for: `pit_mdelay` runs counter 2 for the count of its
delay, `pit_oneshot` and `init_timer` load counter 0 with theirs, and
`start_timer` and `stop_timer` set its mode; the `assert`s and the guard of
`pit_oneshot` as in the driver. -/
def Timers.exec (t : Timers) : Act → Except Fault Timers
  | .mdelay us => do
    let c ← counterFor pitClockRate 0xffff us.toNat
    return { t with counter2Mode := mode0, counter2Count := c, gate2 := true, speaker := false }
  | .oneshot us => do
    if t.monotonic = true then throw oneshotPanic
    let c ← counterFor pitClockRate 0xffff us.toNat
    return { t with counter0Mode := mode0, counter0Count := c }
  | .initTimer tickUs => do
    let c ← counterFor pitClockRate 0xffff (tickUs.toNat % 2 ^ 32)
    return { t with counter0Count := c }
  | .startTimer => pure { t with monotonic := true, counter0Mode := mode2 }
  | .stopTimer => pure { t with counter0Mode := mode0 }

/-- A sequence of calls, said of the timers. -/
def Timers.run (t : Timers) : List Act → Except Fault Timers
  | [] => pure t
  | a :: as => t.exec a >>= (Timers.run · as)

/-- What the flag and the chip hold of the timers. -/
def State.timers (s : State) : Timers :=
  ⟨s.timer0Monotonic, (s.chip.counters 0).mode, (s.chip.counters 0).count,
    (s.chip.counters 2).mode, (s.chip.counters 2).count, s.chip.port61.getLsbD 0,
    s.chip.port61.getLsbD 1⟩

/-- Counter 0 takes a count as the driver writes it: in `RW_16bit`, with no
LSB waiting for its MSB. -/
def Chip.Ready (k : Chip) : Prop := (k.counters 0).rw = rw16bit ∧ (k.counters 0).msbNext = false

theorem step_refines {s : State} (h : s.chip.Ready) (a : Act) :
    State.timers <$> step s a = s.timers.exec a ∧ ∀ s', step s a = .ok s' → s'.chip.Ready := by
  have h2 : pitCounter2 = pitCounter0 + (2 : Fin 3).val := rfl
  have h0 : pitCounter0 = pitCounter0 + (0 : Fin 3).val := rfl
  cases a with
  | mdelay us =>
    simp only [step, pitMdelay, timer2Stop, Chip.outb_port61, Chip.outb_cmdFor, h2]
    rw [pitSetCounter_ready (by simp) (by simp)]
    cases hc : counterFor pitClockRate 0xffff us.toNat with
    | error e => simp [Timers.exec, hc]
    | ok n =>
      refine ⟨?_, ?_⟩
      · simp [Timers.exec, hc, State.timers, timer2Start, Chip.outb_port61, pitGate2, pitSpeaker]
      · rintro s' ⟨⟩
        simpa [Chip.Ready, timer2Start, Chip.outb_port61] using h
  | oneshot us =>
    by_cases hf : s.timer0Monotonic = true
    · simp [step, pitOneshot, Timers.exec, State.timers, hf]
    · simp only [step, pitOneshot, hf, Chip.outb_cmdFor]
      rw [h0, pitSetCounter_ready (by simp) (by simp)]
      cases hc : counterFor pitClockRate 0xffff us.toNat with
      | error e => simp [Timers.exec, State.timers, hf, hc]
      | ok n =>
        refine ⟨?_, ?_⟩
        · simp [Timers.exec, State.timers, hf, hc]
        · rintro s' ⟨⟩
          simp [Chip.Ready]
  | initTimer tickUs =>
    simp only [step, initTimer, Timers.exec]
    rw [h0, pitSetCounter_ready h.1 h.2]
    cases hc : counterFor pitClockRate 0xffff (tickUs.toNat % 4294967296) with
    | error e => simp [Timers.exec, hc]
    | ok n =>
      refine ⟨?_, ?_⟩
      · simp [Timers.exec, State.timers, hc]
      · rintro s' ⟨⟩
        simpa [Chip.Ready] using h.1
  | startTimer =>
    refine ⟨?_, ?_⟩
    · simp [step, startTimer, Timers.exec, State.timers, Chip.outb_cmdFor]
    · rintro s' ⟨⟩
      simp [startTimer, Chip.Ready, Chip.outb_cmdFor]
  | stopTimer =>
    refine ⟨?_, ?_⟩
    · simp [step, stopTimer, Timers.exec, State.timers, Chip.outb_cmdFor]
    · rintro s' ⟨⟩
      simp [stopTimer, Chip.Ready, Chip.outb_cmdFor]

/-- **The driver refines the timers**: over any sequence of calls, from a
chip whose counter 0 takes a 16-bit count, the bytes the driver writes leave
in the PIT the modes and counts the calls are for, and a run faults where
and as the calls do. -/
theorem run_refines {s : State} (h : s.chip.Ready) (as : List Act) :
    State.timers <$> run s as = s.timers.run as := by
  induction as generalizing s with
  | nil => rfl
  | cons a as ih =>
    obtain ⟨hstep, hready⟩ := step_refines h a
    simp only [run, Timers.run, ← hstep]
    cases hs : step s a with
    | error e => rfl
    | ok s' => exact ih (hready s' hs)

/-- A chip whose counters are all in `MODE_3` and `RW_16bit`, as boot
firmware may leave it. -/
def sampleChip : Chip := ⟨fun _ => ⟨3, rw16bit, false, 0, 0⟩, 0⟩

theorem run_refines_sampleChip :
    sampleChip.Ready ∧
      State.timers <$> run ⟨false, sampleChip⟩ [.initTimer 10000, .startTimer, .mdelay 1000, .stopTimer] =
        (State.timers ⟨false, sampleChip⟩).run [.initTimer 10000, .startTimer, .mdelay 1000, .stopTimer] :=
  ⟨⟨rfl, rfl⟩, @run_refines ⟨false, sampleChip⟩ ⟨rfl, rfl⟩ _⟩

/-! ## The guard of the periodic mode -/

/-- Counter 0 runs periodic only while `timer0_monotonic` is set. -/
def Timers.Guarded (t : Timers) : Prop := t.counter0Mode = mode2 → t.monotonic = true

theorem Timers.Guarded.exec {t t' : Timers} {a : Act} (hg : t.Guarded) (h : t.exec a = .ok t') :
    t'.Guarded := by
  have h02 : mode0 ≠ mode2 := by decide
  cases a with
  | mdelay us =>
    obtain ⟨n, -, rfl⟩ := map_eq_ok.mp h
    exact hg
  | oneshot us =>
    by_cases hf : t.monotonic = true
    · simp [Timers.exec, hf] at h
    · simp only [Timers.exec, hf] at h
      obtain ⟨n, -, rfl⟩ := map_eq_ok.mp h
      exact fun h => absurd h h02
  | initTimer tickUs =>
    obtain ⟨n, -, rfl⟩ := map_eq_ok.mp h
    exact hg
  | startTimer => cases h; exact fun _ => rfl
  | stopTimer => cases h; exact fun h => absurd h h02

theorem Timers.Guarded.run {t t' : Timers} (hg : t.Guarded) (as : List Act) (h : t.run as = .ok t') :
    t'.Guarded := by
  induction as generalizing t with
  | nil => cases h; exact hg
  | cons a as ih =>
    cases he : t.exec a with
    | error e => rw [Timers.run, he] at h; cases h
    | ok t₁ => rw [Timers.run, he] at h; exact ih (hg.exec he) h

/-- **`pit_oneshot` never overrides the periodic mode**: from a chip whose
counter 0 is ready and periodic only under `timer0_monotonic`, after any
sequence of calls counter 0 runs periodic only while the flag is set, and
`pit_oneshot` then panics. -/
theorem periodic_monotonic {s s' : State} (h : s.chip.Ready)
    (hg : (s.chip.counters 0).mode = mode2 → s.timer0Monotonic = true) {as : List Act}
    (hr : run s as = .ok s') (hp : (s'.chip.counters 0).mode = mode2) (us : BitVec 32) :
    s'.timer0Monotonic = true ∧ step s' (.oneshot us) = .error oneshotPanic := by
  have ht : s.timers.run as = .ok s'.timers := by rw [← run_refines h, hr]; rfl
  have hm : s'.timer0Monotonic = true := Timers.Guarded.run (show s.timers.Guarded from hg) as ht hp
  exact ⟨hm, by simp [step, pitOneshot, hm]; rfl⟩

theorem periodic_monotonic_startTimer :
    sampleChip.Ready ∧ ((sampleChip.counters 0).mode = mode2 → false = true) ∧
      run ⟨false, sampleChip⟩ [.startTimer] = .ok (startTimer ⟨false, sampleChip⟩) ∧
      ((startTimer ⟨false, sampleChip⟩).chip.counters 0).mode = mode2 ∧
      ((startTimer ⟨false, sampleChip⟩).timer0Monotonic = true ∧
        step (startTimer ⟨false, sampleChip⟩) (.oneshot 1000) = .error oneshotPanic) :=
  ⟨⟨rfl, rfl⟩, by decide, rfl, rfl,
    @periodic_monotonic ⟨false, sampleChip⟩ _ ⟨rfl, rfl⟩ (by decide) [.startTimer] rfl rfl 1000⟩

/-! ## The flag stays -/

theorem step_timer0Monotonic {s s' : State} {a : Act} (h : step s a = .ok s')
    (hm : s.timer0Monotonic = true) : s'.timer0Monotonic = true := by
  cases a with
  | mdelay us =>
    obtain ⟨k, -, rfl⟩ := map_eq_ok.mp h
    exact hm
  | oneshot us => simp [step, pitOneshot, hm] at h
  | initTimer tickUs =>
    obtain ⟨k, -, rfl⟩ := map_eq_ok.mp h
    exact hm
  | startTimer => cases h; rfl
  | stopTimer => cases h; exact hm

theorem run_timer0Monotonic {s s' : State} {as : List Act} (h : run s as = .ok s')
    (hm : s.timer0Monotonic = true) : s'.timer0Monotonic = true := by
  induction as generalizing s with
  | nil => cases h; exact hm
  | cons a as ih =>
    cases hs : step s a with
    | error e => rw [run, hs] at h; cases h
    | ok s₁ => rw [run, hs] at h; exact ih h (step_timer0Monotonic hs hm)

theorem run_append (s : State) (as bs : List Act) : run s (as ++ bs) = run s as >>= (run · bs) := by
  induction as generalizing s with
  | nil => rfl
  | cons a as ih =>
    simp only [List.cons_append, run]
    cases step s a <;> simp [ih]

/-- **After `start_timer`, no `pit_oneshot` succeeds**: nothing clears
`timer0_monotonic`, not even `stop_timer`, which puts counter 0 back in
`MODE_0`. -/
theorem oneshot_after_startTimer (s s' : State) (as₁ as₂ : List Act) (us : BitVec 32) :
    run s (as₁ ++ .startTimer :: as₂ ++ [.oneshot us]) ≠ .ok s' := by
  intro h
  rw [run_append] at h
  cases h₁ : run s (as₁ ++ .startTimer :: as₂) with
  | error e => rw [h₁] at h; cases h
  | ok s₂ =>
    have hm : s₂.timer0Monotonic = true := by
      rw [run_append] at h₁
      cases h₀ : run s as₁ with
      | error e => rw [h₀] at h₁; cases h₁
      | ok s₁ => rw [h₀] at h₁; exact @run_timer0Monotonic (startTimer s₁) s₂ as₂ h₁ rfl
    rw [h₁] at h
    change run s₂ [.oneshot us] = .ok s' at h
    simp [run, step, pitOneshot, hm] at h

/-! ## The local APIC timer -/

/-- `apic_set_counter_us(us)`: the count it writes to `APIC_TIMER_INIT_CNT`,
from the calibrated `apic_clock`, against `UINT32_MAX`. -/
def apicSetCounterUs (apicClock us : ℕ) : Except Fault ℕ := counterFor apicClock 0xffffffff us

/-- `diff < diff_min` and `ticks < ticks_min`: the lower of two counts. -/
def lower {w : ℕ} (m d : BitVec w) : BitVec w := if d < m then d else m

/-- `pit_calibrate_cpu(repeat)`, with the time-stamp counter read before and
after each of the `repeat` delays of `us_delay = 5 * 1000` µs: the fewest
ticks `tsc2 - tsc1`, from `UINT64_MAX`, times `(1000 * 1000) / us_delay`. -/
def pitCalibrateCpu (tsc : List (BitVec 64 × BitVec 64)) : BitVec 64 :=
  let usDelay := 5 * 1000
  let diffMin := (tsc.map fun t => t.2 - t.1).foldl lower 0xffffffffffffffff
  diffMin * BitVec.ofNat 64 (usPerSec / usDelay)

/-- The loop of `pit_calibrate_apic_timer`, with what `APIC_TIMER_CUR_CNT`
reads after each delay: each run counts down from `counter1`, the `assert`
that it did, and the fewest ticks so far. -/
def apicTicksLoop (counter1 : BitVec 32) : BitVec 32 → List (BitVec 32) → Except Fault (BitVec 32)
  | ticksMin, [] => pure ticksMin
  | ticksMin, counter2 :: rest =>
    if counter1 > counter2 then apicTicksLoop counter1 (lower ticksMin (counter1 - counter2)) rest
    else throw .assert

/-- `pit_calibrate_apic_timer`, with the five reads of `APIC_TIMER_CUR_CNT`:
`counter1 = ticks_min = UINT32_MAX`, the loop, and
`ticks_min * ((1000 * 1000) / us_delay)` in the `uint32_t` arithmetic of
`ticks_min`, widened to the `uint64_t` `apic_clock`. -/
def pitCalibrateApicTimer (curCnt : Fin 5 → BitVec 32) : Except Fault (BitVec 64) := do
  let usDelay := 5 * 1000
  let ticksMin ← apicTicksLoop 0xffffffff 0xffffffff (List.ofFn curCnt)
  return (ticksMin * BitVec.ofNat 32 (usPerSec / usDelay)).setWidth 64

section Lower

variable {w : ℕ}

theorem foldl_lower_le (m : BitVec w) (xs : List (BitVec w)) :
    xs.foldl lower m ≤ m ∧ ∀ x ∈ xs, xs.foldl lower m ≤ x := by
  induction xs generalizing m with
  | nil => simp
  | cons x xs ih =>
    obtain ⟨h₁, h₂⟩ := ih (lower m x)
    have hm : lower m x ≤ m ∧ lower m x ≤ x := by
      unfold lower; split_ifs with h <;> simp only [BitVec.le_def, BitVec.lt_def] at * <;> omega
    simp only [List.foldl_cons, List.mem_cons, forall_eq_or_imp]
    exact ⟨BitVec.le_trans h₁ hm.1, BitVec.le_trans h₁ hm.2, h₂⟩

theorem foldl_lower_mem (m : BitVec w) (xs : List (BitVec w)) :
    xs.foldl lower m = m ∨ xs.foldl lower m ∈ xs := by
  induction xs generalizing m with
  | nil => simp
  | cons x xs ih =>
    simp only [List.foldl_cons, List.mem_cons]
    rcases ih (lower m x) with h | h
    · rw [h]; unfold lower; split_ifs <;> simp
    · exact .inr (.inr h)

end Lower

theorem apicTicksLoop_eq (counter1 m : BitVec 32) (xs : List (BitVec 32)) (h : ∀ x ∈ xs, x < counter1) :
    apicTicksLoop counter1 m xs = .ok ((xs.map (counter1 - ·)).foldl lower m) := by
  induction xs generalizing m with
  | nil => rfl
  | cons x xs ih =>
    rw [apicTicksLoop, if_pos (h x (List.mem_cons_self _ _)), ih _ fun y hy => h y (List.mem_cons_of_mem _ hy)]
    rfl

/-- **The APIC calibration is 200 times the fewest ticks counted**, in the
32-bit arithmetic of `ticks_min`: when every run counted down, `apic_clock`
is `200 × (UINT32_MAX - c) mod 2³²` for the highest count `c` left. -/
theorem pitCalibrateApicTimer_eq (curCnt : Fin 5 → BitVec 32) (h : ∀ i, curCnt i < 0xffffffff) :
    ∃ i, (∀ j, curCnt j ≤ curCnt i) ∧
      pitCalibrateApicTimer curCnt = .ok (BitVec.ofNat 64 ((0xffffffff - (curCnt i).toNat) * 200 % 2 ^ 32)) := by
  have mem : ∀ j, 0xffffffff - curCnt j ∈ (List.ofFn curCnt).map (0xffffffff - ·) :=
    fun j => List.mem_map_of_mem _ ((List.mem_ofFn _ _).mpr ⟨j, rfl⟩)
  have hle := foldl_lower_le 0xffffffff ((List.ofFn curCnt).map (0xffffffff - ·))
  obtain ⟨i, hi⟩ : ∃ i, ((List.ofFn curCnt).map (0xffffffff - ·)).foldl lower 0xffffffff =
      0xffffffff - curCnt i := by
    rcases foldl_lower_mem 0xffffffff ((List.ofFn curCnt).map (0xffffffff - ·)) with h0 | hm
    · have h₀ := hle.2 _ (mem 0)
      rw [h0] at h₀ ⊢
      have := h 0
      exact ⟨0, by bv_omega⟩
    · obtain ⟨x, hx, hx'⟩ := List.mem_map.mp hm
      obtain ⟨i, rfl⟩ := (List.mem_ofFn _ _).mp hx
      exact ⟨i, hx'.symm⟩
  refine ⟨i, fun j => ?_, ?_⟩
  · have hj := hle.2 _ (mem j)
    rw [hi] at hj
    have := h i; have := h j
    bv_omega
  · have hx : ∀ x ∈ List.ofFn curCnt, x < 0xffffffff := fun x hx => by
      obtain ⟨j, rfl⟩ := (List.mem_ofFn _ _).mp hx; exact h j
    simp only [pitCalibrateApicTimer, apicTicksLoop_eq _ _ _ hx, hi]
    have := h i
    refine congrArg Except.ok ?_
    have hsub : (0xffffffff - curCnt i).toNat = 0xffffffff - (curCnt i).toNat := by bv_omega
    rw [← BitVec.ofNat_toNat, BitVec.toNat_mul, hsub, show usPerSec / (5 * 1000) = 200 from rfl]
    rfl

theorem pitCalibrateApicTimer_eq_sample :
    (∀ i : Fin 5, BitVec.ofNat 32 (0xfff00000 + i.val) < 0xffffffff) ∧
      ∃ i : Fin 5, (∀ j : Fin 5, BitVec.ofNat 32 (0xfff00000 + j.val) ≤ BitVec.ofNat 32 (0xfff00000 + i.val)) ∧
        pitCalibrateApicTimer (fun j => BitVec.ofNat 32 (0xfff00000 + j.val)) =
          .ok (BitVec.ofNat 64 ((0xffffffff - (BitVec.ofNat 32 (0xfff00000 + i.val)).toNat) * 200 % 2 ^ 32)) :=
  ⟨by decide, pitCalibrateApicTimer_eq _ (by decide)⟩

/-- The calibration of the processor clock is 200 times the fewest ticks of
the time-stamp counter in a run, in `uint64_t` arithmetic. -/
theorem pitCalibrateCpu_eq (tsc : List (BitVec 64 × BitVec 64)) (h : tsc ≠ []) :
    ∃ t ∈ tsc, (∀ t' ∈ tsc, t.2 - t.1 ≤ t'.2 - t'.1) ∧ pitCalibrateCpu tsc = (t.2 - t.1) * 200 := by
  have hle := foldl_lower_le 0xffffffffffffffff (tsc.map fun t => t.2 - t.1)
  obtain ⟨t, ht, hi⟩ : ∃ t ∈ tsc, (tsc.map fun t => t.2 - t.1).foldl lower 0xffffffffffffffff =
      t.2 - t.1 := by
    rcases foldl_lower_mem 0xffffffffffffffff (tsc.map fun t => t.2 - t.1) with h0 | hm
    · obtain ⟨t, ht⟩ := List.exists_mem_of_ne_nil tsc h
      have h₀ := hle.2 _ (List.mem_map_of_mem _ ht)
      rw [h0] at h₀ ⊢
      exact ⟨t, ht, by bv_omega⟩
    · obtain ⟨t, ht, ht'⟩ := List.mem_map.mp hm
      exact ⟨t, ht, ht'.symm⟩
  refine ⟨t, ht, fun t' ht' => hi ▸ hle.2 _ (List.mem_map_of_mem _ ht'), ?_⟩
  simp only [pitCalibrateCpu, hi]
  rfl

/-- The loop of `apic_ipi_acked` with `timeout` polls left, from the `i`-th:
`idle i` when that poll finds the delivery status idle. -/
def ipiAckedLoop (idle : ℕ → Bool) : ℕ → ℕ → Bool
  | 0, _ => false
  | timeout + 1, i => if idle i then true else ipiAckedLoop idle timeout (i + 1)

/-- `apic_ipi_acked`: `while (timeout--)` from `timeout = 100`. -/
def apicIpiAcked (idle : ℕ → Bool) : Bool := ipiAckedLoop idle 100 0

theorem ipiAckedLoop_iff (idle : ℕ → Bool) (n i : ℕ) :
    ipiAckedLoop idle n i = true ↔ ∃ j, i ≤ j ∧ j < i + n ∧ idle j = true := by
  induction n generalizing i with
  | zero => simp only [ipiAckedLoop, Bool.false_eq_true, false_iff]; omega
  | succ n ih =>
    by_cases hi : idle i = true
    · simp only [ipiAckedLoop, hi, if_true, true_iff]
      exact ⟨i, le_rfl, by omega, hi⟩
    · simp only [ipiAckedLoop, hi, Bool.false_eq_true, if_false, ih]
      constructor
      · rintro ⟨j, h₁, h₂, h₃⟩; exact ⟨j, by omega, by omega, h₃⟩
      · rintro ⟨j, h₁, h₂, h₃⟩
        have : j ≠ i := fun e => hi (e ▸ h₃)
        exact ⟨j, by omega, by omega, h₃⟩

/-- **`apic_ipi_acked` polls exactly 100 times**: it reports delivery exactly
when one of the first 100 reads of the ICR finds the IPI delivered. -/
theorem apicIpiAcked_iff (idle : ℕ → Bool) : apicIpiAcked idle = true ↔ ∃ j < 100, idle j = true := by
  rw [apicIpiAcked, ipiAckedLoop_iff]
  simp only [Nat.zero_le, true_and, Nat.zero_add, exists_prop]

end Timer

end Mcube
