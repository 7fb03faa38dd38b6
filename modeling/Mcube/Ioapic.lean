import Mathlib.Data.Nat.Bitwise
import Mathlib.Data.List.Basic
import Mathlib.Algebra.Group.Nat.Basic
import Mathlib.Algebra.Group.Int

/-!
# The I/O APICs

`arch/x86_64/ioapic.c` programs the I/O APICs that the MP tables list. Each
chip is reached through `ioapic_base(apic)`, which maps
`ioapic_descs[apic].base` after `assert(apic < nr_ioapics)`, and its registers
through the select and window words of `ioapic_read` and `ioapic_write`.

The model keeps, per descriptor index, the register file of the chip behind
it. The index is an `int`, as in the source: `ioapic_base(-1)` passes its
`assert` and reaches whatever `ioapic_descs[-1]` holds, which the model
records as the registers behind index `-1`. Register numbers are `uint8_t`, so
`IOAPIC_REDTBL0 + 2*irq` is taken modulo 256, and register values are
`uint32_t`.

Two behaviours of the source are not what the headers promise.
`ioapic_isa_pin` answers `{-1, -1}` when no MP entry routes the ISA IRQ, and
`ioapic_setup_isairq` writes that pin's redirection entry anyway: registers
`0x0f` and `0x0e` behind index `-1` (`ioapicSetupIsairq_unmatched`). And the
masking loop of `ioapic_init` stops before `max_irq`, which `ioapic.h` documents
as an inclusive bound, so the last redirection entry keeps what the BIOS left
in it (`ioapicInit_last_entry`).

`struct mpc_irq`, `enum mp_irqtype`, `enum irq_dst` and
`apic_bootstrap_id()` are not among the sources: an MP entry carries the fields
the code reads, the two IRQ types are distinct constants, the destination is
one of the two cases of the switch or any other value, and the bootstrap id is
a parameter. A failed `assert` gives `none`.
-/

namespace Mcube

namespace Ioapic

/-- `IOAPIC_ID`. -/
def ioapicIdReg : ℕ := 0x00

/-- `IOAPIC_VER`. -/
def ioapicVerReg : ℕ := 0x01

/-- `IOAPIC_REDTBL0`. -/
def ioapicRedtbl0 : ℕ := 0x10

/-- `IOAPIC_DELMOD_FIXED`. -/
def ioapicDelmodFixed : ℕ := 0x0

/-- `IOAPIC_DELMOD_EXTINT`. -/
def ioapicDelmodExtint : ℕ := 0x7

/-- `IOAPIC_DESTMOD_PHYSICAL`. -/
def ioapicDestmodPhysical : ℕ := 0x0

/-- `IOAPIC_DESTMOD_LOGICAL`. -/
def ioapicDestmodLogical : ℕ := 0x1

/-- `IOAPIC_POLARITY_HIGH`. -/
def ioapicPolarityHigh : ℕ := 0x0

/-- `IOAPIC_TRIGGER_EDGE`. -/
def ioapicTriggerEdge : ℕ := 0x0

/-- `IOAPIC_UNMASK`. -/
def ioapicUnmask : ℕ := 0x0

/-- `IOAPIC_MASK`. -/
def ioapicMask : ℕ := 0x1

/-- `IOAPIC_DEST_BROADCAST`. -/
def ioapicDestBroadcast : ℕ := 0xff

/-- `MP_INT` of `enum mp_irqtype`. -/
def mpInt : ℕ := 0

/-- `MP_ExtINT` of `enum mp_irqtype`. -/
def mpExtint : ℕ := 3

/-- `struct ioapic_desc`. -/
structure IoapicDesc where
  id : ℕ
  version : ℕ
  base : ℕ
  maxIrq : ℕ
  deriving DecidableEq, Repr, Inhabited

/-- `struct ioapic_pin`. -/
structure IoapicPin where
  apic : ℤ
  pin : ℤ
  deriving DecidableEq, Repr

/-- The fields of an `mp_irqs` entry that the IOAPIC code reads. -/
structure MpIrq where
  type : ℕ
  srcBusid : ℕ
  srcBusirq : ℕ
  dstIoapicid : ℕ
  dstIoapicpin : ℕ
  deriving DecidableEq, Repr

/-- `mp_isa_busid` and `mp_irqs[0 .. nr_mpcirqs)`. -/
structure MpTables where
  isaBusid : ℤ
  irqs : List MpIrq
  deriving DecidableEq, Repr

/-- The value of an `enum irq_dst`: the two cases of the switch, or any other. -/
inductive IrqDst
  | bootstrap
  | broadcast
  | other
  deriving DecidableEq, Repr

/-- The I/O APIC system: `ioapic_descs[0 .. nr_ioapics)`, the register file
behind each descriptor index, and `i8259_pin`. -/
structure IoapicState where
  descs : List IoapicDesc
  regs : ℤ → ℕ → ℕ
  i8259Pin : IoapicPin

/-- An `int` converted to `uint8_t`. -/
def u8 (x : ℤ) : ℕ := (x % 2 ^ 8).toNat

/-- The registers with `v` in register `r` behind index `apic`. -/
def IoapicState.setReg (s : IoapicState) (apic : ℤ) (r v : ℕ) : IoapicState :=
  { s with regs := fun a r' => if a = apic ∧ r' = r then v else s.regs a r' }

@[simp] theorem IoapicState.setReg_descs (s : IoapicState) (apic : ℤ) (r v : ℕ) :
    (s.setReg apic r v).descs = s.descs := rfl

@[simp] theorem IoapicState.setReg_i8259Pin (s : IoapicState) (apic : ℤ) (r v : ℕ) :
    (s.setReg apic r v).i8259Pin = s.i8259Pin := rfl

theorem IoapicState.setReg_regs (s : IoapicState) (apic : ℤ) (r v : ℕ) (a : ℤ) (r' : ℕ) :
    (s.setReg apic r v).regs a r' = if a = apic ∧ r' = r then v else s.regs a r' := rfl

/-! ## Register access -/

/-- `ioapic_read(apic, reg)`. -/
def ioapicRead (s : IoapicState) (apic : ℤ) (reg : ℕ) : Option ℕ :=
  if apic < s.descs.length then some (s.regs apic (reg % 2 ^ 8)) else none

/-- `ioapic_write(apic, reg, value)`. -/
def ioapicWrite (s : IoapicState) (apic : ℤ) (reg value : ℕ) : Option IoapicState :=
  if apic < s.descs.length then some (s.setReg apic (reg % 2 ^ 8) (value % 2 ^ 32)) else none

/-- The fields of `union ioapic_irqentry` that `ioapic_setup_isairq` sets; the
others stay 0. -/
structure Irqentry where
  vector : ℕ
  deliveryMode : ℕ
  destMode : ℕ
  polarity : ℕ
  trigger : ℕ
  mask : ℕ
  dest : ℕ
  deriving DecidableEq, Repr

/-- `entry.value_low`: `vector:8, delivery_mode:3, dest_mode:1,
delivery_status:1, polarity:1, remote_irr:1, trigger:1, mask:1`. -/
def Irqentry.valueLow (e : Irqentry) : ℕ :=
  e.vector % 2 ^ 8 + 2 ^ 8 * (e.deliveryMode % 2 ^ 3) + 2 ^ 11 * (e.destMode % 2) +
    2 ^ 13 * (e.polarity % 2) + 2 ^ 15 * (e.trigger % 2) + 2 ^ 16 * (e.mask % 2)

/-- `entry.value_high`: `reserved1:24, dest:8`. -/
def Irqentry.valueHigh (e : Irqentry) : ℕ := 2 ^ 24 * (e.dest % 2 ^ 8)

/-- `ioapic_write_irqentry(apic, irq, entry)`: the upper half first. -/
def ioapicWriteIrqentry (s : IoapicState) (apic : ℤ) (irq : ℕ) (e : Irqentry) :
    Option IoapicState :=
  (ioapicWrite s apic (ioapicRedtbl0 + 2 * irq + 1) e.valueHigh).bind fun s =>
    ioapicWrite s apic (ioapicRedtbl0 + 2 * irq) e.valueLow

/-- `ioapic_mask_irq(apic, irq)`: set the one-bit `mask` field of the low word
to `IOAPIC_MASK`. -/
def ioapicMaskIrq (s : IoapicState) (apic : ℤ) (irq : ℕ) : Option IoapicState :=
  (ioapicRead s apic (ioapicRedtbl0 + 2 * irq)).bind fun low =>
    ioapicWrite s apic (ioapicRedtbl0 + 2 * irq) (low ||| ioapicMask <<< 16)

/-! ## Routing ISA interrupts -/

/-- `ioapic_isa_pin(isa_irq, type)`: the first MP entry that routes the ISA IRQ,
and the first IOAPIC with its destination id. -/
def ioapicIsaPin (mp : MpTables) (descs : List IoapicDesc) (isaIrq type : ℕ) :
    Option IoapicPin :=
  if mp.isaBusid = -1 then none
  else
    match mp.irqs.find? fun e =>
        (e.srcBusid : ℤ) = mp.isaBusid ∧ e.srcBusirq = isaIrq ∧ e.type = type with
    | none => some ⟨-1, -1⟩
    | some e =>
      match descs.findIdx? fun d => e.dstIoapicid = d.id with
      | none => some ⟨-1, -1⟩
      | some apic => some ⟨apic, e.dstIoapicpin⟩

/-- The entry that `ioapic_setup_isairq` builds, by its `switch (dst)`. -/
def isaIrqentry (bootstrapId vector : ℕ) : IrqDst → Option Irqentry
  | .bootstrap => some ⟨vector, ioapicDelmodFixed, ioapicDestmodPhysical, ioapicPolarityHigh,
      ioapicTriggerEdge, ioapicUnmask, bootstrapId⟩
  | .broadcast => some ⟨vector, ioapicDelmodFixed, ioapicDestmodLogical, ioapicPolarityHigh,
      ioapicTriggerEdge, ioapicUnmask, ioapicDestBroadcast⟩
  | .other => none

/-- `ioapic_setup_isairq(irq, vector, dst)`, with `apic_bootstrap_id()` given. -/
def ioapicSetupIsairq (mp : MpTables) (bootstrapId : ℕ) (s : IoapicState) (irq vector : ℕ)
    (dst : IrqDst) : Option IoapicState :=
  (ioapicIsaPin mp s.descs irq mpInt).bind fun pin =>
    (isaIrqentry bootstrapId vector dst).bind fun e =>
      ioapicWriteIrqentry s pin.apic (u8 pin.pin) e

/-! ## Initialization -/

/-- `ioapic_get_8259A_pin()`: the first routing entry, over the IOAPICs and
their pins `0 .. max_irq`, that is unmasked with delivery mode ExtInt. Its reads
are in range, so `ioapic_read`'s `assert` holds. -/
def ioapicGet8259APin (s : IoapicState) : IoapicPin :=
  let hits := (List.range s.descs.length).flatMap fun apic =>
    (List.range ((s.descs.getD apic default).maxIrq + 1)).filterMap fun irq =>
      let low := s.regs apic ((ioapicRedtbl0 + 2 * irq) % 2 ^ 8)
      if (low >>> 8) % 2 ^ 3 = ioapicDelmodExtint ∧ (low >>> 16) % 2 = ioapicUnmask then
        some (⟨apic, irq⟩ : IoapicPin)
      else none
  hits.headD ⟨-1, -1⟩

/-- One pass of `ioapic_init`'s first loop: write the BIOS id to the chip if it
differs, and read the version and `max_irq` into the descriptor. -/
def initDesc (s : IoapicState) (apic : ℕ) : Option IoapicState :=
  (ioapicRead s apic ioapicIdReg).bind fun id =>
    let desc := s.descs.getD apic default
    let written := if (id >>> 24) % 2 ^ 8 ≠ desc.id then
      ioapicWrite s apic ioapicIdReg (id % 2 ^ 24 + 2 ^ 24 * (desc.id % 2 ^ 8))
    else some s
    written.bind fun s =>
      (ioapicRead s apic ioapicVerReg).bind fun version =>
        let desc := { desc with version := version % 2 ^ 8, maxIrq := (version >>> 16) % 2 ^ 8 }
        some { s with descs := s.descs.set apic desc }

/-- The first loop of `ioapic_init`, over the IOAPICs `0 .. n - 1`. -/
def initDescs (s : IoapicState) : ℕ → Option IoapicState
  | 0 => some s
  | n + 1 => (initDescs s n).bind fun s => initDesc s n

/-- The inner masking loop: `ioapic_mask_irq(apic, irq)` for `irq < n`. -/
def maskLoop (apic : ℕ) (s : IoapicState) : ℕ → Option IoapicState
  | 0 => some s
  | n + 1 => (maskLoop apic s n).bind fun s => ioapicMaskIrq s apic n

/-- The masking loop of `ioapic_init`, over the IOAPICs `0 .. n - 1`, each up
to, and not including, its `max_irq`. -/
def maskAll (s : IoapicState) : ℕ → Option IoapicState
  | 0 => some s
  | n + 1 => (maskAll s n).bind fun s => maskLoop n s (s.descs.getD n default).maxIrq

/-- `ioapic_init()`. -/
def ioapicInit (mp : MpTables) (s : IoapicState) : Option IoapicState :=
  (initDescs s s.descs.length).bind fun s =>
    let pin1 := ioapicGet8259APin s
    (ioapicIsaPin mp s.descs 0 mpExtint).bind fun pin2 =>
      let s := if pin1.apic ≠ -1 then { s with i8259Pin := pin1 }
        else if pin2.apic ≠ -1 then { s with i8259Pin := pin2 } else s
      maskAll s s.descs.length

/-! ## What one access does -/

section Access

variable {s : IoapicState} {apic : ℤ}

theorem ioapicRead_of_lt (h : apic < s.descs.length) (reg : ℕ) :
    ioapicRead s apic reg = some (s.regs apic (reg % 2 ^ 8)) := if_pos h

theorem ioapicWrite_of_lt (h : apic < s.descs.length) (reg value : ℕ) :
    ioapicWrite s apic reg value = some (s.setReg apic (reg % 2 ^ 8) (value % 2 ^ 32)) :=
  if_pos h

/-- `ioapic_mask_irq` sets bit 16 of the low word, as a `uint32_t`. -/
theorem ioapicMaskIrq_of_lt (h : apic < s.descs.length) (irq : ℕ) :
    ioapicMaskIrq s apic irq = some (s.setReg apic ((ioapicRedtbl0 + 2 * irq) % 2 ^ 8)
      ((s.regs apic ((ioapicRedtbl0 + 2 * irq) % 2 ^ 8) ||| 2 ^ 16) % 2 ^ 32)) := by
  simp only [ioapicMaskIrq, ioapicRead_of_lt h, Option.some_bind, ioapicWrite_of_lt h,
    Nat.mod_mod, ioapicMask, Nat.one_shiftLeft]

end Access

/-- Setting the mask bit of a masked word changes nothing. -/
theorem or_mask_bit_idem (x : ℕ) :
    ((x ||| 2 ^ 16) % 2 ^ 32 ||| 2 ^ 16) % 2 ^ 32 = (x ||| 2 ^ 16) % 2 ^ 32 := by
  apply Nat.eq_of_testBit_eq
  intro i
  simp only [Nat.testBit_mod_two_pow, Nat.testBit_or, Nat.testBit_two_pow]
  by_cases h : i < 32 <;> simp [h]

/-! ## The masking loop -/

/-- Register `r` holds one of the first `n` low words of the redirection table. -/
def Reaches (n r : ℕ) : Prop := ∃ i < n, (ioapicRedtbl0 + 2 * i) % 2 ^ 8 = r

instance (n r : ℕ) : Decidable (Reaches n r) :=
  inferInstanceAs (Decidable (∃ i < n, (ioapicRedtbl0 + 2 * i) % 2 ^ 8 = r))

theorem reaches_succ {n r : ℕ} :
    Reaches (n + 1) r ↔ Reaches n r ∨ (ioapicRedtbl0 + 2 * n) % 2 ^ 8 = r := by
  constructor
  · rintro ⟨i, hi, rfl⟩
    rcases Nat.lt_succ_iff_lt_or_eq.mp hi with h | rfl
    · exact .inl ⟨i, h, rfl⟩
    · exact .inr rfl
  · rintro (⟨i, hi, rfl⟩ | rfl)
    · exact ⟨i, by omega, rfl⟩
    · exact ⟨n, by omega, rfl⟩

/-- Below 120 entries the low words are distinct registers `0x10 .. 0xfe`. -/
theorem reaches_iff_of_lt {n i : ℕ} (hn : n < 120) (hi : i < 120) :
    Reaches n (ioapicRedtbl0 + 2 * i) ↔ i < n := by
  unfold Reaches ioapicRedtbl0
  constructor
  · rintro ⟨j, hj, he⟩
    omega
  · exact fun h => ⟨i, h, by omega⟩

/-- The registers once the first `n` low words behind `apic` are masked. -/
def maskedRegs (regs : ℤ → ℕ → ℕ) (apic : ℤ) (n : ℕ) : ℤ → ℕ → ℕ := fun a r =>
  if a = apic ∧ Reaches n r then (regs a r ||| 2 ^ 16) % 2 ^ 32 else regs a r

/-- **The inner masking loop** masks the first `n` low words behind `apic`, and
only them. -/
theorem maskLoop_eq {s : IoapicState} {apic : ℕ} (h : (apic : ℤ) < s.descs.length) (n : ℕ) :
    maskLoop apic s n = some { s with regs := maskedRegs s.regs apic n } := by
  induction n with
  | zero =>
    have h₀ : maskedRegs s.regs apic 0 = s.regs := by
      funext a r
      simp [maskedRegs, Reaches]
    simp only [maskLoop, h₀]
  | succ n ih =>
    have h' : (apic : ℤ) < ({ s with regs := maskedRegs s.regs apic n } : IoapicState).descs.length :=
      h
    rw [maskLoop, ih, Option.some_bind, ioapicMaskIrq_of_lt h']
    simp only [IoapicState.setReg, Option.some.injEq, IoapicState.mk.injEq, and_true, true_and]
    funext a r
    simp only [maskedRegs, reaches_succ]
    by_cases ha : a = apic
    · subst ha
      by_cases hr : r = (ioapicRedtbl0 + 2 * n) % 2 ^ 8
      · subst hr
        by_cases hn : Reaches n ((ioapicRedtbl0 + 2 * n) % 2 ^ 8) <;>
          simp only [hn, and_self, true_and, or_true, if_true, if_false, or_mask_bit_idem]
      · simp only [hr, Ne.symm hr, and_false, or_false, true_and, if_false]
    · simp only [ha, false_and, if_false]

/-- The registers once each IOAPIC below `n` has its first `max_irq` low words
masked. -/
def allMaskedRegs (s : IoapicState) (n : ℕ) : ℤ → ℕ → ℕ := fun a r =>
  if 0 ≤ a ∧ a < n ∧ Reaches (s.descs.getD a.toNat default).maxIrq r then
    (s.regs a r ||| 2 ^ 16) % 2 ^ 32
  else s.regs a r

/-- **The masking loop of `ioapic_init`** masks, behind each IOAPIC below `n`,
the low words of the entries below its `max_irq`. -/
theorem maskAll_eq {s : IoapicState} {n : ℕ} (hn : n ≤ s.descs.length) :
    maskAll s n = some { s with regs := allMaskedRegs s n } := by
  induction n with
  | zero =>
    have h₀ : allMaskedRegs s 0 = s.regs := by
      funext a r
      exact if_neg fun h => absurd h.2.1 (by omega)
    simp only [maskAll, h₀]
  | succ n ih =>
    rw [maskAll, ih (by omega), Option.some_bind, maskLoop_eq (by simp only; omega)]
    simp only [Option.some.injEq, IoapicState.mk.injEq, and_true, true_and]
    funext a r
    simp only [maskedRegs, allMaskedRegs]
    by_cases ha : a = n
    · subst ha
      have h₁ : (0 : ℤ) ≤ n ∧ (n : ℤ) < n + 1 := by omega
      simp [h₁]
    · have hlt : a < ((n + 1 : ℕ) : ℤ) ↔ a < n := by omega
      simp only [ha, false_and, if_false, hlt]

/-! ## The first loop of `ioapic_init` -/

/-- The descriptor that `ioapic_init`'s first loop leaves for IOAPIC `apic`:
the version and `max_irq` fields of its version register. -/
def initedDesc (s : IoapicState) (apic : ℕ) : IoapicDesc :=
  let version := s.regs apic ioapicVerReg
  { s.descs.getD apic default with
    version := version % 2 ^ 8, maxIrq := (version >>> 16) % 2 ^ 8 }

/-- The version register is read from the registers behind the IOAPIC alone,
and the loop writes only `IOAPIC_ID`. -/
theorem initedDesc_congr {s t : IoapicState} {apic : ℕ}
    (hd : s.descs.getD apic default = t.descs.getD apic default)
    (hr : ∀ a r, r ≠ ioapicIdReg → s.regs a r = t.regs a r) :
    initedDesc s apic = initedDesc t apic := by
  simp only [initedDesc, hd, hr _ ioapicVerReg (by decide)]

/-- One pass of the first loop rewrites only the chip's `IOAPIC_ID` register and
its descriptor. -/
theorem initDesc_spec {s : IoapicState} {apic : ℕ} (h : apic < s.descs.length) :
    ∃ s', initDesc s apic = some s' ∧ s'.descs = s.descs.set apic (initedDesc s apic) ∧
      s'.i8259Pin = s.i8259Pin ∧ ∀ a r, r ≠ ioapicIdReg → s'.regs a r = s.regs a r := by
  have h' : (apic : ℤ) < s.descs.length := by exact_mod_cast h
  unfold initDesc
  simp only [ioapicRead, ioapicWrite, h', if_true, Option.some_bind]
  split_ifs with hid
  · simp only [Option.some_bind, IoapicState.setReg_descs, h', if_true]
    refine ⟨_, rfl, ?_, rfl, fun a r hr => if_neg fun h => hr (h.2.trans (by decide))⟩
    rw [IoapicState.setReg_regs, if_neg fun h => absurd h.2 (by decide)]
    rfl
  · simp only [Option.some_bind, h', if_true]
    exact ⟨_, rfl, rfl, rfl, fun _ _ _ => rfl⟩

/-- An entry of a list updated in range. -/
theorem getD_set_of_lt {l : List IoapicDesc} {n a : ℕ} (d : IoapicDesc) (hn : n < l.length) :
    (l.set n d).getD a default = if a = n then d else l.getD a default := by
  rw [List.getD_eq_getElem?_getD, List.getElem?_set, List.getD_eq_getElem?_getD]
  by_cases h : n = a
  · subst h
    simp [hn]
  · simp [h, Ne.symm h]

/-- **The first loop of `ioapic_init`** reads each IOAPIC's version register into
its descriptor and rewrites nothing but `IOAPIC_ID` registers. -/
theorem initDescs_spec {s : IoapicState} {n : ℕ} (hn : n ≤ s.descs.length) :
    ∃ s', initDescs s n = some s' ∧ s'.descs.length = s.descs.length ∧
      s'.i8259Pin = s.i8259Pin ∧
      (∀ a, s'.descs.getD a default = if a < n then initedDesc s a else s.descs.getD a default) ∧
      ∀ a r, r ≠ ioapicIdReg → s'.regs a r = s.regs a r := by
  induction n with
  | zero => exact ⟨s, rfl, rfl, rfl, fun a => by simp, fun _ _ _ => rfl⟩
  | succ n ih =>
    obtain ⟨s₁, h₁, hl₁, hp₁, hd₁, hr₁⟩ := ih (by omega)
    obtain ⟨s₂, h₂, hd₂, hp₂, hr₂⟩ := initDesc_spec (show n < s₁.descs.length by omega)
    have hi : initedDesc s₁ n = initedDesc s n :=
      initedDesc_congr (by simpa using hd₁ n) hr₁
    refine ⟨s₂, by rw [initDescs, h₁, Option.some_bind, h₂], by simp [hd₂, hl₁],
      hp₂.trans hp₁, fun a => ?_, fun a r hr => (hr₂ a r hr).trans (hr₁ a r hr)⟩
    rw [hd₂, getD_set_of_lt _ (by omega), hd₁, hi]
    by_cases ha : a = n
    · simp [ha]
    · have : a < n + 1 ↔ a < n := by omega
      simp [ha, this]

/-- With an ISA bus in the MP tables, `ioapic_isa_pin` passes its `assert`. -/
theorem ioapicIsaPin_isSome {mp : MpTables} (hbus : mp.isaBusid ≠ -1)
    (descs : List IoapicDesc) (isaIrq type : ℕ) :
    ∃ pin, ioapicIsaPin mp descs isaIrq type = some pin := by
  unfold ioapicIsaPin
  rw [if_neg hbus]
  split
  · exact ⟨_, rfl⟩
  · split <;> exact ⟨_, rfl⟩

/-- `ioapic_isa_pin` answers `{-1, -1}` when no MP entry routes the ISA IRQ,
and when the first that does names no known IOAPIC. -/
theorem ioapicIsaPin_unmatched {mp : MpTables} (hbus : mp.isaBusid ≠ -1)
    {descs : List IoapicDesc} {isaIrq type : ℕ}
    (h : (∀ e ∈ mp.irqs, ¬((e.srcBusid : ℤ) = mp.isaBusid ∧ e.srcBusirq = isaIrq ∧ e.type = type)) ∨
      ∃ e, mp.irqs.find? (fun e =>
          (e.srcBusid : ℤ) = mp.isaBusid ∧ e.srcBusirq = isaIrq ∧ e.type = type) = some e ∧
        ∀ d ∈ descs, e.dstIoapicid ≠ d.id) :
    ioapicIsaPin mp descs isaIrq type = some ⟨-1, -1⟩ := by
  unfold ioapicIsaPin
  rw [if_neg hbus]
  rcases h with h | ⟨e, he, hd⟩
  · rw [List.find?_eq_none.mpr (by simpa using h)]
  · simp only [he]
    rw [List.findIdx?_eq_none_iff.mpr fun d hd' => decide_eq_false (hd d hd')]

/-- **An ISA IRQ that the MP tables do not route is written behind index -1.**
When `ioapic_isa_pin` answers `{-1, -1}`, `ioapic_setup_isairq` passes
`ioapic_base`'s `assert(apic < nr_ioapics)` with `apic = -1` and writes the
entry's two words to registers `0x0f` and `0x0e` behind that index, the pin
`-1` being the `uint8_t` 255. -/
theorem ioapicSetupIsairq_unmatched (mp : MpTables) (bootstrapId : ℕ) (s : IoapicState)
    (irq vector : ℕ) (dst : IrqDst) (hpin : ioapicIsaPin mp s.descs irq mpInt = some ⟨-1, -1⟩)
    (hdst : dst ≠ .other) :
    ∃ e, isaIrqentry bootstrapId vector dst = some e ∧
      ioapicSetupIsairq mp bootstrapId s irq vector dst =
        some ((s.setReg (-1) 0x0f (e.valueHigh % 2 ^ 32)).setReg (-1) 0x0e (e.valueLow % 2 ^ 32)) := by
  have hlt : (-1 : ℤ) < s.descs.length := by omega
  obtain ⟨e, he⟩ : ∃ e, isaIrqentry bootstrapId vector dst = some e := by
    cases dst
    · exact ⟨_, rfl⟩
    · exact ⟨_, rfl⟩
    · exact absurd rfl hdst
  refine ⟨e, he, ?_⟩
  simp only [ioapicSetupIsairq, hpin, he, Option.some_bind, ioapicWriteIrqentry, ioapicWrite,
    IoapicState.setReg_descs, hlt, if_true]
  rfl

/-- With no MP tables to route ISA IRQ 1, its vector lands in register `0x0e`
behind index -1. -/
theorem ioapicSetupIsairq_no_routes :
    ∃ s', ioapicSetupIsairq ⟨0, []⟩ 0 ⟨[], fun _ _ => 0, ⟨-1, -1⟩⟩ 1 0x21 .bootstrap = some s' ∧
      s'.regs (-1) 0x0e = 0x21 := by
  obtain ⟨e, he, h⟩ := ioapicSetupIsairq_unmatched ⟨0, []⟩ 0 ⟨[], fun _ _ => 0, ⟨-1, -1⟩⟩ 1 0x21
    .bootstrap rfl (by decide)
  cases he
  exact ⟨_, h, rfl⟩

/-! ## `ioapic_init` -/

/-- **What `ioapic_init` leaves.** With an ISA bus in the MP tables it returns;
every descriptor holds its chip's version and `max_irq`, and every register
but `IOAPIC_ID` is the BIOS value, with bit 16 set in the low words of the
entries below `max_irq`. -/
theorem ioapicInit_spec (mp : MpTables) (s : IoapicState) (hbus : mp.isaBusid ≠ -1) :
    ∃ s', ioapicInit mp s = some s' ∧ s'.descs.length = s.descs.length ∧
      (∀ a < s.descs.length, s'.descs.getD a default = initedDesc s a) ∧
      ∀ (a : ℕ) r, r ≠ ioapicIdReg → s'.regs a r =
        if a < s.descs.length ∧ Reaches (initedDesc s a).maxIrq r then
          (s.regs a r ||| 2 ^ 16) % 2 ^ 32
        else s.regs a r := by
  obtain ⟨s₁, h₁, hl₁, -, hd₁, hr₁⟩ := initDescs_spec (le_refl s.descs.length)
  obtain ⟨pin2, h₂⟩ := ioapicIsaPin_isSome hbus s₁.descs 0 mpExtint
  obtain ⟨s₂, hs₂, hd₂, hr₂⟩ : ∃ s₂ : IoapicState, ioapicInit mp s = maskAll s₂ s₂.descs.length ∧
      s₂.descs = s₁.descs ∧ s₂.regs = s₁.regs := by
    rw [ioapicInit, h₁, Option.some_bind]
    simp only [h₂, Option.some_bind]
    exact ⟨_, rfl, by split_ifs <;> rfl, by split_ifs <;> rfl⟩
  rw [maskAll_eq (by rw [hd₂, hl₁])] at hs₂
  refine ⟨_, hs₂, by simp only [hd₂, hl₁], fun a ha => ?_, fun a r hr => ?_⟩
  · show s₂.descs.getD a default = _
    rw [hd₂, hd₁, if_pos ha]
  · show allMaskedRegs s₂ s₂.descs.length a r = _
    unfold allMaskedRegs
    rw [hr₂, hr₁ a r hr, hd₂, hl₁, Int.toNat_natCast, hd₁]
    by_cases ha : a < s.descs.length
    · simp only [Int.natCast_nonneg, Int.ofNat_lt, ha, if_true, true_and]
    · simp only [Int.ofNat_lt, ha, false_and, and_false, if_false]

/-- `ioapic_init` returns exactly when the MP tables name an ISA bus: without
one, the `assert` of `ioapic_isa_pin` fails. -/
theorem ioapicInit_isSome_iff (mp : MpTables) (s : IoapicState) :
    (ioapicInit mp s).isSome ↔ mp.isaBusid ≠ -1 := by
  by_cases hbus : mp.isaBusid = -1
  · obtain ⟨s₁, h₁, -⟩ := initDescs_spec (le_refl s.descs.length)
    simp [ioapicInit, h₁, ioapicIsaPin, hbus]
  · obtain ⟨s', h, -⟩ := ioapicInit_spec mp s hbus
    simp [h, hbus]

/-- **`ioapic_init` leaves the last redirection entry as the BIOS set it.** For
every IOAPIC whose version register reports `max_irq < 120`, so that its
entries are the registers `0x10 .. 0xff`, the entries below `max_irq` get their
mask bit set with their other fields unchanged, and entry `max_irq`, which
`ioapic.h` counts as routed, is not touched: it stays unmasked if the BIOS left
it so. -/
theorem ioapicInit_last_entry (mp : MpTables) (s : IoapicState) (hbus : mp.isaBusid ≠ -1) :
    ∃ s', ioapicInit mp s = some s' ∧ ∀ apic < s.descs.length,
      let m := (s.regs apic ioapicVerReg >>> 16) % 2 ^ 8
      (s'.descs.getD apic default).maxIrq = m ∧
      (m < 120 →
        (∀ i < m, s'.regs apic (ioapicRedtbl0 + 2 * i) =
            (s.regs apic (ioapicRedtbl0 + 2 * i) ||| 2 ^ 16) % 2 ^ 32 ∧
          s'.regs apic (ioapicRedtbl0 + 2 * i + 1) = s.regs apic (ioapicRedtbl0 + 2 * i + 1)) ∧
        s'.regs apic (ioapicRedtbl0 + 2 * m) = s.regs apic (ioapicRedtbl0 + 2 * m) ∧
        s'.regs apic (ioapicRedtbl0 + 2 * m + 1) = s.regs apic (ioapicRedtbl0 + 2 * m + 1)) := by
  obtain ⟨s', h, -, hd, hr⟩ := ioapicInit_spec mp s hbus
  refine ⟨s', h, fun apic ha => ⟨by rw [hd apic ha]; rfl, fun hm => ?_⟩⟩
  have hmax : (initedDesc s apic).maxIrq = (s.regs apic ioapicVerReg >>> 16) % 2 ^ 8 := rfl
  have hodd : ∀ n j, ¬Reaches n (ioapicRedtbl0 + 2 * j + 1) := fun n j ⟨i, _, he⟩ => by
    unfold ioapicRedtbl0 at he
    omega
  have hid : ∀ j, ioapicRedtbl0 + 2 * j ≠ ioapicIdReg ∧ ioapicRedtbl0 + 2 * j + 1 ≠ ioapicIdReg :=
    fun j => by unfold ioapicRedtbl0 ioapicIdReg; omega
  refine ⟨fun i hi => ⟨?_, ?_⟩, ?_, ?_⟩
  · rw [hr apic _ (hid i).1, hmax, if_pos ⟨ha, (reaches_iff_of_lt hm (by omega)).mpr hi⟩]
  · rw [hr apic _ (hid i).2, if_neg fun h => hodd _ _ h.2]
  · rw [hr apic _ (hid _).1, hmax, if_neg fun h => lt_irrefl _ ((reaches_iff_of_lt hm hm).mp h.2)]
  · rw [hr apic _ (hid _).2, if_neg fun h => hodd _ _ h.2]

/-- A chip whose version register reports `max_irq = 23` and whose BIOS left every
entry unmasked keeps entry 23 unmasked. -/
theorem ioapicInit_one_chip :
    ∃ s', ioapicInit ⟨0, []⟩ ⟨[⟨0, 0, 0xfec00000, 0⟩],
        fun _ r => if r = ioapicVerReg then 0x00170011 else 0, ⟨-1, -1⟩⟩ = some s' ∧
      (s'.descs.getD 0 default).maxIrq = 23 ∧
      (s'.regs 0 (ioapicRedtbl0 + 2 * 23) >>> 16) % 2 = ioapicUnmask := by
  obtain ⟨s', h, hall⟩ := ioapicInit_last_entry ⟨0, []⟩
    ⟨[⟨0, 0, 0xfec00000, 0⟩], fun _ r => if r = ioapicVerReg then 0x00170011 else 0, ⟨-1, -1⟩⟩
    (by decide)
  obtain ⟨hm, hlast⟩ := hall 0 (by decide)
  simp only [ioapicVerReg, if_true, Nat.shiftRight_eq_div_pow, Nat.reducePow, Nat.reduceDiv,
    Nat.reduceMod, Int.natCast_zero] at hm hlast
  exact ⟨s', h, hm, by rw [(hlast (by decide)).2.1]; rfl⟩

end Ioapic

end Mcube
