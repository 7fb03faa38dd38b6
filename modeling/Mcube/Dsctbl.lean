import Mathlib.Data.Nat.Bitwise

/-!
# Segment descriptors and interrupt gates

`set_gdsc` in `arch/x86/dsctbl.c` writes a GDT descriptor from a 32-bit
segment limit, base and access rights, and `set_idsc` an IDT gate from an
offset, a selector and access rights. A limit above `0xfffff` does not fit in
the descriptor's 20 bits: `set_gdsc` then counts it in 4 KiB pages and sets
the G bit, bit 15 of the access rights, which lands in bit 7 of `limit_high`.

The processor reads a descriptor back: the base from `base_low`, `base_mid`
and `base_high`, the 20-bit limit from `limit_low` and the low nibble of
`limit_high`, the flags (AVL, L, D/B, G) from its high nibble; with G set the
limit counts pages and the segment ends at the last byte of its last page.
`setGdsc_decode` proves that every descriptor `set_gdsc` writes reads back as
the base it was given, the access byte and the flags of its access rights,
and a 20-bit limit that is its limit, or the limit's page when it needs pages;
when the access rights leave G clear, the segment then ends at the limit or at
the end of the limit's page. `setIdsc_decode` proves that a gate reads back as
its offset and its access rights. `init_dsctbl` builds its flat data segment
on that: it covers the whole 4 GiB from address 0.

The layouts of `struct global_descriptor` and `struct interrupt_descriptor`
are not among the sources: each field is the value `set_gdsc` or `set_idsc`
stores in it, masked as the code masks it.
-/

namespace Mcube

namespace Dsctbl

/-! ## Bits -/

/-- Bits `i` to `i + j` of `x`, bit by bit. -/
theorem testBit_div_mod (x i j m : ℕ) :
    (x / 2 ^ i % 2 ^ j).testBit m = (decide (m < j) && x.testBit (i + m)) := by
  rw [Nat.testBit_mod_two_pow, ← Nat.shiftRight_eq_div_pow, Nat.testBit_shiftRight]

/-- The mask `0xf0` keeps bits 4 to 7. -/
theorem and_0xf0 (x : ℕ) : x &&& 0xf0 = 2 ^ 4 * (x / 2 ^ 4 % 2 ^ 4) := by
  apply Nat.eq_of_testBit_eq
  intro m
  rw [Nat.testBit_and, show (0xf0 : ℕ) = 2 ^ 4 * (2 ^ 4 - 1) from rfl, Nat.testBit_mul_pow_two,
    Nat.testBit_mul_pow_two, Nat.testBit_two_pow_sub_one, testBit_div_mod]
  by_cases hm : 4 ≤ m
  · simp [hm, Nat.add_sub_cancel' hm, Bool.and_comm]
  · simp [hm]

/-- Setting bit `k` leaves the bits of `x` from `i` to `i + j` that are not bit
`k`. -/
theorem or_two_pow_div_mod (x k i j : ℕ) (h : k < i ∨ i + j ≤ k) :
    (x ||| 2 ^ k) / 2 ^ i % 2 ^ j = x / 2 ^ i % 2 ^ j := by
  apply Nat.eq_of_testBit_eq
  intro m
  rw [testBit_div_mod, testBit_div_mod, Nat.testBit_or, Nat.testBit_two_pow]
  by_cases hm : m < j
  · simp [hm, show k ≠ i + m by omega]
  · simp [hm]

theorem or_two_pow_bit (x k : ℕ) : (x ||| 2 ^ k) / 2 ^ k % 2 = 1 := by
  have := (x ||| 2 ^ k).testBit_to_div_mod (i := k)
  rw [Nat.testBit_or, Nat.testBit_two_pow, decide_eq_true (rfl : k = k), Bool.or_true] at this
  exact of_decide_eq_true this.symm

/-! ## Segment descriptors -/

/-- `struct global_descriptor`, field by field. -/
structure GlobalDescriptor where
  limitLow : ℕ
  baseLow : ℕ
  baseMid : ℕ
  accessRight : ℕ
  limitHigh : ℕ
  baseHigh : ℕ
  deriving DecidableEq, Repr

/-- `set_gdsc(gd, limit, base, ar)`: the descriptor it writes at `gd`. -/
def setGdsc (limit base ar : ℕ) : GlobalDescriptor :=
  let ar := if limit > 0xfffff then ar ||| 0x8000 else ar
  let limit := if limit > 0xfffff then limit / 0x1000 else limit
  ⟨limit &&& 0xffff, base &&& 0xffff, (base >>> 16) &&& 0xff, ar &&& 0xff,
    ((limit >>> 16) &&& 0x0f) ||| ((ar >>> 8) &&& 0xf0), (base >>> 24) &&& 0xff⟩

namespace GlobalDescriptor

/-- The segment base the processor reads. -/
def base (d : GlobalDescriptor) : ℕ := d.baseLow + 2 ^ 16 * d.baseMid + 2 ^ 24 * d.baseHigh

/-- The 20-bit limit the processor reads. -/
def limit (d : GlobalDescriptor) : ℕ := d.limitLow + 2 ^ 16 * (d.limitHigh % 2 ^ 4)

/-- The flags AVL, L, D/B and G. -/
def flags (d : GlobalDescriptor) : ℕ := d.limitHigh / 2 ^ 4

/-- G: the limit counts 4 KiB pages. -/
def granular (d : GlobalDescriptor) : Bool := d.flags / 2 ^ 3 % 2 = 1

/-- The offset of the segment's last byte. -/
def segLimit (d : GlobalDescriptor) : ℕ := if d.granular then d.limit * 2 ^ 12 + (2 ^ 12 - 1) else d.limit

end GlobalDescriptor

/-- The high nibble of `limit_high` from bits 4 to 7 of `y`, the low one from
bits 0 to 3 of `x`. -/
theorem and_0x0f_or_and_0xf0 (x y : ℕ) : x &&& 0x0f ||| y &&& 0xf0 = x % 2 ^ 4 + 2 ^ 4 * (y / 2 ^ 4 % 2 ^ 4) := by
  rw [Nat.lor_comm, and_0xf0, show (0x0f : ℕ) = 2 ^ 4 - 1 from rfl, Nat.and_pow_two_sub_one_eq_mod,
    ← Nat.mul_add_lt_is_or (Nat.mod_lt _ (Nat.two_pow_pos 4)), Nat.add_comm]

/-- The fields of `set_gdsc`'s descriptor as numbers, from the limit and the
access rights it stores. -/
theorem setGdsc_fields (limit base ar : ℕ) :
    setGdsc limit base ar =
      ⟨(if 0xfffff < limit then limit / 2 ^ 12 else limit) % 2 ^ 16, base % 2 ^ 16,
        base / 2 ^ 16 % 2 ^ 8, (if 0xfffff < limit then ar ||| 2 ^ 15 else ar) % 2 ^ 8,
        (if 0xfffff < limit then limit / 2 ^ 12 else limit) / 2 ^ 16 % 2 ^ 4 +
          2 ^ 4 * ((if 0xfffff < limit then ar ||| 2 ^ 15 else ar) / 2 ^ 12 % 2 ^ 4),
        base / 2 ^ 24 % 2 ^ 8⟩ := by
  simp only [setGdsc, gt_iff_lt, Nat.shiftRight_eq_div_pow, and_0x0f_or_and_0xf0, Nat.div_div_eq_div_mul,
    show ∀ x : ℕ, x &&& 0xffff = x % 2 ^ 16 from fun x => Nat.and_pow_two_sub_one_eq_mod x 16,
    show ∀ x : ℕ, x &&& 0xff = x % 2 ^ 8 from fun x => Nat.and_pow_two_sub_one_eq_mod x 8]
  rfl

section SetGdsc

variable (limit base ar : ℕ)

theorem setGdsc_base (hb : base < 2 ^ 32) : (setGdsc limit base ar).base = base := by
  rw [setGdsc_fields, GlobalDescriptor.base]
  dsimp only
  omega

theorem setGdsc_accessRight : (setGdsc limit base ar).accessRight = ar % 2 ^ 8 := by
  have h := or_two_pow_div_mod ar 15 0 8 (.inr (by decide))
  rw [pow_zero, Nat.div_one, Nat.div_one] at h
  rw [setGdsc_fields]
  split_ifs
  exacts [h, rfl]

theorem setGdsc_flags : (setGdsc limit base ar).flags % 2 ^ 3 = ar / 2 ^ 12 % 2 ^ 3 := by
  have h := or_two_pow_div_mod ar 15 12 3 (.inr (by decide))
  rw [setGdsc_fields, GlobalDescriptor.flags]
  dsimp only
  split_ifs <;> omega

theorem setGdsc_granular :
    (setGdsc limit base ar).granular ↔ 0xfffff < limit ∨ ar / 2 ^ 15 % 2 = 1 := by
  have h := or_two_pow_bit ar 15
  rw [setGdsc_fields, GlobalDescriptor.granular, GlobalDescriptor.flags, decide_eq_true_iff]
  dsimp only
  split_ifs <;> omega

theorem setGdsc_limit (hl : limit < 2 ^ 32) :
    (setGdsc limit base ar).limit = if 0xfffff < limit then limit / 2 ^ 12 else limit := by
  rw [setGdsc_fields, GlobalDescriptor.limit]
  dsimp only
  split_ifs <;> omega

/-- **What the processor reads back from `set_gdsc`'s descriptor**, for a
32-bit limit and base: the base; the access byte and the AVL, L and D/B flags
of the access rights; the G flag when the access rights set it or the limit
needs pages; and the limit, in pages when it needs them. -/
theorem setGdsc_decode (hl : limit < 2 ^ 32) (hb : base < 2 ^ 32) :
    (setGdsc limit base ar).base = base ∧
    (setGdsc limit base ar).accessRight = ar % 2 ^ 8 ∧
    (setGdsc limit base ar).flags % 2 ^ 3 = ar / 2 ^ 12 % 2 ^ 3 ∧
    ((setGdsc limit base ar).granular ↔ 0xfffff < limit ∨ ar / 2 ^ 15 % 2 = 1) ∧
    (setGdsc limit base ar).limit = if 0xfffff < limit then limit / 2 ^ 12 else limit :=
  ⟨setGdsc_base limit base ar hb, setGdsc_accessRight limit base ar, setGdsc_flags limit base ar,
    setGdsc_granular limit base ar, setGdsc_limit limit base ar hl⟩

theorem setGdsc_decode_flat :
    (0xffffffff : ℕ) < 2 ^ 32 ∧ (0 : ℕ) < 2 ^ 32 ∧
    ((setGdsc 0xffffffff 0 0x4092).base = 0 ∧
      (setGdsc 0xffffffff 0 0x4092).accessRight = 0x4092 % 2 ^ 8 ∧
      (setGdsc 0xffffffff 0 0x4092).flags % 2 ^ 3 = 0x4092 / 2 ^ 12 % 2 ^ 3 ∧
      ((setGdsc 0xffffffff 0 0x4092).granular ↔ 0xfffff < 0xffffffff ∨ 0x4092 / 2 ^ 15 % 2 = 1) ∧
      (setGdsc 0xffffffff 0 0x4092).limit =
        if 0xfffff < 0xffffffff then 0xffffffff / 2 ^ 12 else 0xffffffff) :=
  ⟨by decide, by decide, setGdsc_decode 0xffffffff 0 0x4092 (by decide) (by decide)⟩

/-- **The segment ends at its limit**, when the access rights leave G clear:
exactly there when the limit fits in 20 bits, and otherwise at the last byte
of the limit's 4 KiB page. -/
theorem setGdsc_segLimit (hl : limit < 2 ^ 32) (hg : ar / 2 ^ 15 % 2 = 0) :
    (setGdsc limit base ar).segLimit =
      if 0xfffff < limit then limit / 2 ^ 12 * 2 ^ 12 + (2 ^ 12 - 1) else limit := by
  have hgr := setGdsc_granular limit base ar
  rw [GlobalDescriptor.segLimit, setGdsc_limit limit base ar hl]
  by_cases hlim : 0xfffff < limit
  · rw [if_pos (hgr.2 (.inl hlim)), if_pos hlim, if_pos hlim]
  · have : (setGdsc limit base ar).granular = false := by
      cases h : (setGdsc limit base ar).granular
      · rfl
      · exact absurd (hgr.1 h) (by omega)
    rw [this, if_neg (by decide), if_neg hlim, if_neg hlim]

theorem setGdsc_segLimit_kernel :
    (0x2fffff : ℕ) < 2 ^ 32 ∧ 0x409a / 2 ^ 15 % 2 = 0 ∧
      (setGdsc 0x2fffff 0x100000 0x409a).segLimit =
        if 0xfffff < 0x2fffff then 0x2fffff / 2 ^ 12 * 2 ^ 12 + (2 ^ 12 - 1) else 0x2fffff :=
  ⟨by decide, by decide, setGdsc_segLimit 0x2fffff 0x100000 0x409a (by decide) (by decide)⟩

end SetGdsc

/-! ## Interrupt gates -/

/-- `struct interrupt_descriptor`, field by field. -/
structure InterruptDescriptor where
  offsetLow : ℕ
  selector : ℕ
  dwCount : ℕ
  accessRight : ℕ
  offsetHigh : ℕ
  deriving DecidableEq, Repr

/-- `set_idsc(id, offset, selector, ar)`: the gate it writes at `id`. The
`uint32_t` selector is stored into the gate's 16-bit field. -/
def setIdsc (offset selector ar : ℕ) : InterruptDescriptor :=
  ⟨offset &&& 0xffff, selector &&& 0xffff, (ar >>> 8) &&& 0xff, ar &&& 0xff,
    (offset >>> 16) &&& 0xffff⟩

/-- The offset of the handler the processor reads. -/
def InterruptDescriptor.offset (d : InterruptDescriptor) : ℕ := d.offsetLow + 2 ^ 16 * d.offsetHigh

/-- **What the processor reads back from `set_idsc`'s gate**, for a 32-bit
offset: the offset, and the low two bytes of the access rights as the access
byte and the byte before it. -/
theorem setIdsc_decode (offset selector ar : ℕ) (ho : offset < 2 ^ 32) :
    (setIdsc offset selector ar).offset = offset ∧
    (setIdsc offset selector ar).accessRight + 2 ^ 8 * (setIdsc offset selector ar).dwCount = ar % 2 ^ 16 := by
  simp only [setIdsc, InterruptDescriptor.offset, Nat.shiftRight_eq_div_pow,
    show ∀ x : ℕ, x &&& 0xffff = x % 2 ^ 16 from fun x => Nat.and_pow_two_sub_one_eq_mod x 16,
    show ∀ x : ℕ, x &&& 0xff = x % 2 ^ 8 from fun x => Nat.and_pow_two_sub_one_eq_mod x 8]
  omega

theorem setIdsc_decode_gate :
    (0x12345678 : ℕ) < 2 ^ 32 ∧
      ((setIdsc 0x12345678 0x10 0x8e00).offset = 0x12345678 ∧
        (setIdsc 0x12345678 0x10 0x8e00).accessRight + 2 ^ 8 * (setIdsc 0x12345678 0x10 0x8e00).dwCount =
          0x8e00 % 2 ^ 16) :=
  ⟨by decide, setIdsc_decode 0x12345678 0x10 0x8e00 (by decide)⟩

/-! ## `init_dsctbl` -/

/-- The constants `init_dsctbl` reads that are not among the sources:
`GDT_START`, `GDT_END`, `IDT_START`, `IDT_END`, `KERNEL_START`, `KERNEL_END`,
`AR_DATA32_RW` and `AR_CODE32_ER`. -/
structure Layout where
  gdtStart : ℕ
  gdtEnd : ℕ
  idtStart : ℕ
  idtEnd : ℕ
  kernelStart : ℕ
  kernelEnd : ℕ
  arData32Rw : ℕ
  arCode32Er : ℕ

/-- The descriptor tables, by index, and the `gdt` and `idt` pseudo-descriptors
`lgdt` and `lidt` load: the size and the address. -/
structure Tables where
  gdt : ℕ → GlobalDescriptor
  idt : ℕ → InterruptDescriptor
  gdtr : ℕ × ℕ
  idtr : ℕ × ℕ

/-- `load_gdt(size, addr)` and `load_idt(size, addr)`: `size` is a
`uint16_t`. -/
def loadDesc (size addr : ℕ) : ℕ × ℕ := (size % 2 ^ 16, addr)

/-- `init_dsctbl()`: every GDT descriptor and every IDT gate cleared, then the
data and the code segment. -/
def initDsctbl (L : Layout) (t : Tables) : Tables :=
  let gdt := (List.range ((L.gdtEnd - L.gdtStart) / 8)).foldl
    (fun g i => Function.update g i (setGdsc 0 0 0)) t.gdt
  let gdt := Function.update gdt 1 (setGdsc 0xffffffff 0x00000000 L.arData32Rw)
  let gdt := Function.update gdt 2 (setGdsc (L.kernelEnd - L.kernelStart - 1) L.kernelStart L.arCode32Er)
  let idt := (List.range ((L.idtEnd - L.idtStart) / 8)).foldl
    (fun g i => Function.update g i (setIdsc 0 0 0)) t.idt
  ⟨gdt, idt, loadDesc (L.gdtEnd - L.gdtStart - 1) L.gdtStart, loadDesc (L.idtEnd - L.idtStart - 1) L.idtStart⟩

/-- The loop `for (i = 0; i < n; i++) set(table + i, ...)` writes `d` at every
index below `n` and leaves the others. -/
theorem foldl_update_range {α : Type} (n : ℕ) (d : α) (f : ℕ → α) (i : ℕ) :
    (List.range n).foldl (fun g j => Function.update g j d) f i = if i < n then d else f i := by
  induction n generalizing i with
  | zero => simp
  | succ n ih =>
    rw [List.range_succ, List.foldl_append, List.foldl_cons, List.foldl_nil]
    by_cases hi : i = n
    · subst hi
      rw [Function.update_same, if_pos (Nat.lt_succ_self i)]
    · rw [Function.update_noteq hi, ih]
      by_cases hn : i < n
      · rw [if_pos hn, if_pos (Nat.lt_succ_of_lt hn)]
      · rw [if_neg hn, if_neg (by omega)]

/-- The descriptor `set_gdsc(gd, 0, 0, 0)` writes: every field zero. -/
theorem setGdsc_zero : setGdsc 0 0 0 = ⟨0, 0, 0, 0, 0, 0⟩ := rfl

/-- **`init_dsctbl`'s tables**: the null descriptor, a data segment from
address 0 to `0xffffffff` whatever `AR_DATA32_RW` is, the kernel's code segment
based at `KERNEL_START`, every other descriptor of the GDT and every gate of the
IDT cleared, and the sizes loaded one less than the tables'. -/
theorem initDsctbl_tables (L : Layout) (t : Tables) (hn : 3 ≤ (L.gdtEnd - L.gdtStart) / 8)
    (hk : L.kernelStart < 2 ^ 32) :
    let t' := initDsctbl L t
    t'.gdt 0 = ⟨0, 0, 0, 0, 0, 0⟩ ∧
    (t'.gdt 1).base = 0 ∧ (t'.gdt 1).segLimit = 0xffffffff ∧
    (t'.gdt 2).base = L.kernelStart ∧
    (∀ i, 3 ≤ i → i < (L.gdtEnd - L.gdtStart) / 8 → t'.gdt i = ⟨0, 0, 0, 0, 0, 0⟩) ∧
    (∀ i, i < (L.idtEnd - L.idtStart) / 8 → t'.idt i = ⟨0, 0, 0, 0, 0⟩) ∧
    t'.gdtr = ((L.gdtEnd - L.gdtStart - 1) % 2 ^ 16, L.gdtStart) := by
  intro t'
  have hlim := setGdsc_limit 0xffffffff 0 L.arData32Rw (by decide)
  have hgr := (setGdsc_granular 0xffffffff 0 L.arData32Rw).2 (.inl (by decide))
  refine ⟨?_, setGdsc_base _ _ _ (by decide), ?_, setGdsc_base _ _ _ hk, fun i h₃ hi => ?_, fun i hi => ?_, rfl⟩
  · simp only [t', initDsctbl]
    rw [Function.update_noteq (by decide), Function.update_noteq (by decide), foldl_update_range,
      if_pos (by omega), setGdsc_zero]
  · simp only [t', initDsctbl]
    rw [Function.update_noteq (by decide), Function.update_same, GlobalDescriptor.segLimit, if_pos hgr,
      hlim, if_pos (by decide)]
    decide
  · simp only [t', initDsctbl]
    rw [Function.update_noteq (by omega), Function.update_noteq (by omega), foldl_update_range,
      if_pos hi, setGdsc_zero]
  · simp only [t', initDsctbl]
    rw [foldl_update_range, if_pos hi]
    rfl

/-- A layout of the descriptor tables: 256 GDT descriptors and 256 gates. -/
def sampleLayout : Layout := ⟨0x270000, 0x270800, 0x26f800, 0x270000, 0x280000, 0x300000, 0x4092, 0x409a⟩

theorem initDsctbl_tables_sample :
    3 ≤ (sampleLayout.gdtEnd - sampleLayout.gdtStart) / 8 ∧ sampleLayout.kernelStart < 2 ^ 32 ∧
    let t' := initDsctbl sampleLayout ⟨fun _ => setGdsc 1 1 1, fun _ => setIdsc 1 1 1, (0, 0), (0, 0)⟩
    t'.gdt 0 = ⟨0, 0, 0, 0, 0, 0⟩ ∧
    (t'.gdt 1).base = 0 ∧ (t'.gdt 1).segLimit = 0xffffffff ∧
    (t'.gdt 2).base = sampleLayout.kernelStart ∧
    (∀ i, 3 ≤ i → i < (sampleLayout.gdtEnd - sampleLayout.gdtStart) / 8 → t'.gdt i = ⟨0, 0, 0, 0, 0, 0⟩) ∧
    (∀ i, i < (sampleLayout.idtEnd - sampleLayout.idtStart) / 8 → t'.idt i = ⟨0, 0, 0, 0, 0⟩) ∧
    t'.gdtr = ((sampleLayout.gdtEnd - sampleLayout.gdtStart - 1) % 2 ^ 16, sampleLayout.gdtStart) :=
  ⟨by decide, by decide, initDsctbl_tables sampleLayout _ (by decide) (by decide)⟩

end Dsctbl

end Mcube
