import Mathlib.Data.List.Sort

/-!
# Walking the MADT's sub-entries

After the fixed part of the MADT (`struct acpi_madt`) come sub-entries of
varying size, each opening with a two-byte header `struct acpi_madt_hdr`: a
type byte and a length byte. `madt_find(type, prev)` walks them from the one
after `prev`, or from the first, `madt + 1`, stepping by each header's length
until it meets one of the type asked for or reaches
`(uint8_t *) madt + madt->hdr.length`. `acpi_next_local_apic`,
`acpi_next_io_apic` and `acpi_next_iso` are `madt_find` at one type each, and
`init_acpi` reserves the I/O APICs' registers in the loop

    io = NULL;
    while ((io = acpi_next_io_apic(io))) pmap_add(...);

Nothing checks the length byte. A sub-entry of length `0` is stepped over by
not moving: if its type is not the one asked for, `madt_find` never returns;
if it is, every later call returns it again, and the reservation loop never
ends (`madtFind_zero_length_counterexample`). When every sub-entry on the
walk has a positive length, the walk is a chain of offsets (`ChainFrom`), each
call returns within `hdr.length + 1` iterations, and the calls from `NULL`
return the chain's sub-entries of the type, in table order, each once, before
returning `NULL` (`madtFind_enumerates`).

Offsets are taken from the table's first byte, so that `ptr < term` reads
`ptr < hdr.length`. The size of `struct acpi_madt` is a parameter
(`headerSize`): the structure is not among the sources.
-/

namespace Mcube

namespace Acpi

/-- **An MADT as `madt_find` reads it**: `hdr.length`, and the table's bytes
by offset from its first byte. -/
structure Madt where
  /-- `madt->hdr.length`. -/
  length : ℕ
  /-- The table's bytes. -/
  bytes : ℕ → UInt8

/-- `ACPI_MADT_LOCAL_APIC`. The enumeration `acpi_madt_type` is not among the
sources; its values are the sub-entry types of the ACPI tables. -/
def acpiMadtLocalApic : UInt8 := 0

/-- `ACPI_MADT_IO_APIC`. -/
def acpiMadtIoApic : UInt8 := 1

/-- `ACPI_MADT_ISO`. -/
def acpiMadtIso : UInt8 := 2

namespace Madt

variable (m : Madt)

/-- The type byte of the sub-entry header at offset `p`. -/
def entryType (p : ℕ) : UInt8 := m.bytes p

/-- The length byte of the sub-entry header at offset `p`. -/
def entryLength (p : ℕ) : ℕ := (m.bytes (p + 1)).toNat

end Madt

/-! ## The code -/

section Code

variable (headerSize : ℕ)

/-- **The loop of `madt_find`** from offset `ptr`, run for at most `fuel`
iterations: `some r` when the function returns `r` (`none` for `NULL`), and
`none` when the loop is still running after them. -/
def madtScan (m : Madt) (type : UInt8) : ℕ → ℕ → Option (Option ℕ)
  | 0, _ => none
  | fuel + 1, ptr =>
    if ptr < m.length then
      if m.entryType ptr = type then some (some ptr)
      else madtScan m type fuel (ptr + m.entryLength ptr)
    else some none

/-- **`madt_find(type, prev)`**, with `acpi.madt` (`none` for `NULL`) and
`prev` (`none` for `NULL`), its loop given `fuel` iterations. -/
def madtFind (madt : Option Madt) (type : UInt8) (prev : Option ℕ) (fuel : ℕ) :
    Option (Option ℕ) :=
  match madt with
  | none => some none
  | some m =>
    madtScan m type fuel (match prev with
      | some p => p + m.entryLength p
      | none => headerSize)

/-- `acpi_next_local_apic`. -/
def acpiNextLocalApic (madt : Option Madt) (prev : Option ℕ) (fuel : ℕ) :
    Option (Option ℕ) :=
  madtFind headerSize madt acpiMadtLocalApic prev fuel

/-- `acpi_next_io_apic`. -/
def acpiNextIoApic (madt : Option Madt) (prev : Option ℕ) (fuel : ℕ) :
    Option (Option ℕ) :=
  madtFind headerSize madt acpiMadtIoApic prev fuel

/-- `acpi_next_iso`. -/
def acpiNextIso (madt : Option Madt) (prev : Option ℕ) (fuel : ℕ) :
    Option (Option ℕ) :=
  madtFind headerSize madt acpiMadtIso prev fuel

/-- **The calls `next(prev)`, `next(r₁)`, `next(r₂)`, …** of `madt_find` at
one type, each given `fuel` iterations, for at most `calls` calls: the
non-`NULL` results in order when a call returns `NULL`, and `none` when a call
is still running or the calls run out first. -/
def madtFindAll (madt : Option Madt) (type : UInt8) (fuel : ℕ) :
    ℕ → Option ℕ → Option (List ℕ)
  | 0, _ => none
  | calls + 1, prev =>
    match madtFind headerSize madt type prev fuel with
    | some (some p) => (madtFindAll madt type fuel calls (some p)).map (p :: ·)
    | some none => some []
    | none => none

/-- **The I/O APIC reservation loop of `init_acpi`**: the I/O APIC sub-entries
it hands to `pmap_add`, in order. -/
def reserveIoApics (madt : Option Madt) (fuel calls : ℕ) : Option (List ℕ) :=
  madtFindAll headerSize madt acpiMadtIoApic fuel calls none

end Code

/-! ## A sub-entry of length zero -/

/-- **A sub-entry of length zero is never left.** In a table of 46 bytes whose
fixed part is the 44 bytes of `struct acpi_madt`, holding one sub-entry, of
type `ACPI_MADT_LOCAL_APIC` and length `0`: looking for an I/O APIC never
returns, whatever the fuel, so the reservation loop of `init_acpi` never ends;
and looking for the next local APIC after it returns it again. -/
theorem madtFind_zero_length_counterexample :
    (∀ fuel, acpiNextIoApic 44 (some ⟨46, fun _ => 0⟩) none fuel = none) ∧
    (∀ fuel calls, reserveIoApics 44 (some ⟨46, fun _ => 0⟩) fuel calls = none) ∧
    (∀ fuel, acpiNextLocalApic 44 (some ⟨46, fun _ => 0⟩) (some 44) (fuel + 1) = some (some 44)) := by
  have hscan : ∀ fuel, madtScan ⟨46, fun _ => 0⟩ acpiMadtIoApic fuel 44 = none := by
    intro fuel
    induction fuel with
    | zero => rfl
    | succ fuel ih => simpa [madtScan, Madt.entryType, Madt.entryLength, acpiMadtIoApic] using ih
  refine ⟨hscan, fun fuel calls => ?_, fun fuel => ?_⟩
  · cases calls <;> simp [reserveIoApics, madtFindAll, madtFind, hscan]
  · simp [acpiNextLocalApic, madtFind, madtScan, Madt.entryType, Madt.entryLength, acpiMadtLocalApic]

/-! ## The chain of sub-entries -/

namespace Madt

variable (m : Madt)

/-- **The offsets the walk visits** from `p`, following each length byte, for
at most `fuel` steps, while the offset is before the table's end. -/
def entriesFrom : ℕ → ℕ → List ℕ
  | 0, _ => []
  | fuel + 1, p => if p < m.length then p :: entriesFrom fuel (p + m.entryLength p) else []

/-- **The sub-entries of the table**: the walk from the first, `madt + 1`, for
`hdr.length` steps, which are enough when every length is positive. -/
def entries (headerSize : ℕ) : List ℕ := m.entriesFrom m.length headerSize

/-- **Every sub-entry on the walk has a positive length.** -/
def PositiveLengths (headerSize : ℕ) : Prop := ∀ p ∈ m.entries headerSize, 0 < m.entryLength p

instance (headerSize : ℕ) : Decidable (m.PositiveLengths headerSize) :=
  inferInstanceAs (Decidable (∀ p ∈ m.entries headerSize, 0 < m.entryLength p))

theorem length_entriesFrom_le (fuel p : ℕ) : (m.entriesFrom fuel p).length ≤ fuel := by
  induction fuel generalizing p with
  | zero => rfl
  | succ fuel ih =>
    simp only [entriesFrom]
    split_ifs
    · exact Nat.succ_le_succ (ih _)
    · exact Nat.zero_le _

/-- **A walk that ends**: `ChainFrom m p L` when the walk from `p` visits the
offsets `L`, each before the table's end and of positive length, and then
reaches the end. -/
inductive ChainFrom : ℕ → List ℕ → Prop
  | done {p} : m.length ≤ p → ChainFrom p []
  | cons {p L} : p < m.length → 0 < m.entryLength p → ChainFrom (p + m.entryLength p) L →
      ChainFrom p (p :: L)

variable {m}

/-- With positive lengths and enough fuel, the walk from `p` ends. -/
theorem chainFrom_entriesFrom {fuel p : ℕ} (hpos : ∀ q ∈ m.entriesFrom fuel p, 0 < m.entryLength q)
    (hfuel : m.length ≤ p + fuel) : m.ChainFrom p (m.entriesFrom fuel p) := by
  induction fuel generalizing p with
  | zero => exact .done (by simpa using hfuel)
  | succ fuel ih =>
    simp only [entriesFrom] at hpos ⊢
    split_ifs at hpos ⊢ with hp
    · have hl := hpos p (List.mem_cons_self _ _)
      exact .cons hp hl (ih (fun q hq => hpos q (List.mem_cons_of_mem _ hq)) (by omega))
    · exact .done (by omega)

theorem ChainFrom.le_of_mem {p L} (h : m.ChainFrom p L) : ∀ q ∈ L, p ≤ q := by
  induction h with
  | done => simp
  | cons _ hl _ ih =>
    simp only [List.mem_cons, forall_eq_or_imp, le_refl, true_and]
    exact fun q hq => by have := ih q hq; omega

theorem ChainFrom.lt_length {p L} (h : m.ChainFrom p L) : ∀ q ∈ L, q < m.length := by
  induction h with
  | done => simp
  | cons hp _ _ ih => simpa [hp] using ih

theorem ChainFrom.sorted {p L} (h : m.ChainFrom p L) : L.Sorted (· < ·) := by
  induction h with
  | done => exact List.sorted_nil
  | cons _ hl hL ih =>
    exact List.sorted_cons.2 ⟨fun q hq => by have := hL.le_of_mem q hq; omega, ih⟩

/-- The walk after a visited sub-entry is the rest of the chain. -/
theorem ChainFrom.of_append {p q L₁ L₂} (h : m.ChainFrom p (L₁ ++ q :: L₂)) :
    m.ChainFrom (q + m.entryLength q) L₂ := by
  induction L₁ generalizing p with
  | nil => cases h with | cons _ _ h => exact h
  | cons r L₁ ih => cases h with | cons _ _ h => exact ih h

/-- **The loop of `madt_find` on a chain** returns its first sub-entry of the
type, or `NULL`, given one iteration more than the chain has sub-entries. -/
theorem ChainFrom.madtScan {p L} (h : m.ChainFrom p L) (type : UInt8) {fuel : ℕ}
    (hfuel : L.length < fuel) :
    Acpi.madtScan m type fuel p = some (L.find? (m.entryType · = type)) := by
  induction h generalizing fuel with
  | done hp =>
    obtain ⟨fuel, rfl⟩ := Nat.exists_eq_succ_of_ne_zero (Nat.pos_iff_ne_zero.1 hfuel)
    simp [Acpi.madtScan, Nat.not_lt.2 hp]
  | @cons p L hp _ _ ih =>
    obtain ⟨fuel, rfl⟩ := Nat.exists_eq_succ_of_ne_zero (Nat.pos_iff_ne_zero.1 (Nat.zero_lt_of_lt hfuel))
    by_cases ht : m.entryType p = type
    · simp [Acpi.madtScan, hp, ht]
    · simp only [Acpi.madtScan, hp, ht, if_true, if_false, List.find?_cons, decide_False]
      exact ih (by simpa using hfuel)

/-- **The calls from a chain's start** return its sub-entries of the type in
order and then `NULL`, one call per sub-entry and one more. -/
theorem ChainFrom.madtFindAll (headerSize : ℕ) {p L} (h : m.ChainFrom p L) (type : UInt8)
    {fuel : ℕ} (hfuel : L.length < fuel) (prev : Option ℕ)
    (hprev : (match prev with | some q => q + m.entryLength q | none => headerSize) = p) :
    Acpi.madtFindAll headerSize (some m) type fuel ((L.filter (m.entryType · = type)).length + 1)
      prev = some (L.filter (m.entryType · = type)) := by
  obtain ⟨n, hc⟩ : ∃ n, (L.filter (m.entryType · = type)).length = n := ⟨_, rfl⟩
  induction n generalizing p L prev with
  | zero =>
    have hfind : L.find? (m.entryType · = type) = none :=
      List.find?_eq_none.2 (List.filter_eq_nil_iff.1 (List.length_eq_zero.1 hc))
    simp only [Acpi.madtFindAll, madtFind, hprev, h.madtScan type hfuel, hfind]
    rw [List.length_eq_zero.1 hc]
  | succ n ih =>
    obtain ⟨q, hq⟩ : ∃ q, L.find? (m.entryType · = type) = some q := by
      cases hf : L.find? (m.entryType · = type) with
      | some q => exact ⟨q, rfl⟩
      | none => simp [List.filter_eq_nil_iff.2 (List.find?_eq_none.1 hf)] at hc
    obtain ⟨hqt, L₁, L₂, rfl, hL₁⟩ := List.find?_eq_some.1 hq
    have hfil : (L₁ ++ q :: L₂).filter (m.entryType · = type) =
        q :: L₂.filter (m.entryType · = type) := by
      rw [List.filter_append, List.filter_eq_nil_iff.2 (fun a ha => by simpa using hL₁ a ha),
        List.nil_append, List.filter_cons, if_pos hqt]
    rw [hfil, List.length_cons] at hc
    rw [hfil]
    simp only [Acpi.madtFindAll, madtFind, hprev, h.madtScan type hfuel, hq, Option.map_eq_some']
    refine ⟨_, ih h.of_append (lt_of_le_of_lt ?_ hfuel) (some q) rfl (by omega), rfl⟩
    simp only [List.length_append, List.length_cons]
    omega

end Madt

/-! ## The walk over a well-formed table -/

open Madt

/-- **What the walk does over a table whose sub-entries have positive
lengths**, for every type: every call from `NULL` or from a sub-entry returns
within `hdr.length + 1` iterations; the sub-entries lie before the table's
end, in strictly increasing order; and the calls from `NULL` return exactly
the sub-entries of the type, in table order, then `NULL`, the reservation
loop of `init_acpi` included. -/
def MadtWalk (headerSize : ℕ) (m : Madt) : Prop :=
  (∀ p ∈ m.entries headerSize, p < m.length) ∧
  (m.entries headerSize).Sorted (· < ·) ∧
  (∀ type, ∀ prev ∈ none :: (m.entries headerSize).map some,
    ∃ r, madtFind headerSize (some m) type prev (m.length + 1) = some r) ∧
  (∀ type, madtFindAll headerSize (some m) type (m.length + 1)
    (((m.entries headerSize).filter (m.entryType · = type)).length + 1) none =
      some ((m.entries headerSize).filter (m.entryType · = type))) ∧
  reserveIoApics headerSize (some m) (m.length + 1)
    (((m.entries headerSize).filter (m.entryType · = acpiMadtIoApic)).length + 1) =
      some ((m.entries headerSize).filter (m.entryType · = acpiMadtIoApic))

/-- **The walk over a table with positive lengths** terminates and enumerates
each type's sub-entries in order, once each. -/
theorem madtFind_enumerates (headerSize : ℕ) (m : Madt) (hpos : m.PositiveLengths headerSize) :
    MadtWalk headerSize m := by
  have hc : m.ChainFrom headerSize (m.entries headerSize) :=
    chainFrom_entriesFrom hpos (Nat.le_add_left _ _)
  have hfuel : (m.entries headerSize).length < m.length + 1 :=
    Nat.lt_succ_of_le (m.length_entriesFrom_le _ _)
  have hall := fun type => hc.madtFindAll headerSize type hfuel none rfl
  refine ⟨hc.lt_length, hc.sorted, fun type prev hprev => ?_, hall, hall acpiMadtIoApic⟩
  simp only [List.mem_cons, List.mem_map] at hprev
  obtain rfl | ⟨q, hq, rfl⟩ := hprev
  · exact ⟨_, hc.madtScan type hfuel⟩
  · obtain ⟨L₁, L₂, hL⟩ := List.append_of_mem hq
    have hq₂ := (hL ▸ hc).of_append
    refine ⟨_, hq₂.madtScan type (lt_of_le_of_lt ?_ hfuel)⟩
    rw [hL, List.length_append, List.length_cons]
    omega

theorem madtFind_enumerates_two_entries :
    (⟨46, fun i => if i = 40 then 1 else if i = 41 ∨ i = 44 then 3 else 0⟩ : Madt).PositiveLengths 40 ∧
    MadtWalk 40 ⟨46, fun i => if i = 40 then 1 else if i = 41 ∨ i = 44 then 3 else 0⟩ :=
  ⟨by decide, madtFind_enumerates 40 _ (by decide)⟩

end Acpi

end Mcube
