import Mathlib.Logic.Function.Basic
import Mathlib.Data.List.Basic
import Mathlib.Algebra.Group.Nat.Basic

/-!
# Kernel virtual mappings

`arch/x86/vm_map.c` builds the kernel's permanent page tables with 2 MiB
pages: `map_kernel_range(vstart, vlen, pstart)` hands the range to
`map_pml4_range`, which walks the PML4 entries the range covers, allocating
a PML3 table for each entry not yet present, and hands each entry's part of
the range to `map_pml3_range`; that does the same one level down, and
`map_pml2_range` writes the PML2 entries. Each level cuts the range at its
entries as

    end = (last entry) ? vend : vstart + ENTRY_MAPPING_SIZE;
    vstart += ENTRY_MAPPING_SIZE;

which is the end of the entry's slot only when `vstart` starts the slot. A
range that starts inside a 1 GiB slot and crosses its end is cut a whole slot
too far: the first call to `map_pml2_range` is asked for `[vstart, vstart +
1 GiB)`, whose last index lies before its first, and maps nothing; the next
is asked for a range whose end lies before its start, and `vend - vstart`
wraps to a huge value and panics (`mapKernelRange_panics_across_gib`).

The tables are modelled by physical frame and entry index, an entry by its
`present` bit and the frame or 2 MiB page it points to. `uintptr_t`
arithmetic is modulo `2 ^ 64` (`wadd`, `wsub`). A failed `assert` and a `panic` end
the run (`Fault`).

`pml2_index`, `pml3_index`, `pml4_index`, the `PML*_MAPPING_SIZE` constants
and `get_zeroed_page` are not among the sources. Modelled from the spec:
x86-64 four-level paging, indices being the 9-bit fields at bits 21, 30
and 39 of the address and slots 2 MiB, 1 GiB and 512 GiB; and a page
allocator handing out a fresh zeroed frame.
-/

namespace Mcube

namespace VmMap

open Function

/-- Why a run stops: an `assert` that fails, or a `panic` with its format
string. -/
inductive Fault
  | assert
  | panic (msg : String)
  deriving DecidableEq, Repr

/-- A page-table entry: `present`, and `pml3_base`, `pml2_base` or
`page_base`. -/
structure Entry where
  present : Bool
  base : ℕ
  deriving DecidableEq, Repr

/-- The page tables and what the three functions read besides. -/
structure VmState where
  /-- The page tables, by physical frame and entry index. -/
  table : ℕ → ℕ → Entry
  /-- `kernel_pml4_table`, by its frame. -/
  pml4 : ℕ
  /-- The frame `get_zeroed_page` hands out next. -/
  next : ℕ

/-- `a + b` on `uintptr_t`. -/
def wadd (a b : ℕ) : ℕ := (a + b) % 2 ^ 64

/-- `a - b` on `uintptr_t`. -/
def wsub (a b : ℕ) : ℕ := (a + 2 ^ 64 - b) % 2 ^ 64

/-- `PAGE_SIZE_2MB`. -/
def pageSize2MB : ℕ := 2 ^ 21

/-- `PML2_ENTRY_MAPPING_SIZE`: a 2 MiB page. -/
def pml2EntryMappingSize : ℕ := 2 ^ 21

/-- `PML3_ENTRY_MAPPING_SIZE`: a 1 GiB slot. -/
def pml3EntryMappingSize : ℕ := 2 ^ 30

/-- `PML4_ENTRY_MAPPING_SIZE`: a 512 GiB slot. -/
def pml4EntryMappingSize : ℕ := 2 ^ 39

/-- `PML3_MAPPING_SIZE`: what one PML3 table maps. -/
def pml3MappingSize : ℕ := 2 ^ 39

/-- `PML4_MAPPING_SIZE`: the 48-bit address space. -/
def pml4MappingSize : ℕ := 2 ^ 48

/-- `pml2_index`. -/
def pml2Index (v : ℕ) : ℕ := v / 2 ^ 21 % 512

/-- `pml3_index`. -/
def pml3Index (v : ℕ) : ℕ := v / 2 ^ 30 % 512

/-- `pml4_index`. -/
def pml4Index (v : ℕ) : ℕ := v / 2 ^ 39 % 512

/-- `is_aligned(x, n)`, `n` a power of two. -/
def isAligned (x n : ℕ) : Bool := decide (x % n = 0)

/-- Write entry `i` of the table in frame `t`. -/
def VmState.write (st : VmState) (t i : ℕ) (e : Entry) : VmState :=
  { st with table := update st.table t (update (st.table t) i e) }

/-- `get_zeroed_page(ZONE_1GB)`, returning its frame. -/
def getZeroedPage (st : VmState) : VmState × ℕ :=
  ({ st with table := update st.table st.next fun _ => ⟨false, 0⟩, next := st.next + 1 }, st.next)

/-! ## The three levels -/

/-- The alignment `assert`s every level starts with. -/
def checkAligned (vstart vend pstart : ℕ) : Except Fault Unit :=
  if isAligned vstart pageSize2MB && isAligned vend pageSize2MB && isAligned pstart pageSize2MB then
    pure ()
  else throw .assert

/-- `map_pml2_range`: fill the PML2 table in frame `pml2Base` for
`[vstart, vend)`, from physical `pstart` up. The `assert` that the table is
page aligned holds of every frame. -/
def mapPml2Range (st : VmState) (pml2Base vstart vend pstart : ℕ) : Except Fault VmState := do
  checkAligned vstart vend pstart
  if wsub vend vstart > 2 ^ 30 then
    throw (.panic "A PML2 table cant map ranges > 1-GByte. Given range: 0x%lx - 0x%lx")
  let first := pml2Index vstart
  let last := pml2Index (wsub vend 1)
  let r ← (List.range' first (last + 1 - first)).foldlM (fun (p : VmState × ℕ) i => do
      if 512 ≤ i then throw .assert
      if (p.1.table pml2Base i).present then
        throw (.panic "Mapping virtual 0x%lx to already mapped physical page at 0x%lx")
      pure (p.1.write pml2Base i ⟨true, p.2 / 2 ^ 21⟩, wadd p.2 pml2EntryMappingSize))
    (st, pstart)
  pure r.1

/-- **`map_pml3_range` and `map_pml4_range`**, one level above `mapLower`:
for each entry of the table in frame `base` that `[vstart, vend)` covers,
allocate the lower table if the entry is not present, and map the entry's
part of the range, cut at `vstart + entrySize` unless it is the last. -/
def mapUpperRange (index : ℕ → ℕ) (entrySize mappingSize : ℕ) (msg : String)
    (mapLower : VmState → ℕ → ℕ → ℕ → ℕ → Except Fault VmState)
    (st : VmState) (base vstart vend pstart : ℕ) : Except Fault VmState := do
  checkAligned vstart vend pstart
  if wsub vend vstart > mappingSize then throw (.panic msg)
  let first := index vstart
  let last := index (wsub vend 1)
  let r ← (List.range' first (last + 1 - first)).foldlM (fun (p : VmState × ℕ × ℕ) i => do
      let (st, vstart, pstart) := p
      if 512 ≤ i then throw .assert
      let st := if (st.table base i).present then st
        else (getZeroedPage st).1.write base i ⟨true, (getZeroedPage st).2⟩
      let stop := if i = last then vend else wadd vstart entrySize
      let st ← mapLower st (st.table base i).base vstart stop pstart
      pure (st, wadd vstart entrySize, wadd pstart entrySize))
    (st, vstart, pstart)
  pure r.1

/-- `map_pml3_range`. -/
def mapPml3Range : VmState → ℕ → ℕ → ℕ → ℕ → Except Fault VmState :=
  mapUpperRange pml3Index pml3EntryMappingSize pml3MappingSize
    "A PML3 table can't map ranges > 512-GBytes. Given range: 0x%lx - 0x%lx" mapPml2Range

/-- `map_pml4_range`. -/
def mapPml4Range : VmState → ℕ → ℕ → ℕ → ℕ → Except Fault VmState :=
  mapUpperRange pml4Index pml4EntryMappingSize pml4MappingSize
    "Mapping a virtual range that exceeds the 48-bit architectural limit: 0x%lx - 0x%lx"
    mapPml3Range

/-- `map_kernel_range(vstart, vlen, pstart)`. -/
def mapKernelRange (st : VmState) (vstart vlen pstart : ℕ) : Except Fault VmState :=
  if isAligned vstart pageSize2MB && isAligned vlen pageSize2MB && isAligned pstart pageSize2MB then
    mapPml4Range st st.pml4 vstart (wadd vstart vlen) pstart
  else throw .assert

/-! ## A range starting inside a 1 GiB slot -/

variable {st : VmState} {b vstart vend pstart : ℕ}

@[simp] theorem throw_bind {α β : Type} (e : Fault) (f : α → Except Fault β) :
    (throw e : Except Fault α) >>= f = throw e := rfl

@[simp] theorem map_throw {α β : Type} (e : Fault) (f : α → β) :
    f <$> (throw e : Except Fault α) = throw e := rfl

/-- The alignment `assert`s pass on 2 MiB-aligned arguments. -/
theorem checkAligned_ok (hv : vstart % 2 ^ 21 = 0) (he : vend % 2 ^ 21 = 0) (hp : pstart % 2 ^ 21 = 0) :
    checkAligned vstart vend pstart = pure () := by
  have h : (isAligned vstart pageSize2MB && isAligned vend pageSize2MB &&
      isAligned pstart pageSize2MB) = true := by
    simp only [isAligned, Bool.and_eq_true, decide_eq_true_eq]
    exact ⟨⟨hv, he⟩, hp⟩
  rw [checkAligned, if_pos h]

/-- **A range whose end lies before its start** wraps `vend - vstart` past
1 GiB, and `map_pml2_range` panics, whatever the tables hold. -/
theorem mapPml2Range_wraps (ha : checkAligned vstart vend pstart = pure ())
    (hs : 2 ^ 30 < wsub vend vstart) :
    mapPml2Range st b vstart vend pstart =
      throw (.panic "A PML2 table cant map ranges > 1-GByte. Given range: 0x%lx - 0x%lx") := by
  unfold mapPml2Range
  rw [ha, pure_bind, if_pos hs]
  rfl
  
/-- **A range whose last index comes before its first** leaves the loop of
`map_pml2_range` without an iteration: nothing is mapped. -/
theorem mapPml2Range_empty (ha : checkAligned vstart vend pstart = pure ())
    (hs : wsub vend vstart ≤ 2 ^ 30) (he : pml2Index (wsub vend 1) < pml2Index vstart) :
    mapPml2Range st b vstart vend pstart = pure st := by
  unfold mapPml2Range
  rw [ha, pure_bind, if_neg (Nat.not_lt.2 hs)]
  simp only [pure_bind, Nat.sub_eq_zero_of_le he, List.range'_zero, List.foldlM_nil]

/-- **`map_kernel_range` panics on a 2 MiB-aligned range crossing a 1 GiB
boundary** from inside the slot: the 4 MiB from 2 MiB below the end of the
first 1 GiB slot of any 512 GiB slot, whatever the tables and the physical
start. -/
theorem mapKernelRange_panics_across_gib (st : VmState) {X pstart : ℕ} (hX : X % 2 ^ 39 = 0)
    (hXt : X + 2 ^ 39 ≤ 2 ^ 64) (hp : pstart % 2 ^ 21 = 0) :
    mapKernelRange st (X + 2 ^ 30 - 2 ^ 21) (2 ^ 22) pstart =
      throw (.panic "A PML2 table cant map ranges > 1-GByte. Given range: 0x%lx - 0x%lx") := by
  -- the range `[vstart, vend)` and the 1 GiB boundary `vmid` it crosses, in the slot `2^39 k`
  obtain ⟨k, rfl⟩ : ∃ k, X = 2 ^ 39 * k := ⟨X / 2 ^ 39, by omega⟩
  have hk : k < 2 ^ 25 := by omega
  generalize hv : 2 ^ 39 * k + 2 ^ 30 - 2 ^ 21 = vstart
  replace hv : vstart = 2 ^ 39 * k + 1071644672 := by omega
  obtain ⟨vend, hve⟩ : ∃ v, v = vstart + 2 ^ 22 := ⟨_, rfl⟩
  obtain ⟨vmid, hvm⟩ : ∃ v, v = vstart + 2 ^ 30 := ⟨_, rfl⟩
  clear hX hXt
  set msg := "A PML2 table cant map ranges > 1-GByte. Given range: 0x%lx - 0x%lx"
  have av : vstart % 2 ^ 21 = 0 := by omega
  have ae : vend % 2 ^ 21 = 0 := by omega
  have am : vmid % 2 ^ 21 = 0 := by omega
  have hvend : wadd vstart (2 ^ 22) = vend := by simp only [wadd]; omega
  have hmid : wadd vstart pml3EntryMappingSize = vmid := by simp only [wadd, pml3EntryMappingSize]; omega
  have hsz : wsub vend vstart = 2 ^ 22 := by simp only [wsub]; omega
  -- the first 1 GiB slot: its PML2 table is asked for a range whose last index comes first
  have e1 : ∀ s b, mapPml2Range s b vstart vmid pstart = pure s := fun s b =>
    mapPml2Range_empty (checkAligned_ok av am hp) (by simp only [wsub]; omega)
      (by simp only [wsub, pml2Index]; omega)
  -- the second: its range ends before it starts
  have e2 : ∀ s b, mapPml2Range s b vmid vend (wadd pstart pml3EntryMappingSize) = throw (.panic msg) :=
    fun s b => mapPml2Range_wraps (checkAligned_ok am ae
      (by simp only [wadd, pml3EntryMappingSize]; omega)) (by simp only [wsub]; omega)
  have h3 : ∀ s b, mapPml3Range s b vstart vend pstart = throw (.panic msg) := by
    intro s b
    have i0 : pml3Index vstart = 0 := by simp only [pml3Index]; omega
    have i1 : pml3Index (wsub vend 1) = 1 := by simp only [pml3Index, wsub]; omega
    have hr : List.range' 0 (1 + 1 - 0) = [0, 1] := rfl
    simp only [mapPml3Range, mapUpperRange, checkAligned_ok av ae hp, hsz,
      Nat.reducePow, pml3MappingSize, gt_iff_lt, Nat.reduceLT, ↓reduceIte, i1, bind_pure_comp,
      throw_bind, pure_bind, i0, Nat.reduceAdd, Nat.sub_zero, hr, List.foldlM_cons, Nat.le_zero_eq,
      Nat.add_one_ne_zero, hmid, Nat.zero_ne_one, e1, map_pure, Nat.reduceLeDiff, List.foldlM_nil,
      bind_pure, e2, map_throw]
  have k : pml4Index (wsub vend 1) = pml4Index vstart := by simp only [pml4Index, wsub]; omega
  have hk : pml4Index vstart < 512 := Nat.mod_lt _ (by decide)
  have hal : (isAligned vstart pageSize2MB && isAligned (2 ^ 22) pageSize2MB &&
      isAligned pstart pageSize2MB) = true := by
    simp only [isAligned, Bool.and_eq_true, decide_eq_true_eq]
    exact ⟨⟨av, by decide⟩, hp⟩
  have hlim : ¬wsub vend vstart > pml4MappingSize := by
    rw [hsz]; unfold pml4MappingSize; omega
  rw [mapKernelRange, if_pos hal, hvend]
  simp only [mapPml4Range, mapUpperRange, checkAligned_ok av ae hp, hlim,
    ↓reduceIte, k, bind_pure_comp, throw_bind, pure_bind, Nat.add_sub_cancel_left, List.range'_one,
    List.foldlM_cons, Nat.not_le.2 hk, h3, map_throw, List.foldlM_nil, bind_pure]

theorem mapKernelRange_panics_at_first_gib :
    (0 : ℕ) % 2 ^ 39 = 0 ∧ 0 + 2 ^ 39 ≤ 2 ^ 64 ∧ (0 : ℕ) % 2 ^ 21 = 0 ∧
      mapKernelRange ⟨fun _ _ => ⟨false, 0⟩, 0, 1⟩ (0 + 2 ^ 30 - 2 ^ 21) (2 ^ 22) 0 =
        throw (.panic "A PML2 table cant map ranges > 1-GByte. Given range: 0x%lx - 0x%lx") :=
  ⟨rfl, by decide, rfl, mapKernelRange_panics_across_gib _ rfl (by decide) rfl⟩

end VmMap

end Mcube
