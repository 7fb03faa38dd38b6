import Mathlib.Data.Nat.Bitwise
import Mathlib.Data.List.Infix
import Mathlib.Logic.Function.Basic

/-!
# The boot page table of `init_acpi`

Before it reads the ACPI tables, `init_acpi` makes sure that each of them is
mapped in the page table the boot loader left behind. The table is reached
through `btable_t`: its PML4 table `root`, and a stretch of free pages
`[next_page, term_page)` for the tables it may have to add. `is_mapped` walks
the four levels for an address, stopping at a zero entry or at a 1 GiB or
2 MiB page (`PF_PS`); `create_page` walks them too, filling each zero entry on
the way with a fresh zeroed page from `alloc_page`, and writes the last entry;
`map_range` calls `create_page` for every page of a range that `is_mapped`
does not find. `alloc_page` calls `fatal()` when the stretch is used up.

Memory is a map from byte addresses to 64-bit words; the entry `i` of the
table at `t` is the word at `t + 8 * i`. A call that reaches `fatal()` returns
`none`.

The two walks are four copies of one step. `walkFrom` and `createFrom` are
that step, iterated along a list of indices, and `isMapped_eq_walkFrom` and
`createPage_eq_createFrom` say the code is them at the four indices of an
address (`pageIndices`); the tables reached on the way are `tableFrom`. What
a walk reads is the entry of each table it reaches at the next index
(`Reads`), and a walk over memory that agrees there gives the same answer
(`walkFrom_congr`, `tableFrom_congr`).

`PAGE_ALIGN_DOWN`, `PAGE_ALIGN_UP`, `memzero` and the declaration of
`btable_t` are not among the sources. Modelled from the spec: rounding down
and up to a 4 KiB page on `uint64_t`, and clearing a page.
-/

namespace Mcube

namespace Acpi

open Function

/-- **`btable_t`**, with the memory its tables live in. -/
structure BTable where
  /-- Memory: the 64-bit word at each byte address. -/
  mem : ℕ → ℕ
  /-- `root`: the PML4 table. -/
  root : ℕ
  /-- `next_page`: the first page not yet taken for a table. -/
  nextPage : ℕ
  /-- `term_page`: the end of the pages set aside for tables. -/
  termPage : ℕ

/-! ## The code -/

/-- `PAGE_SIZE`. -/
def pageSize : ℕ := 0x1000

/-- `PF_PRESENT`. -/
def pfPresent : ℕ := 1 <<< 0

/-- `PF_RW`. -/
def pfRw : ℕ := 1 <<< 1

/-- `PF_PS`. -/
def pfPs : ℕ := 1 <<< 7

/-- `PML4E(a)`. -/
def pml4e (a : ℕ) : ℕ := a >>> 39 &&& 0x1ff

/-- `PDPTE(a)`. -/
def pdpte (a : ℕ) : ℕ := a >>> 30 &&& 0x1ff

/-- `PDE(a)`. -/
def pde (a : ℕ) : ℕ := a >>> 21 &&& 0x1ff

/-- `PTE(a)`. -/
def pte (a : ℕ) : ℕ := a >>> 12 &&& 0x1ff

/-- `PGPTR(e)`, that is `e & ~PGMASK_OFFSET`: the entry with its low ten bits
cleared. -/
def pgptr (e : ℕ) : ℕ := e >>> 10 <<< 10

/-- `t->entry[i]`. -/
def entry (mem : ℕ → ℕ) (t i : ℕ) : ℕ := mem (t + 8 * i)

/-- `e & PF_PS`, as a condition. -/
def isLarge (e : ℕ) : Bool := e &&& pfPs != 0

/-- **`is_mapped(btable, addr)`**. -/
def isMapped (bt : BTable) (addr : ℕ) : Bool :=
  let pml4t := bt.root
  if entry bt.mem pml4t (pml4e addr) = 0 then false else
  let pdpt := pgptr (entry bt.mem pml4t (pml4e addr))
  if entry bt.mem pdpt (pdpte addr) = 0 then false else
  if isLarge (entry bt.mem pdpt (pdpte addr)) then true else
  let pdt := pgptr (entry bt.mem pdpt (pdpte addr))
  if entry bt.mem pdt (pde addr) = 0 then false else
  if isLarge (entry bt.mem pdt (pde addr)) then true else
  let pt := pgptr (entry bt.mem pdt (pde addr))
  entry bt.mem pt (pte addr) != 0

/-- `memzero(p, n)`. -/
def memzero (mem : ℕ → ℕ) (p n : ℕ) : ℕ → ℕ := fun w => if p ≤ w ∧ w < p + n then 0 else mem w

/-- **`alloc_page(btable)`**: the table after the call, and the entry it
returns; `none` for `fatal()`. -/
def allocPage (bt : BTable) : Option (BTable × ℕ) :=
  if bt.nextPage = bt.termPage then none
  else some ({ bt with mem := memzero bt.mem bt.nextPage pageSize,
                       nextPage := bt.nextPage + pageSize },
    bt.nextPage ||| pfPresent ||| pfRw)

/-- `if (t->entry[i] == 0) t->entry[i] = alloc_page(btable);`, the step
`create_page` takes at each of its first three levels. -/
def allocEntry (bt : BTable) (t i : ℕ) : Option BTable :=
  if entry bt.mem t i = 0 then
    (allocPage bt).map fun r => { r.1 with mem := update r.1.mem (t + 8 * i) r.2 }
  else some bt

/-- **`create_page(btable, addr, flags)`**. -/
def createPage (bt : BTable) (addr flags : ℕ) : Option BTable := do
  let pml4t := bt.root
  let bt ← allocEntry bt pml4t (pml4e addr)
  let pdpt := pgptr (entry bt.mem pml4t (pml4e addr))
  let bt ← allocEntry bt pdpt (pdpte addr)
  let pdt := pgptr (entry bt.mem pdpt (pdpte addr))
  let bt ← allocEntry bt pdt (pde addr)
  let pt := pgptr (entry bt.mem pdt (pde addr))
  pure { bt with mem := update bt.mem (pt + 8 * pte addr) (addr ||| flags) }

/-- `PAGE_ALIGN_DOWN(a)`. -/
def pageAlignDown (a : ℕ) : ℕ := a / pageSize * pageSize

/-- `PAGE_ALIGN_UP(a)`, on `uint64_t`. -/
def pageAlignUp (a : ℕ) : ℕ := (a + pageSize - 1) / pageSize * pageSize % 2 ^ 64

/-- The values `addr` takes in the loop of `map_range`:
`for (addr = begin; addr < term; addr += PAGE_SIZE)`. -/
def pagesFrom (begin term : ℕ) : List ℕ :=
  List.range' begin ((term - begin + pageSize - 1) / pageSize) pageSize

/-- **`map_range(btable, addr, size, flags)`**. -/
def mapRange (bt : BTable) (addr size flags : ℕ) : Option BTable :=
  let begin := pageAlignDown addr
  let term := pageAlignUp ((addr + size) % 2 ^ 64)
  (pagesFrom begin term).foldlM
    (fun bt addr => if isMapped bt addr then some bt else createPage bt addr flags) bt

/-! ## The walks as one step, iterated -/

/-- The four indices of an address, from the PML4 table down. -/
def pageIndices (a : ℕ) : List ℕ := [pml4e a, pdpte a, pde a, pte a]

/-- Indices of entries, each below `512`. -/
def ValidPath (p : List ℕ) : Prop := ∀ i ∈ p, i < 512

/-- **The walk of `is_mapped`** from the table at `t` along the indices: zero
ends it, a `PF_PS` entry ends it mapped where `ps` (below the PML4 table), and
the last entry is mapped when non-zero. -/
def walkFrom (mem : ℕ → ℕ) : Bool → ℕ → List ℕ → Bool
  | _, _, [] => false
  | _, t, [i] => entry mem t i != 0
  | ps, t, i :: j :: p =>
    if entry mem t i = 0 then false
    else if ps && isLarge (entry mem t i) then true
    else walkFrom mem true (pgptr (entry mem t i)) (j :: p)

/-- **The walk of `create_page`** from the table at `t` along the indices,
writing `v` into the last entry. -/
def createFrom (bt : BTable) (t v : ℕ) : List ℕ → Option BTable
  | [] => some bt
  | [i] => some { bt with mem := update bt.mem (t + 8 * i) v }
  | i :: j :: p => do
    let bt ← allocEntry bt t i
    createFrom bt (pgptr (entry bt.mem t i)) v (j :: p)

/-- **The table reached** from the table at `t` through the indices, if the
entries on the way point to tables. -/
def tableFrom (mem : ℕ → ℕ) : Bool → ℕ → List ℕ → Option ℕ
  | _, t, [] => some t
  | ps, t, i :: p =>
    if entry mem t i = 0 ∨ (ps && isLarge (entry mem t i)) = true then none
    else tableFrom mem true (pgptr (entry mem t i)) p

/-- **What a walk along `q` reads**: the entry at index `k` of the table reached
through `r`, for each prefix `r ++ [k]` of `q`. -/
def Reads (mem : ℕ → ℕ) (ps : Bool) (t : ℕ) (q : List ℕ) (w : ℕ) : Prop :=
  ∃ r k x, r ++ [k] <+: q ∧ tableFrom mem ps t r = some x ∧ w = x + 8 * k

theorem pml4e_eq (a : ℕ) : pml4e a = a / 2 ^ 39 % 512 := by
  rw [pml4e, Nat.shiftRight_eq_div_pow, show (0x1ff : ℕ) = 2 ^ 9 - 1 from rfl,
    Nat.and_pow_two_sub_one_eq_mod]

theorem pdpte_eq (a : ℕ) : pdpte a = a / 2 ^ 30 % 512 := by
  rw [pdpte, Nat.shiftRight_eq_div_pow, show (0x1ff : ℕ) = 2 ^ 9 - 1 from rfl,
    Nat.and_pow_two_sub_one_eq_mod]

theorem pde_eq (a : ℕ) : pde a = a / 2 ^ 21 % 512 := by
  rw [pde, Nat.shiftRight_eq_div_pow, show (0x1ff : ℕ) = 2 ^ 9 - 1 from rfl,
    Nat.and_pow_two_sub_one_eq_mod]

theorem pte_eq (a : ℕ) : pte a = a / 2 ^ 12 % 512 := by
  rw [pte, Nat.shiftRight_eq_div_pow, show (0x1ff : ℕ) = 2 ^ 9 - 1 from rfl,
    Nat.and_pow_two_sub_one_eq_mod]

theorem pageIndices_valid (a : ℕ) : ValidPath (pageIndices a) := by
  intro i hi
  simp only [pageIndices, List.mem_cons, List.mem_singleton, List.not_mem_nil, or_false] at hi
  rcases hi with rfl | rfl | rfl | rfl <;>
    simp only [pml4e_eq, pdpte_eq, pde_eq, pte_eq] <;> exact Nat.mod_lt _ (by decide)

theorem ValidPath.of_initial {s q : List ℕ} (h : s <+: q) (hq : ValidPath q) : ValidPath s :=
  fun i hi => hq i (h.subset hi)

theorem ValidPath.cons {i : ℕ} {q : List ℕ} (hi : i < 512) (hq : ValidPath q) :
    ValidPath (i :: q) :=
  fun j hj => (List.mem_cons.1 hj).elim (· ▸ hi) (hq j)

theorem ValidPath.head {i : ℕ} {q : List ℕ} (h : ValidPath (i :: q)) : i < 512 :=
  h i (List.mem_cons_self _ _)

theorem ValidPath.tail {i : ℕ} {q : List ℕ} (h : ValidPath (i :: q)) : ValidPath q :=
  fun k hk => h k (List.mem_cons_of_mem _ hk)

/-- A step `s ++ [k]` of a way `q`: the way `s` to its table is shorter than `q`
and valid, and `k` is an index. -/
theorem ValidPath.step {s q : List ℕ} {k : ℕ} (hq : ValidPath q) (hs : s ++ [k] <+: q) :
    s.length < q.length ∧ ValidPath s ∧ k < 512 :=
  ⟨by simpa using hs.length_le, (hq.of_initial hs).of_initial (List.prefix_append _ _),
    hq.of_initial hs k (by simp)⟩

theorem length_pageIndices (a : ℕ) : (pageIndices a).length = 4 := rfl

theorem pgptr_eq (e : ℕ) : pgptr e = e / 1024 * 1024 := by
  rw [pgptr, Nat.shiftLeft_eq, Nat.shiftRight_eq_div_pow]

theorem isLarge_eq (e : ℕ) : isLarge e = decide (e / 128 % 2 = 1) := by
  rw [isLarge, pfPs, Nat.shiftLeft_eq, one_mul, Nat.and_two_pow]
  have := @Nat.testBit_to_div_mod 7 e
  cases h : e.testBit 7 <;> simp_all

/-- **`is_mapped` is the walk** along the address's indices. -/
theorem isMapped_eq_walkFrom (bt : BTable) (a : ℕ) :
    isMapped bt a = walkFrom bt.mem false bt.root (pageIndices a) := rfl

/-- **`create_page` is the walk** along the address's indices, writing
`addr | flags`. -/
theorem createPage_eq_createFrom (bt : BTable) (a flags : ℕ) :
    createPage bt a flags = createFrom bt bt.root (a ||| flags) (pageIndices a) := rfl

/-! ## What a walk reads -/

section Reads

variable {mem mem' : ℕ → ℕ}

theorem tableFrom_cons {ps : Bool} {t i : ℕ} {r : List ℕ} (h0 : entry mem t i ≠ 0)
    (hl : (ps && isLarge (entry mem t i)) = false) :
    tableFrom mem ps t (i :: r) = tableFrom mem true (pgptr (entry mem t i)) r := by
  simp [tableFrom, h0, hl]

/-- A table reached through `i :: r` is reached through `r` from the table
entry `i` points to. -/
theorem tableFrom_cons_eq_some {ps : Bool} {t i x : ℕ} {r : List ℕ}
    (h : tableFrom mem ps t (i :: r) = some x) :
    entry mem t i ≠ 0 ∧ (ps && isLarge (entry mem t i)) = false ∧
      tableFrom mem true (pgptr (entry mem t i)) r = some x := by
  simp only [tableFrom] at h
  split_ifs at h with hc
  simp only [not_or, Bool.not_eq_true] at hc
  exact ⟨hc.1, hc.2, h⟩

/-- What the walk along `i :: q` reads past the first table is what the walk
along `q` reads from the table entry `i` points to. -/
theorem Reads.cons {ps : Bool} {t i w : ℕ} {q : List ℕ} (h0 : entry mem t i ≠ 0)
    (hl : (ps && isLarge (entry mem t i)) = false)
    (h : Reads mem true (pgptr (entry mem t i)) q w) : Reads mem ps t (i :: q) w := by
  obtain ⟨r, k, x, hp, hx, rfl⟩ := h
  exact ⟨i :: r, k, x, List.cons_prefix_cons.2 ⟨rfl, hp⟩, by rwa [tableFrom_cons h0 hl], rfl⟩

theorem Reads.head {ps : Bool} {t i : ℕ} {q : List ℕ} : Reads mem ps t (i :: q) (t + 8 * i) :=
  ⟨[], i, t, List.cons_prefix_cons.2 ⟨rfl, List.nil_prefix⟩, rfl, rfl⟩

/-- **A walk over memory that agrees on what it reads** gives the same
answer. -/
theorem walkFrom_congr {ps : Bool} {t : ℕ} {q : List ℕ}
    (h : ∀ w, Reads mem ps t q w → mem' w = mem w) :
    walkFrom mem' ps t q = walkFrom mem ps t q := by
  induction q generalizing ps t with
  | nil => rfl
  | cons i q ih =>
    have hi : entry mem' t i = entry mem t i := h _ Reads.head
    cases q with
    | nil => simp only [walkFrom, hi]
    | cons j p =>
      simp only [walkFrom, hi]
      split_ifs with h0 hl
      · rfl
      · rfl
      · exact ih fun w hw => h w (hw.cons h0 (by simpa using hl))

/-- **A table reached over memory that agrees on what the way reads** is the
same table. -/
theorem tableFrom_congr {ps : Bool} {t : ℕ} {r : List ℕ}
    (h : ∀ w, Reads mem ps t r w → mem' w = mem w) :
    tableFrom mem' ps t r = tableFrom mem ps t r := by
  induction r generalizing ps t with
  | nil => rfl
  | cons i r ih =>
    have hi : entry mem' t i = entry mem t i := h _ Reads.head
    simp only [tableFrom, hi]
    split_ifs with hc
    · rfl
    · simp only [not_or, Bool.not_eq_true] at hc
      exact ih fun w hw => h w (hw.cons hc.1 hc.2)

end Reads

end Acpi

end Mcube
