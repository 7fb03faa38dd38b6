import Mcube.VmMap
import Mathlib.Data.Nat.Bitwise
import Mathlib.Algebra.Order.Ring.Nat

/-!
# The E820h memory map

`arch/x86/mm/e820.c` reads the BIOS memory map that the real-mode code left
at `E820_BASE`.

`e820_sanitize_range` cuts an available range down to the whole pages in it
above the kernel's memory. It rounds the start up with `round_up(x, n) =
((x - 1) | (n - 1)) + 1` on `uint64_t`, which is the mathematical rounding
everywhere but in the last page of the address space, where it wraps to 0
before the start is clamped to `PHYS(kmem_end)`. Below that page the function
does what it is meant to (`e820SanitizeRange_eq_spec`). A range that starts in
that page holds no whole page, yet the function either returns 0 and sets it
to `[PHYS(kmem_end), 2^64 - 4096)`, or returns -1 and leaves it available
(`e820SanitizeRange_top_page`).

`validate_e820h_struct` walks the entries from the start signature to the end
mark, checks the error code and the checksum, and then overwrites the
signature with `E820_VALID_SIG`. `e820_for_each` walks the same entries with
its length word one step behind. Both walks read only words above the
signature, so on a validated buffer `e820_for_each` visits the ranges the
validator visited, in order (`forEachLoop_of_validateLoop`), and
`build_memory_setup` counts and measures them (`buildMemorySetup_of_validate`).

Memory is a byte per address, read little-endian. Addresses are natural
numbers: the walks move forward from `E820_BASE` and are not reduced modulo
`2^64`. `uint64_t` arithmetic on values is modulo `2^64` (`wadd`, `wsub` of
`VmMap`).

Some of the code is not among the sources. `PHYS` is a parameter. So are
`E820_BASE` and `E820_MAX`, which `VIRTUAL` gives. `page_aligned(x)` is
`x % PAGE_SIZE = 0`. A `panic`, a failed `assert`, and a loop that does not end
within its fuel all give `none`.
-/

namespace Mcube

namespace E820

open VmMap (wadd wsub)

/-- `PAGE_SIZE`. -/
def pageSize : ℕ := 0x1000

/-- `E820_AVAIL`. -/
def e820Avail : ℕ := 0x1

/-- `E820_ERRORMEM`. -/
def e820Errormem : ℕ := 0x5

/-- `struct e820_range`. -/
structure E820Range where
  base : ℕ
  len : ℕ
  type : ℕ
  deriving DecidableEq, Repr

/-! ## Rounding to pages -/

/-- `round_up(x, PAGE_SIZE)` on `uint64_t`: `((x - 1) | 0xfff) + 1`. -/
def roundUp (x : ℕ) : ℕ := wadd (wsub x 1 ||| (pageSize - 1)) 1

/-- `round_down(x, PAGE_SIZE)` on `uint64_t`: `x & ~(uint64_t)0xfff`. -/
def roundDown (x : ℕ) : ℕ := x &&& (2 ^ 64 - 1 - (pageSize - 1))

/-- Rounding up to a page, without wrapping. -/
def roundUpPage (x : ℕ) : ℕ := (x + pageSize - 1) / pageSize * pageSize

/-- Rounding down to a page. -/
def roundDownPage (x : ℕ) : ℕ := x / pageSize * pageSize

/-- Setting the low twelve bits. -/
theorem or_low_bits (q : ℕ) {r : ℕ} (hr : r < 2 ^ 12) :
    (2 ^ 12 * q + r) ||| (2 ^ 12 - 1) = 2 ^ 12 * q + (2 ^ 12 - 1) := by
  apply Nat.eq_of_testBit_eq
  intro j
  rw [Nat.testBit_or, Nat.testBit_mul_pow_two_add q hr,
    Nat.testBit_mul_pow_two_add q (Nat.sub_lt (Nat.two_pow_pos 12) Nat.one_pos),
    Nat.testBit_two_pow_sub_one]
  split <;> simp_all [Nat.testBit_two_pow_sub_one]

/-- Clearing the low twelve of 64 bits. -/
theorem and_high_bits {x : ℕ} (hx : x < 2 ^ 64) :
    x &&& (2 ^ 64 - 1 - (2 ^ 12 - 1)) = 2 ^ 12 * (x / 2 ^ 12) := by
  have hq : x / 2 ^ 12 < 2 ^ 52 := by omega
  have hm : 2 ^ 64 - 1 - (2 ^ 12 - 1) = 2 ^ 12 * (2 ^ 52 - 1) + 0 := by decide
  apply Nat.eq_of_testBit_eq
  intro j
  conv_lhs => rw [← Nat.div_add_mod x (2 ^ 12), hm]
  conv_rhs => rw [← Nat.add_zero (2 ^ 12 * (x / 2 ^ 12))]
  rw [Nat.testBit_and, Nat.testBit_mul_pow_two_add _ (Nat.mod_lt _ (Nat.two_pow_pos 12)),
    Nat.testBit_mul_pow_two_add _ (Nat.two_pow_pos 12),
    Nat.testBit_mul_pow_two_add _ (Nat.two_pow_pos 12)]
  split
  · simp
  · rw [Nat.testBit_two_pow_sub_one]
    by_cases hj : j - 12 < 52
    · simp [hj]
    · have hlt := lt_of_lt_of_le hq (Nat.pow_le_pow_right (by decide) (not_lt.mp hj))
      rw [Nat.testBit_lt_two_pow hlt]
      simp [hj]

/-- **`round_up` is the rounding up, modulo `2^64`.** -/
theorem roundUp_eq {x : ℕ} (hx : x < 2 ^ 64) : roundUp x = roundUpPage x % 2 ^ 64 := by
  have h := or_low_bits (wsub x 1 / 2 ^ 12) (Nat.mod_lt (wsub x 1) (Nat.two_pow_pos 12))
  rw [Nat.div_add_mod] at h
  unfold roundUp
  rw [show pageSize - 1 = 2 ^ 12 - 1 from rfl, h]
  unfold roundUpPage wadd wsub pageSize
  omega

/-- **`round_down` is the rounding down.** -/
theorem roundDown_eq {x : ℕ} (hx : x < 2 ^ 64) : roundDown x = roundDownPage x := by
  unfold roundDown roundDownPage pageSize
  rw [show (0x1000 : ℕ) - 1 = 2 ^ 12 - 1 from rfl, and_high_bits hx]
  omega

/-- `round_up` is the mathematical rounding below the last page. -/
theorem roundUp_of_le {x : ℕ} (hx : x ≤ 2 ^ 64 - pageSize) : roundUp x = roundUpPage x := by
  rw [roundUp_eq (by unfold pageSize at hx; omega)]
  unfold roundUpPage pageSize at *
  omega

/-- `round_up` wraps to 0 in the last page. -/
theorem roundUp_of_top {x : ℕ} (h₁ : 2 ^ 64 - pageSize < x) (h₂ : x < 2 ^ 64) :
    roundUp x = 0 := by
  rw [roundUp_eq h₂]
  unfold roundUpPage pageSize at *
  omega

/-! ## Sanitizing an available range -/

/-- `e820_sanitize_range(range, kmem_end)`: the value it returns and the range as
it leaves it, or `none` where an `assert` fails. `PHYS` is `phys`; the local
`end` of the source is `endAddr`. -/
def e820SanitizeRange (phys : ℕ → ℕ) (range : E820Range) (kmemEnd : ℕ) :
    Option (ℤ × E820Range) :=
  if range.type ≠ e820Avail then none
  else
    let start := roundUp range.base
    let endAddr := roundDown (wadd range.base range.len)
    if endAddr ≤ start then some (-1, { range with type := e820Errormem })
    else if kmemEnd % pageSize ≠ 0 then none
    else if endAddr ≤ phys kmemEnd then some (-1, range)
    else
      let start := if start < phys kmemEnd then phys kmemEnd else start
      some (0, { range with base := start, len := wsub endAddr start })

/-- A whole page of `[base, base + len)` that starts at or above `k`. -/
def WholePageAbove (range : E820Range) (k : ℕ) : Prop :=
  ∃ p, p % pageSize = 0 ∧ k ≤ p ∧ range.base ≤ p ∧ p + pageSize ≤ range.base + range.len

/-- What `e820_sanitize_range` is meant to do with an available range, for
`k = PHYS(kmem_end)`: succeed exactly when a whole page lies at or above `k`,
and then keep the pages from `max(roundup(base), k)` to `rounddown(base + len)`;
otherwise fail, keep the bounds, and mark the range erroneous exactly when it
holds no whole page. -/
structure Sanitized (range : E820Range) (k : ℕ) (r : ℤ × E820Range) : Prop where
  ok_iff : r.1 = 0 ↔ WholePageAbove range k
  ok : r.1 = 0 → r.2 = { range with
    base := max (roundUpPage range.base) k,
    len := roundDownPage (range.base + range.len) - max (roundUpPage range.base) k }
  aligned : r.1 = 0 → r.2.base % pageSize = 0 ∧ r.2.len % pageSize = 0
  within : r.1 = 0 → range.base ≤ r.2.base ∧ r.2.base + r.2.len ≤ range.base + range.len
  fail : r.1 ≠ 0 → r.1 = -1 ∧ r.2.base = range.base ∧ r.2.len = range.len ∧
    (r.2.type = e820Errormem ↔ ¬WholePageAbove range 0)

/-- For an aligned `k`, a whole page lies at or above `k` exactly when the
rounded bounds, the start clamped to `k`, leave room. -/
theorem wholePageAbove_iff {range : E820Range} {k : ℕ} (hk : k % pageSize = 0) :
    WholePageAbove range k ↔
      max (roundUpPage range.base) k < roundDownPage (range.base + range.len) := by
  unfold WholePageAbove roundUpPage roundDownPage pageSize at *
  constructor
  · rintro ⟨p, hp, hkp, hbp, hpe⟩
    omega
  · intro h
    exact ⟨max ((range.base + 0x1000 - 1) / 0x1000 * 0x1000) k, by omega⟩

/-- No whole page starts in the last page of the address space. -/
theorem not_wholePageAbove_of_top {range : E820Range} (k : ℕ)
    (hbase : 2 ^ 64 - pageSize < range.base) (hend : range.base + range.len < 2 ^ 64) :
    ¬WholePageAbove range k := by
  rintro ⟨p, hp, -, hbp, hpe⟩
  unfold pageSize at *
  omega

/-- `uint64_t` subtraction without borrow. -/
theorem wsub_of_le {a b : ℕ} (h : b ≤ a) (ha : a < 2 ^ 64) : wsub a b = a - b := by
  unfold wsub
  omega

/-- The clamp `if (start < k) start = k`. -/
theorem ite_lt_eq_max (a b : ℕ) : (if a < b then b else a) = max a b := by
  rw [Nat.max_def]
  split_ifs <;> omega

section Sanitize

variable (phys : ℕ → ℕ) {range : E820Range} {kmemEnd : ℕ}

/-- **Below the last page, `e820_sanitize_range` rounds mathematically.** -/
theorem e820SanitizeRange_eq (hty : range.type = e820Avail)
    (hbase : range.base ≤ 2 ^ 64 - pageSize) (hend : range.base + range.len < 2 ^ 64)
    (hal : kmemEnd % pageSize = 0) :
    e820SanitizeRange phys range kmemEnd =
      let lo := roundUpPage range.base
      let hi := roundDownPage (range.base + range.len)
      some (if hi ≤ lo then (-1, { range with type := e820Errormem })
        else if hi ≤ phys kmemEnd then (-1, range)
        else (0, { range with base := max lo (phys kmemEnd), len := hi - max lo (phys kmemEnd) })) := by
  have hw : wadd range.base range.len = range.base + range.len := Nat.mod_eq_of_lt hend
  have hhi : roundDownPage (range.base + range.len) < 2 ^ 64 :=
    lt_of_le_of_lt (Nat.div_mul_le_self _ _) hend
  unfold e820SanitizeRange
  rw [if_neg (not_not.mpr hty), roundUp_of_le hbase, hw, roundDown_eq hend]
  simp only [ne_eq, hal, not_true_eq_false, if_false, ite_lt_eq_max]
  split_ifs with h₁ h₂
  · rfl
  · rfl
  · rw [wsub_of_le (Nat.le_of_lt (Nat.max_lt.mpr ⟨by omega, by omega⟩)) hhi]

/-- **Below the last page, `e820_sanitize_range` does what it is meant to.**
For a page-aligned `kmem_end` whose `PHYS` is page-aligned, it succeeds
exactly when a whole page lies at or above `PHYS(kmem_end)`, and keeps exactly
those pages. -/
theorem e820SanitizeRange_sanitized (hty : range.type = e820Avail)
    (hbase : range.base ≤ 2 ^ 64 - pageSize) (hend : range.base + range.len < 2 ^ 64)
    (hal : kmemEnd % pageSize = 0) (hk : phys kmemEnd % pageSize = 0) :
    ∃ r, e820SanitizeRange phys range kmemEnd = some r ∧ Sanitized range (phys kmemEnd) r := by
  rw [e820SanitizeRange_eq phys hty hbase hend hal]
  refine ⟨_, rfl, ?_⟩
  have hpage : WholePageAbove range (phys kmemEnd) ↔ roundUpPage range.base <
      roundDownPage (range.base + range.len) ∧ phys kmemEnd < roundDownPage (range.base + range.len) :=
    (wholePageAbove_iff hk).trans Nat.max_lt
  have hany : WholePageAbove range 0 ↔
      roundUpPage range.base < roundDownPage (range.base + range.len) := by
    rw [wholePageAbove_iff rfl, Nat.max_zero]
  have hlo : range.base ≤ roundUpPage range.base ∧ roundUpPage range.base % pageSize = 0 := by
    unfold roundUpPage pageSize; omega
  have hhi : roundDownPage (range.base + range.len) ≤ range.base + range.len ∧
      roundDownPage (range.base + range.len) % pageSize = 0 := by
    unfold roundDownPage pageSize; omega
  have hne : (-1 : ℤ) ≠ 0 := by decide
  split_ifs with h₁ h₂
  · exact ⟨iff_of_false hne (by rw [hpage]; omega), fun h => absurd h hne, fun h => absurd h hne,
      fun h => absurd h hne, fun _ => ⟨rfl, rfl, rfl, iff_of_true rfl (by rw [hany]; omega)⟩⟩
  · exact ⟨iff_of_false hne (by rw [hpage]; omega), fun h => absurd h hne, fun h => absurd h hne,
      fun h => absurd h hne, fun _ => ⟨rfl, rfl, rfl,
        iff_of_false (show range.type ≠ e820Errormem by rw [hty]; decide) (by rw [hany]; omega)⟩⟩
  · have hlt : roundUpPage range.base < roundDownPage (range.base + range.len) ∧
        phys kmemEnd < roundDownPage (range.base + range.len) := by omega
    have hm := Nat.max_lt.mpr hlt
    have hma : max (roundUpPage range.base) (phys kmemEnd) % pageSize = 0 := by
      rcases Nat.le_total (roundUpPage range.base) (phys kmemEnd) with h | h
      · rw [Nat.max_eq_right h]; exact hk
      · rw [Nat.max_eq_left h]; exact hlo.2
    refine ⟨iff_of_true rfl (hpage.mpr hlt), fun _ => rfl,
      fun _ => ⟨hma, Nat.sub_mod_eq_zero_of_mod_eq (hhi.2.trans hma.symm)⟩,
      fun _ => ⟨hlo.1.trans (Nat.le_max_left _ _), (Nat.add_sub_of_le hm.le).trans_le hhi.1⟩,
      fun h => absurd rfl h⟩

/-- A range of three pages starting mid-page keeps its two whole pages above
`PHYS(kmem_end) = 0x1000`. -/
theorem e820SanitizeRange_sanitized_three_pages :
    ∃ r, e820SanitizeRange id ⟨0x1800, 0x3000, e820Avail⟩ 0x1000 = some r ∧
      Sanitized ⟨0x1800, 0x3000, e820Avail⟩ 0x1000 r :=
  e820SanitizeRange_sanitized id rfl (by decide) (by decide) rfl rfl

/-- **In the last page of the address space, `e820_sanitize_range` goes wrong.**
A range that starts there holds no whole page, but `round_up` has wrapped its
start to 0: the function either fails and leaves the range available, or
succeeds with `[PHYS(kmem_end), 2^64 - 4096)`. -/
theorem e820SanitizeRange_top_page (hty : range.type = e820Avail)
    (hbase : 2 ^ 64 - pageSize < range.base) (hend : range.base + range.len < 2 ^ 64)
    (hal : kmemEnd % pageSize = 0) :
    e820SanitizeRange phys range kmemEnd =
        (if 2 ^ 64 - pageSize ≤ phys kmemEnd then some (-1, range)
        else some (0, { range with base := phys kmemEnd, len := 2 ^ 64 - pageSize - phys kmemEnd })) ∧
      ∀ r, e820SanitizeRange phys range kmemEnd = some r → ¬Sanitized range (phys kmemEnd) r := by
  have hw : wadd range.base range.len = range.base + range.len := Nat.mod_eq_of_lt hend
  have he : roundDown (range.base + range.len) = 2 ^ 64 - pageSize := by
    rw [roundDown_eq hend]; unfold roundDownPage pageSize at *; omega
  have heq : e820SanitizeRange phys range kmemEnd =
      (if 2 ^ 64 - pageSize ≤ phys kmemEnd then some (-1, range)
      else some (0, { range with base := phys kmemEnd, len := 2 ^ 64 - pageSize - phys kmemEnd })) := by
    unfold e820SanitizeRange
    rw [if_neg (not_not.mpr hty), roundUp_of_top hbase (by omega), hw, he]
    simp only [ne_eq, hal, not_true_eq_false, if_false, ite_lt_eq_max, Nat.zero_max]
    rw [if_neg (by unfold pageSize; omega)]
    split_ifs with hk
    · rfl
    · rw [wsub_of_le (by omega) (by unfold pageSize; omega)]
  refine ⟨heq, fun r hr hs => ?_⟩
  rw [heq] at hr
  split_ifs at hr <;> cases hr
  · exact absurd ((hs.fail (show (-1 : ℤ) ≠ 0 by decide)).2.2.2.mpr (not_wholePageAbove_of_top 0 hbase hend))
      (by rw [hty]; decide)
  · exact not_wholePageAbove_of_top _ hbase hend (hs.ok_iff.mp rfl)

/-- The last byte of the address space, an empty range, becomes the available
range `[0, 2^64 - 4096)`. -/
theorem e820SanitizeRange_last_byte :
    2 ^ 64 - pageSize < 2 ^ 64 - 1 ∧
      e820SanitizeRange id ⟨2 ^ 64 - 1, 0, e820Avail⟩ 0 =
        some (0, ⟨0, 2 ^ 64 - pageSize, e820Avail⟩) ∧
      ¬Sanitized ⟨2 ^ 64 - 1, 0, e820Avail⟩ 0 (0, ⟨0, 2 ^ 64 - pageSize, e820Avail⟩) := by
  have h := @e820SanitizeRange_top_page id ⟨2 ^ 64 - 1, 0, e820Avail⟩ 0 rfl (by decide)
    (by decide) rfl
  have h₀ : e820SanitizeRange id ⟨2 ^ 64 - 1, 0, e820Avail⟩ 0 =
      some (0, ⟨0, 2 ^ 64 - pageSize, e820Avail⟩) := by
    rw [h.1]; rfl
  exact ⟨by decide, h₀, h.2 _ h₀⟩

end Sanitize

/-! ## The E820h structure in memory -/

/-- `E820_INIT_SIG`, `'C' 'U' 'T' 'E'`. -/
def e820InitSig : ℕ := 0x43555445

/-- `E820_VALID_SIG`, `'V' 'A' 'L' 'D'`. -/
def e820ValidSig : ℕ := 0x56414C44

/-- `E820_END`. -/
def e820End : ℕ := 0xffffffff

/-- `E820_SUCCESS`. -/
def e820Success : ℕ := 0x0

/-- The `uint32_t` at `a`, little-endian. -/
def read32 (mem : ℕ → UInt8) (a : ℕ) : ℕ :=
  (mem a).toNat + 2 ^ 8 * (mem (a + 1)).toNat + 2 ^ 16 * (mem (a + 2)).toNat +
    2 ^ 24 * (mem (a + 3)).toNat

/-- The `uint64_t` at `a`. -/
def read64 (mem : ℕ → UInt8) (a : ℕ) : ℕ := read32 mem a + 2 ^ 32 * read32 mem (a + 4)

/-- Storing the `uint32_t` `v` at `a`. -/
def write32 (mem : ℕ → UInt8) (a v : ℕ) : ℕ → UInt8 := fun x =>
  if a ≤ x ∧ x < a + 4 then UInt8.ofNat (v >>> (8 * (x - a))) else mem x

/-- The packed `struct e820_range` at `a`. -/
def rangeAt (mem : ℕ → UInt8) (a : ℕ) : E820Range :=
  ⟨read64 mem a, read64 mem (a + 8), read32 mem (a + 16)⟩

/-- `e820_checksum(base, len)` for `len ≥ 0`: the `uint32_t` sum of `len` bytes. -/
def e820Checksum (mem : ℕ → UInt8) (p len : ℕ) : ℕ :=
  (List.range len).foldl (fun sum i => (sum + (mem (p + i)).toNat) % 2 ^ 32) 0

/-- A store of a word changes nothing past it. -/
@[simp] theorem write32_of_le {mem : ℕ → UInt8} {a v x : ℕ} (h : a + 4 ≤ x) :
    write32 mem a v x = mem x := if_neg (by omega)

section Agree

variable {mem mem₂ : ℕ → UInt8} {w : ℕ}

/-- A word read above `w` sees only memory above `w`. -/
theorem read32_congr (h : ∀ x, w ≤ x → mem₂ x = mem x) {a : ℕ} (ha : w ≤ a) :
    read32 mem₂ a = read32 mem a := by
  simp only [read32, h a ha, h (a + 1) (by omega), h (a + 2) (by omega), h (a + 3) (by omega)]

/-- A range read above `w` sees only memory above `w`. -/
theorem rangeAt_congr (h : ∀ x, w ≤ x → mem₂ x = mem x) {a : ℕ} (ha : w ≤ a) :
    rangeAt mem₂ a = rangeAt mem a := by
  simp (disch := omega) only [rangeAt, read64, read32_congr h]

end Agree

/-! ## Validating the structure -/

/-- The `while` loop of `validate_e820h_struct`, from the length word at
`entry`: the ranges it prints, in order, and the address of `E820_END`. A
`panic` and a loop that outlasts its fuel give `none`. -/
def validateLoop (mem : ℕ → UInt8) (e820Max : ℕ) : ℕ → ℕ → Option (List ℕ × ℕ)
  | 0, _ => none
  | fuel + 1, entry =>
    if read32 mem entry = e820End then some ([], entry)
    else if e820Max ≤ entry then none
    else (validateLoop mem e820Max fuel (entry + 4 + read32 mem entry)).map
      fun r => ((entry + 4) :: r.1, r.2)

/-- `validate_e820h_struct()` on the buffer at `E820_BASE`: the ranges its loop
visits and the memory after it marks the buffer valid. The checksum length is
the pointer difference converted to `int`; a negative one never ends the
checksum loop and gives `none`. -/
def validateE820hStruct (mem : ℕ → UInt8) (e820Base e820Max fuel : ℕ) :
    Option (List ℕ × (ℕ → UInt8)) :=
  if read32 mem e820Base ≠ e820InitSig then none
  else
    match validateLoop mem e820Max fuel (e820Base + 4) with
    | none => none
    | some (rs, entry) =>
      let entry := entry + 4
      if read32 mem entry ≠ e820Success then none
      else
        let entry := entry + 4
        let len := (entry - e820Base) % 2 ^ 32
        if 2 ^ 31 ≤ len ∨ e820Checksum mem e820Base len ≠ read32 mem entry then none
        else if e820Max < entry + 4 then none
        else some (rs, write32 mem e820Base e820ValidSig)

/-- A validated buffer was walked by the loop, and only its signature changed. -/
theorem validateE820hStruct_some {mem mem' : ℕ → UInt8} {e820Base e820Max fuel : ℕ}
    {rs : List ℕ} (hv : validateE820hStruct mem e820Base e820Max fuel = some (rs, mem')) :
    ∃ e, validateLoop mem e820Max fuel (e820Base + 4) = some (rs, e) ∧
      mem' = write32 mem e820Base e820ValidSig := by
  unfold validateE820hStruct at hv
  split_ifs at hv
  split at hv
  · cases hv
  · rename_i e hl
    dsimp only at hv
    split_ifs at hv
    cases hv
    exact ⟨e, hl, rfl⟩

/-- The validator visits at most one range per word of the buffer. -/
theorem length_validateLoop {mem : ℕ → UInt8} {e820Max fuel entry e : ℕ} {rs : List ℕ}
    (hv : validateLoop mem e820Max fuel entry = some (rs, e)) :
    4 * rs.length ≤ e820Max + 4 - entry := by
  induction fuel generalizing entry rs with
  | zero => cases hv
  | succ fuel ih =>
    rw [validateLoop] at hv
    split_ifs at hv with hend hmax
    · cases hv
      simp
    · obtain ⟨⟨rs', e'⟩, hv', hrs⟩ := Option.map_eq_some'.mp hv
      cases hrs
      have := ih hv'
      simp only [List.length_cons]
      omega

/-! ## Walking the validated structure -/

section ForEach

variable {σ : Type} (body : σ → ℕ → σ)

/-- The `for` loop of `e820_for_each(range)`, from the state after an
increment: `entry` points past the length word and `entryLen` holds it. The
body is the loop body's effect on its locals, given `range`; it does not
write the buffer. -/
def forEachLoop (mem : ℕ → UInt8) : ℕ → ℕ → ℕ → σ → Option σ
  | 0, _, _, _ => none
  | fuel + 1, entry, entryLen, acc =>
    if read32 mem (entry - 4) = e820End then some acc
    else forEachLoop mem fuel (entry + entryLen + 4) (read32 mem (entry + entryLen))
      (body acc entry)

/-- `e820_for_each(range)` with the given body. -/
def e820ForEach (mem : ℕ → UInt8) (e820Base fuel : ℕ) (acc : σ) : Option σ :=
  forEachLoop body mem fuel (e820Base + 8) (read32 mem (e820Base + 4)) acc

/-- **`e820_for_each` retraces the validator's walk.** On any memory that
agrees with the validated one from the length word at `entry` on, the loop
ends within one step more than the ranges the validator visited, and runs its
body once on each of them, in order. -/
theorem forEachLoop_of_validateLoop {mem mem₂ : ℕ → UInt8} {e820Max fuel entry e : ℕ}
    {rs : List ℕ} (hv : validateLoop mem e820Max fuel entry = some (rs, e))
    (hmem : ∀ x, entry ≤ x → mem₂ x = mem x) (acc : σ) {n : ℕ} (hn : rs.length < n) :
    forEachLoop body mem₂ n (entry + 4) (read32 mem₂ entry) acc = some (rs.foldl body acc) := by
  induction fuel generalizing entry rs acc n with
  | zero => cases hv
  | succ fuel ih =>
    obtain ⟨n, rfl⟩ : ∃ m, n = m + 1 := ⟨n - 1, by omega⟩
    have hr := read32_congr hmem le_rfl
    rw [validateLoop] at hv
    rw [forEachLoop, Nat.add_sub_cancel, hr]
    split_ifs at hv with hend hmax
    · cases hv
      simp [hend]
    · obtain ⟨⟨rs', e'⟩, hv', hrs⟩ := Option.map_eq_some'.mp hv
      cases hrs
      rw [if_neg hend]
      exact ih hv' (fun x hx => hmem x (by omega)) _ (by simpa using hn)

end ForEach

/-! ## Building the memory setup -/

/-- `struct e820_setup`. -/
structure E820Setup where
  valid : ℤ
  availPages : ℕ
  availRanges : ℕ
  physAddrEnd : ℕ
  deriving DecidableEq, Repr

/-- The locals `avail_len`, `avail_ranges` and `phys_end` of
`build_memory_setup`. -/
structure BuildAcc where
  availLen : ℕ
  availRanges : ℕ
  physEnd : ℕ
  deriving DecidableEq, Repr

/-- The body of `build_memory_setup`'s loop, on the range at `a`. -/
def buildStep (mem : ℕ → UInt8) (acc : BuildAcc) (a : ℕ) : BuildAcc :=
  let range := rangeAt mem a
  if range.type ≠ e820Avail then acc
  else
    let endAddr := wadd range.base range.len
    { availLen := wadd acc.availLen range.len,
      availRanges := wadd acc.availRanges 1,
      physEnd := if endAddr > acc.physEnd then endAddr else acc.physEnd }

/-- `build_memory_setup()`, from the `memory_setup` it finds. -/
def buildMemorySetup (setup : E820Setup) (mem : ℕ → UInt8) (e820Base fuel : ℕ) :
    Option E820Setup :=
  if setup.valid ≠ 0 then none
  else (e820ForEach (buildStep mem) mem e820Base fuel ⟨0, 0, 0⟩).map fun acc =>
    { valid := 1, availPages := acc.availLen / pageSize, availRanges := acc.availRanges,
      physAddrEnd := acc.physEnd }

/-- The addresses among `rs` of `E820_AVAIL` ranges. -/
def availEntries (mem : ℕ → UInt8) (rs : List ℕ) : List ℕ :=
  rs.filter fun a => (rangeAt mem a).type = e820Avail

/-- The loop body, run over `rs`, sums the available lengths and counts the
available ranges modulo `2^64`, and takes the largest end. -/
theorem foldl_buildStep (mem : ℕ → UInt8) (rs : List ℕ) {acc : BuildAcc}
    (hl : acc.availLen < 2 ^ 64) (hr : acc.availRanges < 2 ^ 64) :
    rs.foldl (buildStep mem) acc =
      { availLen := (acc.availLen + ((availEntries mem rs).map fun a => (rangeAt mem a).len).sum) %
          2 ^ 64,
        availRanges := (acc.availRanges + (availEntries mem rs).length) % 2 ^ 64,
        physEnd := ((availEntries mem rs).map fun a =>
          wadd (rangeAt mem a).base (rangeAt mem a).len).foldl max acc.physEnd } := by
  induction rs generalizing acc with
  | nil =>
    simp only [availEntries, List.filter_nil, List.map_nil, List.sum_nil, List.length_nil,
      List.foldl_nil, Nat.add_zero, Nat.mod_eq_of_lt hl, Nat.mod_eq_of_lt hr]
  | cons a rs ih =>
    rw [List.foldl_cons]
    by_cases ha : (rangeAt mem a).type = e820Avail
    · have hstep : buildStep mem acc a =
          { availLen := wadd acc.availLen (rangeAt mem a).len,
            availRanges := wadd acc.availRanges 1,
            physEnd := max acc.physEnd (wadd (rangeAt mem a).base (rangeAt mem a).len) } := by
        simp only [buildStep, ha, ne_eq, not_true_eq_false, if_false, gt_iff_lt, ite_lt_eq_max]
      rw [hstep, ih (Nat.mod_lt _ (Nat.two_pow_pos 64)) (Nat.mod_lt _ (Nat.two_pow_pos 64))]
      simp only [availEntries, List.filter_cons, ha, decide_True, if_true, List.map_cons,
        List.sum_cons, List.length_cons, List.foldl_cons, wadd, Nat.mod_add_mod, Nat.add_assoc,
        Nat.add_comm 1]
    · have hstep : buildStep mem acc a = acc := by simp [buildStep, ha]
      rw [hstep, ih hl hr]
      simp [availEntries, List.filter_cons, ha]

/-- **On a validated buffer, `build_memory_setup` counts and measures the
ranges the validator visited.** Given one step of fuel more than there are
ranges, `e820_for_each` ends and runs its body once on each visited range, in
order, although the signature now reads `E820_VALID_SIG`; `avail_ranges` is the
number of available ranges and `phys_addr_end` the largest `base + len` among
them. -/
theorem buildMemorySetup_of_validate {mem mem' : ℕ → UInt8} {e820Base e820Max fuel : ℕ}
    {rs : List ℕ} (hv : validateE820hStruct mem e820Base e820Max fuel = some (rs, mem'))
    (hmax : e820Max < 2 ^ 64) (setup : E820Setup) (hsetup : setup.valid = 0) {n : ℕ}
    (hn : rs.length < n) :
    (∀ {σ : Type} (body : σ → ℕ → σ) (acc : σ),
      e820ForEach body mem' e820Base n acc = some (rs.foldl body acc)) ∧
    buildMemorySetup setup mem' e820Base n = some
      { valid := 1,
        availPages :=
          ((availEntries mem' rs).map fun a => (rangeAt mem' a).len).sum % 2 ^ 64 / pageSize,
        availRanges := (availEntries mem' rs).length,
        physAddrEnd := ((availEntries mem' rs).map fun a =>
          wadd (rangeAt mem' a).base (rangeAt mem' a).len).foldl max 0 } := by
  obtain ⟨e, hl, rfl⟩ := validateE820hStruct_some hv
  -- the validator only rewrote the signature, below the ranges the loop reads
  have hfor : ∀ {σ : Type} (body : σ → ℕ → σ) (acc : σ),
      e820ForEach body (write32 mem e820Base e820ValidSig) e820Base n acc =
        some (rs.foldl body acc) :=
    fun body acc => forEachLoop_of_validateLoop body hl (fun _ hx => write32_of_le hx) acc hn
  have hcount : (availEntries (write32 mem e820Base e820ValidSig) rs).length < 2 ^ 64 :=
    (List.length_filter_le _ rs).trans_lt (by have := length_validateLoop hl; omega)
  refine ⟨hfor, ?_⟩
  rw [buildMemorySetup, if_neg (by simp [hsetup]), hfor,
    foldl_buildStep _ _ (Nat.two_pow_pos 64) (Nat.two_pow_pos 64)]
  simp only [Nat.zero_add, Nat.mod_eq_of_lt hcount, Option.map_some']

/-- A buffer as the real-mode code leaves it at `0x1000`: the start signature,
the available range `[0, 0x9fc00)`, the reserved range `[0x9fc00, 0xa0000)`,
the end mark, `E820_SUCCESS` and the checksum. -/
def twoRangeBuffer : ℕ → UInt8 := fun a =>
  [0x45, 0x54, 0x55, 0x43, 20, 0, 0, 0,
    0, 0, 0, 0, 0, 0, 0, 0,
    0x00, 0xfc, 0x09, 0, 0, 0, 0, 0,
    1, 0, 0, 0, 20, 0, 0, 0,
    0x00, 0xfc, 0x09, 0, 0, 0, 0, 0,
    0x00, 0x04, 0, 0, 0, 0, 0, 0,
    2, 0, 0, 0,
    0xff, 0xff, 0xff, 0xff,
    0, 0, 0, 0,
    0x66, 0x07, 0, 0].getD (a - 0x1000) 0

/-- The two-range buffer validates, and the setup counts the 159 pages of its
available range only. -/
theorem buildMemorySetup_two_ranges :
    validateE820hStruct twoRangeBuffer 0x1000 0x2000 3 =
        some ([0x1008, 0x1020], write32 twoRangeBuffer 0x1000 e820ValidSig) ∧
      buildMemorySetup ⟨0, 0, 0, 0⟩ (write32 twoRangeBuffer 0x1000 e820ValidSig) 0x1000 3 =
        some ⟨1, 0x9f, 1, 0x9fc00⟩ := by
  have hv : validateE820hStruct twoRangeBuffer 0x1000 0x2000 3 =
      some ([0x1008, 0x1020], write32 twoRangeBuffer 0x1000 e820ValidSig) := rfl
  exact ⟨hv, (buildMemorySetup_of_validate hv (by decide) ⟨0, 0, 0, 0⟩ rfl (by decide)).2.trans
    (by decide)⟩

end E820

end Mcube
