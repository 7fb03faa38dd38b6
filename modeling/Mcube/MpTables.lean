import Mcube.E820

/-!
# Searching for the MP floating pointer

`search_for_mpf(base, len)` in `arch/x86_64/mptables.c` walks `len` bytes
from `base` in steps of `sizeof(struct mpf_struct)` and returns the first
candidate that passes the signature, length, version and checksum tests, or
`NULL`. Its loop decrements a `uint32_t`:

    for (; len > 0; mpf += 1, len -= sizeof(*mpf))
      if (len < sizeof(*mpf)) continue;

When `len` is a multiple of the structure size, `len` reaches 0 and the search
is the first passing candidate inside the range (`searchForMpf_of_dvd`). Such
are the only lengths the program passes: the function is `static`, and its
one caller `get_mpf` searches `0x400` and `0x10000` bytes. Called directly with
another length, the last short tail only `continue`s: `len` wraps to
`2^32 - 16 + (len % 16)`, keeps its residue modulo 16 forever, and never
reaches 0. The loop then runs on past the range, and on memory with no
passing candidate it never returns (`searchForMpf_diverges`).

`struct mpf_struct` and `MPF_SIGNATURE` are declared in `mptables.h`, which is
not among the sources. The model takes the MP floating pointer of the
MultiProcessor Specification that the file cites: 16 bytes, the signature
`"_MP_"` as a `uint32_t` at offset 0, `length` at 8 and `version` at 9.
Memory is a byte per address and addresses are natural numbers.
-/

namespace Mcube

namespace MpTables

open E820 (read32)

/-- `sizeof(struct mpf_struct)`. -/
def mpfSize : ℕ := 16

/-- `MPF_SIGNATURE`: `"_MP_"` read as a little-endian `uint32_t`. -/
def mpfSignature : ℕ := 0x5f504d5f

/-- `mpf_checksum(mp, len)`: the `uint8_t` sum of `len` bytes. -/
def mpfChecksum (mem : ℕ → UInt8) (mp len : ℕ) : ℕ :=
  (List.range len).foldl (fun sum i => (sum + (mem (mp + i)).toNat) % 2 ^ 8) 0

/-- The tests `search_for_mpf` makes of the candidate at `mpf`. -/
def mpfValid (mem : ℕ → UInt8) (mpf : ℕ) : Bool :=
  decide (read32 mem mpf = mpfSignature ∧ (mem (mpf + 8)).toNat = 0x01 ∧
    ((mem (mpf + 9)).toNat = 0x01 ∨ (mem (mpf + 9)).toNat = 0x04) ∧
    mpfChecksum mem mpf mpfSize = 0)

/-- The `for` loop of `search_for_mpf` from the candidate `mpf` with `len`
bytes left: `some none` is `NULL`, `some (some a)` the pointer returned, and
`none` a loop that outlasts its fuel. -/
def searchLoop (mem : ℕ → UInt8) : ℕ → ℕ → ℕ → Option (Option ℕ)
  | 0, _, _ => none
  | fuel + 1, mpf, len =>
    if len = 0 then some none
    else
      let next := searchLoop mem fuel (mpf + mpfSize) ((len + 2 ^ 32 - mpfSize) % 2 ^ 32)
      if len < mpfSize then next
      else if mpfValid mem mpf then some (some mpf) else next

/-- `search_for_mpf(base, len)`. -/
def searchForMpf (mem : ℕ → UInt8) (base len fuel : ℕ) : Option (Option ℕ) :=
  searchLoop mem fuel base len

/-- The decrement of `len` keeps its residue modulo the structure size. -/
theorem sub_mpfSize_mod (len : ℕ) :
    (len + 2 ^ 32 - mpfSize) % 2 ^ 32 % mpfSize = len % mpfSize := by
  unfold mpfSize
  omega

/-- **Called directly with a length that is not a multiple of 16, the search
never ends.** On memory with no passing candidate at `base + 16 k`, no fuel is
enough: `len` never reaches 0, and the loop examines candidates past
`base + len` for ever. `get_mpf`, the one caller, passes no such length. -/
theorem searchForMpf_diverges (mem : ℕ → UInt8) (base len : ℕ) (hlen : len % mpfSize ≠ 0)
    (hnone : ∀ k, mpfValid mem (base + mpfSize * k) = false) (fuel : ℕ) :
    searchForMpf mem base len fuel = none := by
  suffices h : ∀ fuel k len, len % mpfSize ≠ 0 → searchLoop mem fuel (base + mpfSize * k) len = none
    from by simpa using h fuel 0 len hlen
  intro fuel
  induction fuel with
  | zero => intro _ _ _; rfl
  | succ fuel ih =>
    intro k len hlen
    have hnext := ih (k + 1) _ (by rwa [sub_mpfSize_mod])
    rw [Nat.mul_succ, ← Nat.add_assoc] at hnext
    rw [searchLoop, if_neg fun h => hlen (by rw [h, Nat.zero_mod])]
    simp only [hnone k, Bool.false_eq_true, if_false, ite_self, hnext]

/-- The candidates of a range of `n` structures. -/
def candidates (base n : ℕ) : List ℕ := (List.range n).map fun k => base + mpfSize * k

theorem candidates_succ (base n : ℕ) :
    candidates base (n + 1) = base :: candidates (base + mpfSize) n := by
  simp only [candidates, List.range_succ_eq_map, List.map_cons, List.map_map, Nat.mul_zero,
    Nat.add_zero, List.cons.injEq, true_and]
  exact List.map_congr_left fun k _ => by simp only [Function.comp_apply, Nat.mul_succ]; omega

/-- For a multiple of 16, the search is the first passing candidate of the
range, once the fuel exceeds the number of candidates. -/
theorem searchForMpf_eq_find (mem : ℕ → UInt8) (base n fuel : ℕ) (hlt : mpfSize * n < 2 ^ 32)
    (hfuel : n < fuel) :
    searchForMpf mem base (mpfSize * n) fuel = some ((candidates base n).find? (mpfValid mem)) := by
  induction n generalizing base fuel with
  | zero =>
    obtain ⟨f, rfl⟩ : ∃ f, fuel = f + 1 := ⟨fuel - 1, by omega⟩
    simp [searchForMpf, searchLoop, candidates]
  | succ n ih =>
    obtain ⟨f, rfl⟩ : ∃ f, fuel = f + 1 := ⟨fuel - 1, by omega⟩
    have hlen : (mpfSize * (n + 1) + 2 ^ 32 - mpfSize) % 2 ^ 32 = mpfSize * n := by
      unfold mpfSize at *
      omega
    have hnext := ih (base + mpfSize) f (by omega) (by omega)
    unfold searchForMpf at hnext ⊢
    rw [searchLoop, if_neg (by unfold mpfSize; omega), candidates_succ]
    simp only [hlen, hnext, if_neg (show ¬mpfSize * (n + 1) < mpfSize by unfold mpfSize; omega),
      List.find?_cons]
    cases mpfValid mem base <;> rfl

end MpTables

end Mcube
