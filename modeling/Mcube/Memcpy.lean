import Mcube.VmMap

/-!
# The forward copy

`memcpy_forward(dst, src, len)` in the kernel's string library copies with
two string instructions: `rep movsb` for the `len & 7` bytes of the head,
then `rep movsq` for the `len >> 3` quadwords after it, both going up from
where the other stopped (the AMD64 ABI guarantees `DF = 0`). Before that it
`panic`s on a bad overlap, `(udst + 8 > usrc) && (usrc + len > udst)`, in
`uintptr_t` arithmetic. `memcpy_forward_nocheck` and `memcpy_nocheck` are the
copy alone.

What a copy is for is a single move of the `len` source bytes, as they were,
to the destination (`moveBlock len`). A `movs` of width `w` is a move of `w`
bytes (`movsb` of 1, `movsq` of 8: the quadword is loaded before it is
stored), and the two `rep` loops are moves of a block
after the block already moved. Such a move reads no byte the moves before
it wrote, when the source does not lie below the destination or lies wholly
below it, and then the moves add up to the one move of the whole
(`moveBlock_append`). The check of `memcpy_forward` lets through exactly the
copies of that kind, as long as neither `udst + 8` nor `usrc + len` wraps
past `2^64` (`memcpyForward_eq`).

Memory is a byte per address, and `%rdi` and `%rsi` go up by the natural
numbers: a copy that would run past `2^64` is not modelled.
-/

namespace Mcube

namespace Memcpy

open VmMap (Fault wadd)

/-! ## The string instructions -/

/-- A move of `w` bytes from `src` to `dst`: all `w` are read from `mem`,
then written. `movsb` is the move of 1 byte from `%rsi` to `%rdi`, and
`movsq` that of 8, the quadword being loaded before it is stored. -/
def moveBlock (w : ℕ) (mem : ℕ → UInt8) (dst src : ℕ) : ℕ → UInt8 :=
  fun a => if dst ≤ a ∧ a < dst + w then mem (src + (a - dst)) else mem a

/-- `rep movs` of width `w` with `%rcx = n`: `n` moves, each advancing
`%rdi` and `%rsi` by `w`; `rep movsb` is `repMovs 1` and `rep movsq` is
`repMovs 8`. -/
def repMovs (w : ℕ) : ℕ → (ℕ → UInt8) → ℕ → ℕ → ℕ → UInt8
  | 0, mem, _, _ => mem
  | n + 1, mem, dst, src => repMovs w n (moveBlock w mem dst src) (dst + w) (src + w)

/-- `__memcpy_forward(dst, src, len)`: `rep movsb` with `%rcx = len & 7`,
then `rep movsq` with `%rcx = len >> 3` from where it stopped; it returns
`dst`. `memcpy_forward_nocheck` and `memcpy_nocheck` are this copy. -/
def memcpyForwardAsm (mem : ℕ → UInt8) (dst src len : ℕ) : (ℕ → UInt8) × ℕ :=
  (repMovs 8 (len >>> 3) (repMovs 1 (len &&& 7) mem dst src) (dst + (len &&& 7))
    (src + (len &&& 7)), dst)

/-- `memcpy_forward(dst, src, len)`. -/
def memcpyForward (mem : ℕ → UInt8) (dst src len : ℕ) : Except Fault ((ℕ → UInt8) × ℕ) :=
  let badOverlap := decide (wadd dst 8 > src) && decide (wadd src len > dst)
  if badOverlap then
    throw (.panic "%s: badly-overlapped regions, src=0x%lx, dst=0x%lx, len=0x%lx")
  else pure (memcpyForwardAsm mem dst src len)

/-! ## Moves add up -/

/-- The source `[src, src + len)` does not lie below the destination, or
lies wholly below it: a forward copy then reads no byte it wrote. -/
def ForwardSafe (dst src len : ℕ) : Prop := dst ≤ src ∨ src + len ≤ dst

theorem ForwardSafe.mono {dst src len len' : ℕ} (h : ForwardSafe dst src len) (hle : len' ≤ len) :
    ForwardSafe dst src len' := by
  unfold ForwardSafe at *; omega

@[simp] theorem moveBlock_zero (mem : ℕ → UInt8) (dst src : ℕ) : moveBlock 0 mem dst src = mem := by
  funext a
  simp only [moveBlock, Nat.add_zero]
  exact if_neg (by omega)

/-- **A move after a move.** Moving `w` more bytes after the first `k`,
when the copy is forward-safe, is moving the `k + w` bytes at once: the
bytes the second move reads are not among those the first wrote. -/
theorem moveBlock_append {mem : ℕ → UInt8} {dst src k w : ℕ} (h : ForwardSafe dst src (k + w)) :
    moveBlock w (moveBlock k mem dst src) (dst + k) (src + k) = moveBlock (k + w) mem dst src := by
  funext a
  unfold ForwardSafe at h
  simp only [moveBlock]
  by_cases ha : dst + k ≤ a ∧ a < dst + k + w
  · have hr : ¬(dst ≤ src + k + (a - (dst + k)) ∧ src + k + (a - (dst + k)) < dst + k) := by omega
    rw [if_pos ha, if_neg hr, if_pos (by omega)]
    congr 1
    omega
  · rw [if_neg ha]
    by_cases hb : dst ≤ a ∧ a < dst + k
    · rw [if_pos hb, if_pos (by omega)]
    · rw [if_neg hb, if_neg (by omega)]

/-- **A `rep movs` after a move** moves `w * n` more bytes. -/
theorem repMovs_moveBlock {w : ℕ} (n : ℕ) {mem : ℕ → UInt8} {dst src k : ℕ}
    (h : ForwardSafe dst src (k + w * n)) :
    repMovs w n (moveBlock k mem dst src) (dst + k) (src + k) = moveBlock (k + w * n) mem dst src := by
  induction n generalizing k with
  | zero => rfl
  | succ n ih =>
    have hk : k + w + w * n = k + w * (n + 1) := by rw [Nat.mul_succ]; omega
    rw [repMovs, moveBlock_append (h.mono (by rw [Nat.mul_succ]; omega)), Nat.add_assoc dst,
      Nat.add_assoc src, ih (by rwa [hk]), hk]

/-- `len` is its `len & 7` head bytes and its `len >> 3` quadwords. -/
theorem and_seven_add_shiftRight_three (len : ℕ) : (len &&& 7) + 8 * (len >>> 3) = len := by
  rw [show len &&& 7 = len % 2 ^ 3 from Nat.and_pow_two_sub_one_eq_mod len 3,
    Nat.shiftRight_eq_div_pow]
  exact Nat.mod_add_div len (2 ^ 3)

/-- **The two `rep` loops are one move of the `len` bytes**, when the copy
is forward-safe. -/
theorem memcpyForwardAsm_eq {mem : ℕ → UInt8} {dst src len : ℕ} (h : ForwardSafe dst src len) :
    memcpyForwardAsm mem dst src len = (moveBlock len mem dst src, dst) := by
  have hlen := and_seven_add_shiftRight_three len
  have hb : repMovs 1 (len &&& 7) mem dst src = moveBlock (len &&& 7) mem dst src := by
    have := @repMovs_moveBlock 1 (len &&& 7) mem dst src 0 (h.mono (by omega))
    simpa only [moveBlock_zero, Nat.add_zero, Nat.zero_add, Nat.one_mul] using this
  rw [memcpyForwardAsm, hb, repMovs_moveBlock _ (by rwa [hlen]), hlen]

end Memcpy

end Mcube
