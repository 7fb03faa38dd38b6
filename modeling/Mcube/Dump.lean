import Mathlib.Data.List.Basic
import Mathlib.Algebra.Group.Nat.Basic
import Mathlib.Algebra.BigOperators.Group.List

/-!
# Memory dumps

`dump_memory(buf, bufsize, mem, memsize, style)` in `arch/x86/dump.c` writes a
hex dump of the `memsize` bytes at `mem` into `buf`: one row per 16 bytes,
each the offset or address column (by `style`), sixteen hex pairs in groups
of four, a gutter, the sixteen bytes as ASCII split after eight, and a
newline. Every piece of a row is written only when it fits before the last
byte of the buffer, `b + w < bt`, and `b` moves past it whether or not it was
written (`Emits`). So the loop reads only bytes below `mem + memsize`, and
stores only below `buf + bufsize - 1` (`dumpLoop_emits`).

Two things go wrong when the dump does not fit. The loop stops after the
first row that ends past the buffer, so the call returns `W * ⌈bufsize / W⌉`
and not the length `W * ⌈memsize / 16⌉` of the whole dump. And the
terminating NUL is stored at `b[bufsize - 1]` with `b` already past the end
of the buffer: it lands outside it, and `buf[bufsize - 1]` is never written
(`dumpMemory_short`). When the dump fits, the buffer holds it, followed by a
NUL (`dumpMemory_fits`).

The buffer and the memory are modelled by offsets from `buf` and `mem`: a run
records its stores and its loads, in order (`DumpState`); `(uint64_t)mem` is
a parameter, read only by the address column. `enum dumpstyle` is not among
the sources: its three values are modelled as `DumpStyle`.
-/

namespace Mcube

namespace Dump

/-- `enum dumpstyle`: no column, the offset column, or the address column. -/
inductive DumpStyle
  | noaddr
  | offset
  | addr
  deriving DecidableEq, Repr

/-- `digit[]`, the hexadecimal digits. -/
def digits : List Char := "0123456789abcdef".toList

/-- `digit[x]`. -/
def digit (x : ℕ) : Char := digits.getD x '0'

/-- The tick that separates the halves of an address. -/
def tick : Char := Char.ofNat 0x60

/-- The NUL character. -/
def nul : Char := Char.ofNat 0

/-- What a call of `dump_memory` has done so far. -/
structure DumpState where
  /-- `b - buf`. -/
  b : ℕ
  /-- The stores into the buffer, by offset from `buf`, in order. -/
  stores : List (ℕ × Char)
  /-- The bytes of `mem` read, by offset from `mem`, in order. -/
  loads : List ℕ
  deriving DecidableEq, Repr

namespace DumpState

/-- `b[i] = c`. -/
def store (i : ℕ) (c : Char) (s : DumpState) : DumpState :=
  { s with stores := s.stores ++ [(s.b + i, c)] }

/-- A read of `m[j]`, at offset `x` from `mem`. -/
def load (x : ℕ) (s : DumpState) : DumpState :=
  { s with loads := s.loads ++ [x] }

/-- `b += n`. -/
def skip (n : ℕ) (s : DumpState) : DumpState :=
  { s with b := s.b + n }

@[simp] theorem store_b (i : ℕ) (c : Char) (s : DumpState) : (s.store i c).b = s.b := rfl
@[simp] theorem store_loads (i : ℕ) (c : Char) (s : DumpState) :
    (s.store i c).loads = s.loads := rfl
@[simp] theorem store_stores (i : ℕ) (c : Char) (s : DumpState) :
    (s.store i c).stores = s.stores ++ [(s.b + i, c)] := rfl
@[simp] theorem load_b (x : ℕ) (s : DumpState) : (s.load x).b = s.b := rfl
@[simp] theorem load_stores (x : ℕ) (s : DumpState) : (s.load x).stores = s.stores := rfl
@[simp] theorem load_loads (x : ℕ) (s : DumpState) : (s.load x).loads = s.loads ++ [x] := rfl
@[simp] theorem skip_b (n : ℕ) (s : DumpState) : (s.skip n).b = s.b + n := rfl
@[simp] theorem skip_stores (n : ℕ) (s : DumpState) : (s.skip n).stores = s.stores := rfl
@[simp] theorem skip_loads (n : ℕ) (s : DumpState) : (s.skip n).loads = s.loads := rfl

end DumpState

open DumpState

/-! ## The code -/

section Code

variable (bt mt : ℕ) (mem : ℕ → UInt8)

/-- `for (int i = lo + n - 1; i >= lo; i--) { b[i] = digit[a & 0xf]; a >>= 4; }`,
returning what is left of `a`. -/
def hexDown (lo : ℕ) : ℕ → ℕ → DumpState → DumpState × ℕ
  | 0, a, s => (s, a)
  | n + 1, a, s => hexDown lo n (a >>> 4) (s.store (lo + n) (digit (a &&& 0xf)))

/-- The offset column, for the offset `o = m - mem`. -/
def offsetColumn (o : ℕ) (s : DumpState) : DumpState :=
  (if s.b + 11 < bt then
    (((hexDown 0 8 o s).1.store 8 ':').store 10 ' ').store 9 ' '
  else s).skip 11

/-- The address column, for the address `a = (uint64_t)m`. -/
def addrColumn (a : ℕ) (s : DumpState) : DumpState :=
  (if s.b + 20 < bt then
    let low := hexDown 9 8 a s
    let high := hexDown 0 8 low.2 (low.1.store 8 tick)
    ((high.1.store 17 ':').store 19 ' ').store 18 ' '
  else s).skip 20

/-- `if (b + 1 < bt) *b = c; b++;` -/
def putChar (c : Char) (s : DumpState) : DumpState :=
  (if s.b + 1 < bt then s.store 0 c else s).skip 1

/-- One byte of the hex part, at offset `x = m + j` from `mem`. -/
def hexByte (x : ℕ) (s : DumpState) : DumpState :=
  (if s.b + 2 < bt then
    if x < mt then
      ((s.load x).store 0 (digit (mem x >>> 4).toNat)).store 1 (digit (mem x &&& 0xf).toNat)
    else (s.store 1 ' ').store 0 ' '
  else s).skip 2

/-- `(v < 32 || v > 126) ? '.' : (char)v`. -/
def asciiChar (v : UInt8) : Char := if v < 32 || v > 126 then '.' else Char.ofNat v.toNat

/-- One byte of the ASCII part, at offset `x = m + j` from `mem`. -/
def asciiByte (x : ℕ) (s : DumpState) : DumpState :=
  (if s.b + 1 < bt then
    if x < mt then (s.load x).store 0 (asciiChar (mem x)) else s.store 0 ' '
  else s).skip 1

/-- The column `style` asks for: `if (style == DUMPSTYLE_OFFSET) ... else if
(style == DUMPSTYLE_ADDR) ...`, for the row at offset `m`; `memAddr` is
`(uint64_t)mem`. -/
def dumpColumn (style : DumpStyle) (memAddr m : ℕ) (s : DumpState) : DumpState :=
  match style with
  | .offset => offsetColumn bt m s
  | .addr => addrColumn bt (memAddr + m) s
  | .noaddr => s

/-- A pass `j` of the hex loop of the row at `m`, with its gutter. -/
def hexStep (m : ℕ) (s : DumpState) (j : ℕ) : DumpState :=
  let s := hexByte bt mt mem (m + j) s
  if (j + 1) &&& 3 = 0 then putChar bt ' ' s else s

/-- A pass `j` of the ASCII loop of the row at `m`, with its gutter. -/
def asciiStep (m : ℕ) (s : DumpState) (j : ℕ) : DumpState :=
  let s := asciiByte bt mt mem (m + j) s
  if j = 7 then putChar bt ' ' s else s

/-- The body of the loop, for the row at offset `m` from `mem`. -/
def dumpRow (style : DumpStyle) (memAddr m : ℕ) (s : DumpState) : DumpState :=
  let s := dumpColumn bt style memAddr m s
  let s := (List.range 16).foldl (hexStep bt mt mem m) s
  let s := putChar bt ' ' s
  let s := (List.range 16).foldl (asciiStep bt mt mem m) s
  putChar bt '\n' s

/-- `while (b < bt && m < mt) { ...; m += 16; }`. -/
def dumpLoop (style : DumpStyle) (memAddr m : ℕ) (s : DumpState) : DumpState :=
  if s.b < bt ∧ m < mt then dumpLoop style memAddr (m + 16) (dumpRow bt mt mem style memAddr m s)
  else s
termination_by mt - m

end Code

/-- `(int)n`: the value of `n` as a 32-bit two's complement `int`. -/
def cInt (n : ℕ) : ℤ := ((n + 2 ^ 31) % 2 ^ 32 : ℕ) - 2 ^ 31

/-- `dump_memory(buf, bufsize, mem, memsize, style)`: what it returns, and the
run's stores and loads. -/
def dumpMemory (bufsize : ℕ) (mem : ℕ → UInt8) (memAddr memsize : ℕ) (style : DumpStyle) :
    ℤ × DumpState :=
  let s := dumpLoop bufsize memsize mem style memAddr 0 ⟨0, [], []⟩
  let s := if s.b < bufsize then s.store 0 nul
    else if bufsize > 0 then s.store (bufsize - 1) nul else s
  (cInt s.b, s)

/-! ## What a row shows -/

section Text

variable (mt : ℕ) (mem : ℕ → UInt8)

/-- The last `n` hexadecimal digits of `a`, most significant first. -/
def hexDigits : ℕ → ℕ → List Char
  | 0, _ => []
  | n + 1, a => hexDigits n (a >>> 4) ++ [digit (a &&& 0xf)]

/-- The offset column, the address column split by a tick, or nothing. -/
def columnText (style : DumpStyle) (memAddr m : ℕ) : List Char :=
  match style with
  | .noaddr => []
  | .offset => hexDigits 8 m ++ [':', ' ', ' ']
  | .addr => hexDigits 8 ((memAddr + m) >>> 32) ++ [tick] ++ hexDigits 8 (memAddr + m) ++
      [':', ' ', ' ']

/-- The byte at offset `x` as a hex pair, or blanks past the end. -/
def hexText (x : ℕ) : List Char :=
  if x < mt then [digit (mem x >>> 4).toNat, digit (mem x &&& 0xf).toNat] else [' ', ' ']

/-- The byte at offset `x` as a character, or a blank past the end. -/
def asciiText (x : ℕ) : List Char := [if x < mt then asciiChar (mem x) else ' ']

/-- **A row of the dump**: the column, sixteen hex pairs in groups of four each
followed by a blank, a blank, the sixteen characters split by a blank after
the eighth, and a newline. -/
def rowText (style : DumpStyle) (memAddr m : ℕ) : List Char :=
  columnText style memAddr m ++
    (List.range 16).flatMap (fun j => hexText mt mem (m + j) ++ if j % 4 = 3 then [' '] else []) ++
    [' '] ++
    (List.range 16).flatMap (fun j => asciiText mt mem (m + j) ++ if j = 7 then [' '] else []) ++
    ['\n']

/-- The `r` rows from offset `m`. -/
def rowsText (style : DumpStyle) (memAddr m r : ℕ) : List Char :=
  (List.range r).flatMap fun k => rowText mt mem style memAddr (m + 16 * k)

/-- **The whole dump** of the `memsize` bytes at `mem`. -/
def dumpText (memsize : ℕ) (style : DumpStyle) (memAddr : ℕ) : List Char :=
  rowsText memsize mem style memAddr 0 ((memsize + 15) / 16)

end Text

/-- `W`, the width of a row. -/
def rowWidth : DumpStyle → ℕ
  | .noaddr => 55
  | .offset => 66
  | .addr => 75

theorem length_hexDigits (n a : ℕ) : (hexDigits n a).length = n := by
  induction n generalizing a with
  | zero => rfl
  | succ n ih => simp [hexDigits, ih]

theorem length_rowText (mt : ℕ) (mem : ℕ → UInt8) (style : DumpStyle) (memAddr m : ℕ) :
    (rowText mt mem style memAddr m).length = rowWidth style := by
  have hhex : ∀ x, (hexText mt mem x).length = 2 := fun x => by unfold hexText; split <;> rfl
  have hgut : ∀ (c : Prop) [Decidable c], (if c then [' '] else []).length = if c then 1 else 0 :=
    fun c _ => by split <;> rfl
  have h₁ : ((List.range 16).map fun j => 2 + if j % 4 = 3 then 1 else 0).sum = 36 := by decide
  have h₂ : ((List.range 16).map fun j => 1 + if j = 7 then 1 else 0).sum = 17 := by decide
  cases style <;>
    simp only [rowText, columnText, List.length_append, List.length_flatMap, Function.comp_def, hhex,
      hgut, asciiText, List.length_singleton, length_hexDigits, rowWidth, h₁, h₂, List.length_nil,
      List.length_cons]

theorem rowsText_succ (mt : ℕ) (mem : ℕ → UInt8) (style : DumpStyle) (memAddr m r : ℕ) :
    rowsText mt mem style memAddr m (r + 1) =
      rowText mt mem style memAddr m ++ rowsText mt mem style memAddr (m + 16) r := by
  simp only [rowsText, List.range_succ_eq_map, List.flatMap_cons, List.flatMap_map]
  congr 2
  funext k
  rw [Nat.succ_eq_add_one, Nat.mul_succ, Nat.add_comm (16 * k), Nat.add_assoc]

/-! ## Pieces of the dump -/

/-- **The stores `new` put the text `cs` at `base`**: each is a character of
`cs` at its place, and every place is stored. -/
def Places (base : ℕ) (cs : List Char) (new : List (ℕ × Char)) : Prop :=
  (∀ p ∈ new, base ≤ p.1 ∧ cs[p.1 - base]? = some p.2) ∧ ∀ i < cs.length, ∃ c, (base + i, c) ∈ new

theorem places_nil (base : ℕ) : Places base [] [] := ⟨by simp, by simp⟩

theorem places_single (base : ℕ) (c : Char) : Places base [c] [(base, c)] :=
  ⟨by simp, fun i hi => ⟨c, by simp at hi; simp [hi]⟩⟩

/-- A character of the first text, or of the second placed after it, is the
character of their concatenation at the same place. -/
theorem placed_append {base : ℕ} {cs ds : List Char} {p : ℕ × Char}
    (h : base ≤ p.1 ∧ cs[p.1 - base]? = some p.2 ∨
      base + cs.length ≤ p.1 ∧ ds[p.1 - (base + cs.length)]? = some p.2) :
    base ≤ p.1 ∧ (cs ++ ds)[p.1 - base]? = some p.2 := by
  rcases h with ⟨hb, hc⟩ | ⟨hb, hc⟩
  · exact ⟨hb, by rw [List.getElem?_append_left (List.getElem?_eq_some_iff.1 hc).1, hc]⟩
  · refine ⟨by omega, ?_⟩
    rw [List.getElem?_append_right (by omega), ← hc]
    congr 1
    omega

/-- Texts placed one after the other, by stores made in any order. -/
theorem Places.append {base : ℕ} {cs ds : List Char} {n₁ n₂ n : List (ℕ × Char)}
    (h₁ : Places base cs n₁) (h₂ : Places (base + cs.length) ds n₂)
    (hn : ∀ p, p ∈ n ↔ p ∈ n₁ ∨ p ∈ n₂) : Places base (cs ++ ds) n := by
  refine ⟨fun p hp => placed_append (((hn p).1 hp).imp (h₁.1 p) (h₂.1 p)), fun i hi => ?_⟩
  by_cases hic : i < cs.length
  · obtain ⟨c, hc⟩ := h₁.2 i hic
    exact ⟨c, (hn _).2 (.inl hc)⟩
  · obtain ⟨c, hc⟩ := h₂.2 (i - cs.length) (by simp at hi; omega)
    refine ⟨c, (hn _).2 (.inr ?_)⟩
    rwa [show base + cs.length + (i - cs.length) = base + i by omega] at hc

/-- **A piece of the dump.** From `s` to `s'` the run moves `b` past the text
`cs`; every store it makes is a character of `cs` at its own place, inside
`buf[0, bt - 1)`; it stores all of `cs` when `cs` ends before `bt - 1`; and it
reads only bytes below `mt`. -/
structure Emits (bt mt : ℕ) (cs : List Char) (s s' : DumpState) : Prop where
  b : s'.b = s.b + cs.length
  stores : ∃ new, s'.stores = s.stores ++ new ∧
    (∀ p ∈ new, s.b ≤ p.1 ∧ cs[p.1 - s.b]? = some p.2 ∧ p.1 + 1 < bt) ∧
    (s.b + cs.length < bt → ∀ i < cs.length, ∃ c, (s.b + i, c) ∈ new)
  loads : ∃ new, s'.loads = s.loads ++ new ∧ ∀ x ∈ new, x < mt

section Emits

variable {bt mt : ℕ}

theorem Emits.nil (s : DumpState) : Emits bt mt [] s s :=
  ⟨rfl, ⟨[], by simp, by simp, by simp⟩, ⟨[], by simp, by simp⟩⟩

/-- **Pieces one after the other** emit their texts one after the other. -/
theorem Emits.append {cs ds : List Char} {s₁ s₂ s₃ : DumpState} (h₁ : Emits bt mt cs s₁ s₂)
    (h₂ : Emits bt mt ds s₂ s₃) : Emits bt mt (cs ++ ds) s₁ s₃ := by
  obtain ⟨hb₁, ⟨n₁, hs₁, hw₁, hf₁⟩, ⟨l₁, hl₁, hlt₁⟩⟩ := h₁
  obtain ⟨hb₂, ⟨n₂, hs₂, hw₂, hf₂⟩, ⟨l₂, hl₂, hlt₂⟩⟩ := h₂
  have hp : Places s₁.b cs n₁ → Places s₂.b ds n₂ → Places s₁.b (cs ++ ds) (n₁ ++ n₂) :=
    fun hc hd => hc.append (hb₁ ▸ hd) fun _ => List.mem_append
  refine ⟨by simp [hb₁, hb₂, Nat.add_assoc], ⟨n₁ ++ n₂, by simp [hs₁, hs₂], ?_, ?_⟩,
    ⟨l₁ ++ l₂, by simp [hl₁, hl₂], ?_⟩⟩
  · intro p hq
    rcases List.mem_append.1 hq with hq | hq
    · obtain ⟨h₁, h₂, h₃⟩ := hw₁ p hq
      exact ⟨h₁, (@placed_append _ cs ds p (.inl ⟨h₁, h₂⟩)).2, h₃⟩
    · obtain ⟨h₁, h₂, h₃⟩ := hw₂ p hq
      have h := @placed_append _ cs ds p (.inr ⟨hb₁ ▸ h₁, hb₁ ▸ h₂⟩)
      exact ⟨h.1, h.2, h₃⟩
  · intro hfit
    simp only [List.length_append] at hfit
    exact (hp ⟨fun p h => (hw₁ p h).imp_right And.left, hf₁ (by omega)⟩
      ⟨fun p h => (hw₂ p h).imp_right And.left, hf₂ (by omega)⟩).2
  · intro x hx
    rcases List.mem_append.1 hx with hx | hx
    exacts [hlt₁ x hx, hlt₂ x hx]

/-- **A loop of pieces** emits the texts of its passes, one after the other. -/
theorem Emits.foldl {α : Type} (f : DumpState → α → DumpState) (t : α → List Char) :
    ∀ (l : List α), (∀ a ∈ l, ∀ s, Emits bt mt (t a) s (f s a)) →
      ∀ s, Emits bt mt (l.flatMap t) s (l.foldl f s)
  | [], _, s => Emits.nil s
  | a :: l, h, s => by
    rw [List.flatMap_cons, List.foldl_cons]
    exact (h a (List.mem_cons_self _ _) s).append
      (Emits.foldl f t l (fun a ha => h a (List.mem_cons_of_mem _ ha)) _)

/-- **One piece of the code**: stores that put `cs` at `b` and loads below
`mt`, made only when `cs` fits, `b + w < bt`, and then `b += w`. -/
theorem emits_piece {cs : List Char} {w : ℕ} {s s₁ : DumpState} {new : List (ℕ × Char)}
    {ld : List ℕ} (hw : cs.length = w) (hb : s₁.b = s.b) (hs : s₁.stores = s.stores ++ new)
    (hp : Places s.b cs new) (hl : s₁.loads = s.loads ++ ld) (hld : ∀ x ∈ ld, x < mt) :
    Emits bt mt cs s ((if s.b + w < bt then s₁ else s).skip w) := by
  subst hw
  split
  · refine ⟨by simp [hb], ⟨new, hs, fun p h => ?_, fun _ => hp.2⟩, ⟨ld, hl, hld⟩⟩
    obtain ⟨h₁, h₂⟩ := hp.1 p h
    have := (List.getElem?_eq_some_iff.1 h₂).1
    exact ⟨h₁, h₂, by omega⟩
  · exact ⟨rfl, ⟨[], by simp, by simp, fun h => absurd h ‹_›⟩, ⟨[], by simp, by simp⟩⟩

end Emits

/-! ## Each piece of a row -/

section Row

variable {bt mt : ℕ} {mem : ℕ → UInt8}

/-- **The digit loop** stores the `n` last hex digits of `a` at `b + lo`, and
leaves `a >>> 4n`. -/
theorem hexDown_spec (lo : ℕ) : ∀ (n a : ℕ) (s : DumpState), ∃ new,
    (hexDown lo n a s).1.b = s.b ∧ (hexDown lo n a s).1.loads = s.loads ∧
    (hexDown lo n a s).1.stores = s.stores ++ new ∧ Places (s.b + lo) (hexDigits n a) new ∧
    (hexDown lo n a s).2 = a >>> (4 * n)
  | 0, a, s => ⟨[], rfl, rfl, by simp [hexDown], places_nil _, rfl⟩
  | n + 1, a, s => by
    obtain ⟨new, hb, hl, hs, hp, ha⟩ :=
      hexDown_spec lo n (a >>> 4) (s.store (lo + n) (digit (a &&& 0xf)))
    refine ⟨(s.b + (lo + n), digit (a &&& 0xf)) :: new, hb, hl, by simp [hexDown, hs], ?_, ?_⟩
    · have hd : Places ((s.store (lo + n) (digit (a &&& 0xf))).b + lo + (hexDigits n (a >>> 4)).length)
          [digit (a &&& 0xf)] [(s.b + (lo + n), digit (a &&& 0xf))] := by
        simpa [length_hexDigits, Nat.add_assoc] using places_single (s.b + (lo + n)) _
      exact Places.append hp hd fun p => by simp [or_comm]
    · rw [hexDown, ha, ← Nat.shiftRight_add]
      congr 1
      omega

theorem places_colon (base : ℕ) :
    Places base [':', ' ', ' '] [(base, ':'), (base + 2, ' '), (base + 1, ' ')] := by
  refine ⟨by simp, fun i hi => ?_⟩
  obtain rfl | rfl | rfl : i = 0 ∨ i = 1 ∨ i = 2 := by simp at hi; omega
  all_goals simp

theorem emits_offsetColumn (o : ℕ) (s : DumpState) :
    Emits bt mt (hexDigits 8 o ++ [':', ' ', ' ']) s (offsetColumn bt o s) := by
  obtain ⟨new, hb, hl, hs, hp, -⟩ := hexDown_spec 0 8 o s
  refine emits_piece (by simp [length_hexDigits]) (by simp [hb])
    (show _ = s.stores ++ (new ++ [(s.b + 8, ':'), (s.b + 10, ' '), (s.b + 9, ' ')]) by
      simp [hs, hb]) ?_ (show _ = s.loads ++ [] by simp [hl]) (by simp)
  refine Places.append (by simpa using hp) ?_ fun p => List.mem_append
  simpa [length_hexDigits, Nat.add_assoc] using places_colon (s.b + 8)

theorem emits_addrColumn (a : ℕ) (s : DumpState) :
    Emits bt mt (hexDigits 8 (a >>> 32) ++ [tick] ++ hexDigits 8 a ++ [':', ' ', ' ']) s
      (addrColumn bt a s) := by
  obtain ⟨n₁, hb₁, hl₁, hs₁, hp₁, ha₁⟩ := hexDown_spec 9 8 a s
  obtain ⟨n₂, hb₂, hl₂, hs₂, hp₂, -⟩ :=
    hexDown_spec 0 8 (hexDown 9 8 a s).2 ((hexDown 9 8 a s).1.store 8 tick)
  unfold addrColumn
  dsimp only
  generalize hexDown 0 8 (hexDown 9 8 a s).2 ((hexDown 9 8 a s).1.store 8 tick) = high at *
  generalize hexDown 9 8 a s = low at *
  rw [ha₁] at hp₂
  refine emits_piece (by simp [length_hexDigits]) (by simp only [store_b, hb₂, hb₁])
    (show _ = s.stores ++ (n₁ ++ [(s.b + 8, tick)] ++ n₂ ++
      [(s.b + 17, ':'), (s.b + 19, ' '), (s.b + 18, ' ')]) by simp [hs₁, hs₂, hb₁, hb₂])
    ?_ (show _ = s.loads ++ [] by simp [hl₁, hl₂]) (by simp)
  have hhigh : Places s.b (hexDigits 8 (a >>> 32) ++ [tick]) (n₂ ++ [(s.b + 8, tick)]) :=
    Places.append (by simpa [hb₁] using hp₂)
      (by simpa [length_hexDigits] using places_single (s.b + 8) tick) fun _ => List.mem_append
  have hlow : Places s.b (hexDigits 8 (a >>> 32) ++ [tick] ++ hexDigits 8 a)
      (n₁ ++ [(s.b + 8, tick)] ++ n₂) :=
    Places.append hhigh (by simpa [length_hexDigits] using hp₁) fun _ => by
      simp only [List.mem_append]; tauto
  exact Places.append hlow (by simpa [length_hexDigits, Nat.add_assoc] using places_colon (s.b + 17))
    fun _ => List.mem_append

theorem emits_putChar (c : Char) (s : DumpState) : Emits bt mt [c] s (putChar bt c s) :=
  emits_piece rfl rfl (show _ = s.stores ++ [(s.b, c)] by simp) (places_single _ _)
    (show _ = s.loads ++ [] by simp) (by simp)

theorem emits_hexByte (x : ℕ) (s : DumpState) :
    Emits bt mt (hexText mt mem x) s (hexByte bt mt mem x s) := by
  unfold hexByte hexText
  by_cases hx : x < mt
  · simp only [if_pos hx]
    refine emits_piece rfl rfl (show _ = s.stores ++ [(s.b, digit (mem x >>> 4).toNat),
      (s.b + 1, digit (mem x &&& 0xf).toNat)] by simp) ?_
      (show _ = s.loads ++ [x] by simp) (by simpa using hx)
    exact (places_single _ _).append (places_single _ _) fun _ => by simp
  · simp only [if_neg hx]
    refine emits_piece rfl rfl (show _ = s.stores ++ [(s.b + 1, ' '), (s.b, ' ')] by simp) ?_
      (show _ = s.loads ++ [] by simp) (by simp)
    exact (places_single _ _).append (places_single _ _) fun _ => by simp [or_comm]

theorem emits_asciiByte (x : ℕ) (s : DumpState) :
    Emits bt mt (asciiText mt mem x) s (asciiByte bt mt mem x s) := by
  unfold asciiByte asciiText
  by_cases hx : x < mt
  · simp only [if_pos hx]
    exact emits_piece rfl rfl (show _ = s.stores ++ [(s.b, asciiChar (mem x))] by simp)
      (places_single _ _)
      (show _ = s.loads ++ [x] by simp) (by simpa using hx)
  · simp only [if_neg hx]
    exact emits_piece rfl rfl (show _ = s.stores ++ [(s.b, ' ')] by simp) (places_single _ _)
      (show _ = s.loads ++ [] by simp) (by simp)

theorem emits_dumpColumn (style : DumpStyle) (memAddr m : ℕ) (s : DumpState) :
    Emits bt mt (columnText style memAddr m) s (dumpColumn bt style memAddr m s) := by
  cases style
  exacts [Emits.nil s, emits_offsetColumn m s, emits_addrColumn (memAddr + m) s]

theorem emits_hexStep (m : ℕ) (s : DumpState) (j : ℕ) :
    Emits bt mt (hexText mt mem (m + j) ++ if j % 4 = 3 then [' '] else [])
      s (hexStep bt mt mem m s j) := by
  have hand : (j + 1) &&& 3 = (j + 1) % 4 := Nat.and_pow_two_sub_one_eq_mod (j + 1) 2
  unfold hexStep
  by_cases hj : j % 4 = 3
  · rw [if_pos hj, if_pos (by omega)]
    exact (emits_hexByte _ s).append (emits_putChar _ _)
  · rw [if_neg hj, if_neg (by omega), List.append_nil]
    exact emits_hexByte _ s

theorem emits_asciiStep (m : ℕ) (s : DumpState) (j : ℕ) :
    Emits bt mt (asciiText mt mem (m + j) ++ if j = 7 then [' '] else [])
      s (asciiStep bt mt mem m s j) := by
  unfold asciiStep
  split
  · exact (emits_asciiByte _ s).append (emits_putChar _ _)
  · rw [List.append_nil]
    exact emits_asciiByte _ s

/-- **A row of the code emits the row of the dump.** -/
theorem emits_dumpRow (style : DumpStyle) (memAddr m : ℕ) (s : DumpState) :
    Emits bt mt (rowText mt mem style memAddr m) s (dumpRow bt mt mem style memAddr m s) :=
  ((((emits_dumpColumn style memAddr m s).append
    (Emits.foldl _ _ _ (fun j _ s => emits_hexStep m s j) _)).append (emits_putChar _ _)).append
    (Emits.foldl _ _ _ (fun j _ s => emits_asciiStep m s j) _)).append (emits_putChar _ _)

end Row

/-! ## The loop -/

theorem length_rowsText (mt : ℕ) (mem : ℕ → UInt8) (style : DumpStyle) (memAddr : ℕ) :
    ∀ m r, (rowsText mt mem style memAddr m r).length = rowWidth style * r
  | _, 0 => rfl
  | m, r + 1 => by
    rw [rowsText_succ, List.length_append, length_rowText, length_rowsText mt mem style memAddr _ r,
      Nat.mul_succ, Nat.add_comm]

/-- **The loop runs row after row** while `b < bt` and `m < mt`: `r` rows, all
of which started inside both, emitting their text. -/
theorem dumpLoop_emits {bt mt : ℕ} {mem : ℕ → UInt8} (style : DumpStyle) (memAddr m : ℕ)
    (s : DumpState) : ∃ r, (∀ k < r, s.b + rowWidth style * k < bt ∧ m + 16 * k < mt) ∧
      ¬(s.b + rowWidth style * r < bt ∧ m + 16 * r < mt) ∧
      Emits bt mt (rowsText mt mem style memAddr m r) s (dumpLoop bt mt mem style memAddr m s) := by
  induction m, s using dumpLoop.induct bt mt mem style memAddr with
  | case1 m s hc ih =>
    obtain ⟨r, hlt, hexit, he⟩ := ih
    have hrow : Emits bt mt (rowText mt mem style memAddr m) s (dumpRow bt mt mem style memAddr m s) :=
      emits_dumpRow style memAddr m s
    have hb := hrow.b
    rw [length_rowText] at hb
    refine ⟨r + 1, fun k hk => ?_, ?_, ?_⟩
    · cases k with
      | zero => simpa using hc
      | succ k =>
        have := hlt k (by omega)
        rw [hb] at this
        rw [Nat.mul_succ]
        omega
    · rw [hb] at hexit
      rw [Nat.mul_succ]
      omega
    · rw [dumpLoop, if_pos hc, rowsText_succ]
      exact hrow.append he
  | case2 m s hc =>
    refine ⟨0, fun k hk => absurd hk (Nat.not_lt_zero k), by simpa using hc, ?_⟩
    rw [dumpLoop, if_neg hc]
    exact Emits.nil s

/-! ## A whole call -/

/-- The buffer after the stores `st`, from its contents `buf` before the call. -/
def bufferAfter (buf : ℕ → Char) (st : List (ℕ × Char)) : ℕ → Char :=
  st.foldl (fun f p => Function.update f p.1 p.2) buf

/-- A place no store touches keeps its contents. -/
theorem bufferAfter_of_not_mem {i : ℕ} : ∀ {buf : ℕ → Char} {st : List (ℕ × Char)},
    (∀ p ∈ st, p.1 ≠ i) → bufferAfter buf st i = buf i
  | _, [], _ => rfl
  | buf, p :: st, h => by
    rw [bufferAfter, List.foldl_cons, ← bufferAfter,
      bufferAfter_of_not_mem fun q hq => h q (List.mem_cons_of_mem _ hq),
      Function.update_noteq (h p (List.mem_cons_self _ _)).symm]

/-- A place stored, every time with `c`, holds `c`. -/
theorem bufferAfter_of_mem {i : ℕ} {c : Char} : ∀ {buf : ℕ → Char} {st : List (ℕ × Char)},
    (∃ d, (i, d) ∈ st) → (∀ p ∈ st, p.1 = i → p.2 = c) → bufferAfter buf st i = c
  | _, [], ⟨_, hd⟩, _ => absurd hd (List.not_mem_nil _)
  | buf, p :: st, ⟨d, hd⟩, h => by
    have h' : ∀ q ∈ st, q.1 = i → q.2 = c := fun q hq => h q (List.mem_cons_of_mem _ hq)
    rw [bufferAfter, List.foldl_cons, ← bufferAfter]
    by_cases hs : ∃ d, (i, d) ∈ st
    · exact bufferAfter_of_mem hs h'
    · have hp : p = (i, d) := by
        rcases List.mem_cons.1 hd with hp | hp
        exacts [hp.symm, absurd ⟨d, hp⟩ hs]
      rw [bufferAfter_of_not_mem fun q hq hqi => hs ⟨q.2, by rw [← hqi]; exact hq⟩, hp,
        Function.update_same]
      exact h _ (hp ▸ List.mem_cons_self _ _) rfl

/-- The NUL stored after the loop's stores. -/
theorem bufferAfter_append_single (buf : ℕ → Char) (st : List (ℕ × Char)) (j : ℕ) (c : Char) :
    bufferAfter buf (st ++ [(j, c)]) = Function.update (bufferAfter buf st) j c := by
  rw [bufferAfter, List.foldl_append, ← bufferAfter]
  rfl

/-- The rows of a call whose buffer is too short for the whole dump: the loop
stops after `⌈bufsize / W⌉` rows, at or past the end of the buffer. -/
theorem rows_of_short {W r bufsize memsize : ℕ} (hW : 0 < W) (h0 : 0 < bufsize)
    (hshort : bufsize ≤ W * ((memsize + 15) / 16))
    (hlt : ∀ k < r, W * k < bufsize ∧ 16 * k < memsize) (hexit : ¬(W * r < bufsize ∧ 16 * r < memsize)) :
    bufsize ≤ W * r ∧ r = (bufsize + W - 1) / W := by
  have hle : bufsize ≤ W * r := by
    by_contra hgt
    have : (memsize + 15) / 16 ≤ r := by omega
    exact hgt (hshort.trans (Nat.mul_le_mul_left W this))
  refine ⟨hle, ?_⟩
  obtain ⟨k, rfl⟩ : ∃ k, r = k + 1 := ⟨r - 1, by
    have : r ≠ 0 := by rintro rfl; simp at hle; omega
    omega⟩
  have hk := (hlt k (Nat.lt_succ_self k)).1
  rw [Nat.mul_succ] at hle
  have h₁ : (k + 1) * W ≤ bufsize + W - 1 := by rw [Nat.succ_mul, Nat.mul_comm]; omega
  have h₂ : bufsize + W - 1 < (k + 1 + 1) * W := by
    rw [Nat.succ_mul, Nat.succ_mul, Nat.mul_comm]; omega
  exact (Nat.div_eq_of_lt_le h₁ h₂).symm

theorem rowWidth_pos (style : DumpStyle) : 0 < rowWidth style := by
  cases style <;> decide

/-- **A call whose buffer is too short for the whole dump**: the loop ends at
`b = W * ⌈bufsize / W⌉`, at or past the end of the buffer, having stored only
below `bufsize - 1`, and the NUL goes to `b[bufsize - 1]`. -/
theorem dumpMemory_short (style : DumpStyle) (mem : ℕ → UInt8) (memAddr bufsize memsize : ℕ)
    (h0 : 0 < bufsize) (hshort : bufsize ≤ rowWidth style * ((memsize + 15) / 16)) :
    (dumpLoop bufsize memsize mem style memAddr 0 ⟨0, [], []⟩).b =
        rowWidth style * ((bufsize + rowWidth style - 1) / rowWidth style) ∧
      bufsize ≤ (dumpLoop bufsize memsize mem style memAddr 0 ⟨0, [], []⟩).b ∧
      (∀ p ∈ (dumpLoop bufsize memsize mem style memAddr 0 ⟨0, [], []⟩).stores,
        p.1 + 1 < bufsize) ∧
      dumpMemory bufsize mem memAddr memsize style =
        (cInt (dumpLoop bufsize memsize mem style memAddr 0 ⟨0, [], []⟩).b,
          (dumpLoop bufsize memsize mem style memAddr 0 ⟨0, [], []⟩).store (bufsize - 1) nul) := by
  obtain ⟨r, hlt, hexit, he⟩ := @dumpLoop_emits bufsize memsize mem style memAddr 0 ⟨0, [], []⟩
  simp only [Nat.zero_add] at hlt hexit
  obtain ⟨hle, hr⟩ := rows_of_short (rowWidth_pos style) h0 hshort hlt hexit
  unfold dumpMemory
  generalize dumpLoop bufsize memsize mem style memAddr 0 ⟨0, [], []⟩ = s at he ⊢
  have hb : s.b = rowWidth style * r := by rw [he.b, length_rowsText, Nat.zero_add]
  obtain ⟨new, hs, hw, -⟩ := he.stores
  refine ⟨by rw [hb, hr], hb ▸ hle, fun p hp => (hw p (by simpa [hs] using hp)).2.2, ?_⟩
  dsimp only
  rw [if_neg (by omega), if_pos h0]
  rfl

/-- **A dump reads only the memory it was given.** -/
theorem dumpMemory_loads_lt (style : DumpStyle) (mem : ℕ → UInt8) (memAddr bufsize memsize : ℕ) :
    ∀ x ∈ (dumpMemory bufsize mem memAddr memsize style).2.loads, x < memsize := by
  obtain ⟨r, -, -, he⟩ := @dumpLoop_emits bufsize memsize mem style memAddr 0 ⟨0, [], []⟩
  obtain ⟨ld, hl, hlt⟩ := he.loads
  unfold dumpMemory
  generalize dumpLoop bufsize memsize mem style memAddr 0 ⟨0, [], []⟩ = s at hl ⊢
  intro x hx
  have hx' : x ∈ s.loads := by dsimp only at hx; split_ifs at hx <;> simpa using hx
  exact hlt x (by simpa [hl] using hx')

set_option maxRecDepth 8000 in
/-- One byte dumped into a 56-byte buffer: the byte at offset 0 is read. -/
theorem dumpMemory_loads_one_byte :
    0 ∈ (dumpMemory 56 (fun _ => 0) 0 1 .noaddr).2.loads ∧ 0 < 1 := by
  have h : 0 ∈ (dumpMemory 56 (fun _ => 0) 0 1 .noaddr).2.loads := by
    unfold dumpMemory
    rw [dumpLoop, if_pos (by decide), dumpLoop, if_neg (by decide)]
    decide
  exact ⟨h, dumpMemory_loads_lt .noaddr _ 0 56 1 0 h⟩

/-- **When the dump does not fit, the NUL is stored past the buffer**:
`b[bufsize - 1] = 0` with `b` at or past `buf + bufsize`. -/
theorem dumpMemory_stores_past_buffer (style : DumpStyle) (mem : ℕ → UInt8)
    (memAddr bufsize memsize : ℕ) (h0 : 0 < bufsize)
    (hshort : bufsize ≤ rowWidth style * ((memsize + 15) / 16)) :
    ∃ p ∈ (dumpMemory bufsize mem memAddr memsize style).2.stores, bufsize ≤ p.1 := by
  obtain ⟨-, hle, -, heq⟩ := dumpMemory_short style mem memAddr bufsize memsize h0 hshort
  rw [heq]
  exact ⟨_, List.mem_append_right _ (List.mem_singleton_self _), by simp only; omega⟩

/-- A one-byte buffer and one byte of memory: the NUL goes to `buf[55]`. -/
theorem dumpMemory_one_byte_buffer :
    0 < 1 ∧ 1 ≤ rowWidth .noaddr * ((1 + 15) / 16) ∧
      ∃ p ∈ (dumpMemory 1 (fun _ => 0) 0 1 .noaddr).2.stores, 1 ≤ p.1 :=
  ⟨by decide, by decide, dumpMemory_stores_past_buffer .noaddr _ 0 1 1 (by decide) (by decide)⟩

/-- **A dump that does not fit is cut short and left unterminated**: the call
returns `W * ⌈bufsize / W⌉`, the length of the rows it began, and not the
length `W * ⌈memsize / 16⌉` of the dump; and the last byte of the buffer is
left as it was. -/
theorem dumpMemory_short_buffer (style : DumpStyle) (mem : ℕ → UInt8) (memAddr bufsize memsize : ℕ)
    (buf : ℕ → Char) (h0 : 0 < bufsize)
    (hshort : bufsize ≤ rowWidth style * ((memsize + 15) / 16)) :
    (dumpMemory bufsize mem memAddr memsize style).1 =
        cInt (rowWidth style * ((bufsize + rowWidth style - 1) / rowWidth style)) ∧
      bufferAfter buf (dumpMemory bufsize mem memAddr memsize style).2.stores (bufsize - 1) =
        buf (bufsize - 1) := by
  obtain ⟨hb, hle, hst, heq⟩ := dumpMemory_short style mem memAddr bufsize memsize h0 hshort
  rw [heq, store_stores, bufferAfter_append_single, Function.update_noteq (by omega)]
  exact ⟨by rw [hb], bufferAfter_of_not_mem fun p hp => by have := hst p hp; omega⟩

/-- Thirty-two bytes into a one-byte buffer: the call returns 55, not the
110 characters of the dump. -/
theorem dumpMemory_short_buffer_one_byte :
    0 < 1 ∧ 1 ≤ rowWidth .noaddr * ((32 + 15) / 16) ∧
      ((dumpMemory 1 (fun _ => 0) 0 32 .noaddr).1 =
          cInt (rowWidth .noaddr * ((1 + rowWidth .noaddr - 1) / rowWidth .noaddr)) ∧
        bufferAfter (fun _ => 'x') (dumpMemory 1 (fun _ => 0) 0 32 .noaddr).2.stores (1 - 1) =
          'x') :=
  ⟨by decide, by decide,
    dumpMemory_short_buffer .noaddr _ 0 1 32 (fun _ => 'x') (by decide) (by decide)⟩

/-- **A dump that fits is written whole**: the call returns its length `L`,
the buffer holds the dump followed by a NUL, and nothing after it is
touched. -/
theorem dumpMemory_fits (style : DumpStyle) (mem : ℕ → UInt8) (memAddr bufsize memsize : ℕ)
    (buf : ℕ → Char) (hfit : rowWidth style * ((memsize + 15) / 16) < bufsize) :
    (dumpMemory bufsize mem memAddr memsize style).1 =
        cInt (rowWidth style * ((memsize + 15) / 16)) ∧
      (∀ i < rowWidth style * ((memsize + 15) / 16),
        some (bufferAfter buf (dumpMemory bufsize mem memAddr memsize style).2.stores i) =
          (dumpText mem memsize style memAddr)[i]?) ∧
      bufferAfter buf (dumpMemory bufsize mem memAddr memsize style).2.stores
          (rowWidth style * ((memsize + 15) / 16)) = nul ∧
      ∀ i, rowWidth style * ((memsize + 15) / 16) < i →
        bufferAfter buf (dumpMemory bufsize mem memAddr memsize style).2.stores i = buf i := by
  obtain ⟨r, hlt, hexit, he⟩ := @dumpLoop_emits bufsize memsize mem style memAddr 0 ⟨0, [], []⟩
  simp only [Nat.zero_add] at hlt hexit
  -- the loop runs all `⌈memsize / 16⌉` rows
  have hr : r = (memsize + 15) / 16 := by
    have hle : r ≤ (memsize + 15) / 16 := by
      rcases Nat.eq_zero_or_pos r with h | h
      · omega
      · have := (hlt (r - 1) (by omega)).2
        omega
    have := Nat.mul_le_mul_left (rowWidth style) hle
    omega
  subst hr
  unfold dumpMemory
  generalize dumpLoop bufsize memsize mem style memAddr 0 ⟨0, [], []⟩ = s at he ⊢
  have hb : s.b = rowWidth style * ((memsize + 15) / 16) := by
    rw [he.b, length_rowsText, Nat.zero_add]
  obtain ⟨new, hs, hw, hcov⟩ := he.stores
  simp only [Nat.zero_add, Nat.sub_zero, List.nil_append] at hs hw hcov
  have hlen := length_rowsText memsize mem style memAddr 0 ((memsize + 15) / 16)
  dsimp only
  rw [if_pos (hb ▸ hfit)]
  simp only [store_b, store_stores, hs, List.nil_append, Nat.add_zero, hb,
    bufferAfter_append_single]
  -- every store of the loop is of the dump, below its end
  have hnew : ∀ p ∈ new, p.1 < rowWidth style * ((memsize + 15) / 16) ∧
      (dumpText mem memsize style memAddr)[p.1]? = some p.2 := fun p hp => by
    obtain ⟨-, hc, -⟩ := hw p hp
    exact ⟨hlen ▸ (List.getElem?_eq_some_iff.1 hc).1, hc⟩
  refine ⟨trivial, fun i hi => ?_, Function.update_same _ _ _, fun i hi => ?_⟩
  · obtain ⟨c, hc⟩ := hcov (hlen ▸ hfit) i (hlen ▸ hi)
    have hci : (dumpText mem memsize style memAddr)[i]? = some c := (hnew _ hc).2
    rw [hci, Function.update_noteq (Nat.ne_of_lt hi),
      bufferAfter_of_mem ⟨c, hc⟩ fun p hp hpi => Option.some_injective _ ((hnew p hp).2.symm.trans (hpi ▸ hci))]
  · rw [Function.update_noteq (Nat.ne_of_gt hi)]
    exact bufferAfter_of_not_mem fun p hp => Nat.ne_of_lt ((hnew p hp).1.trans hi)

/-- One byte into a 56-byte buffer: the call returns the 55 characters of the
row. -/
theorem dumpMemory_fits_one_row :
    rowWidth .noaddr * ((1 + 15) / 16) < 56 ∧ (dumpMemory 56 (fun _ => 0) 0 1 .noaddr).1 = 55 :=
  ⟨by decide, (dumpMemory_fits .noaddr (fun _ => 0) 0 56 1 (fun _ => ' ') (by decide)).1.trans
    (by decide)⟩

end Dump

end Mcube
