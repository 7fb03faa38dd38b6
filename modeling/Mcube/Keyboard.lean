import Mathlib.Data.List.Infix

/-!
# The PS/2 keyboard

The keyboard driver (`drivers/misc/keyboard.c`) reads scan codes from the
i8042 controller: `kbd_read_input` returns the byte waiting in the data
register when the status register says one is there, and `KEY_NONE` (`0xff`)
otherwise. On each IRQ1, `__kb_handler` reads one code, notes a press or a
release of a shift key in `shifted`, and prints the character
`scancodes[code][shifted]` of the codes its table has, unless it is NUL.
`keyboard_init` first flushes the controller (`kbd_flush_buffer`): at most 128
reads, up to the first that finds nothing.

Two properties of whole runs follow. A run of IRQs over any codes prints, for
each code of the table, its character in the column that the *last* shift
press or release before it selects, and `shifted` never leaves the two
columns of the table (`kbHandler_run`): it is a state machine that refines the
reading of the history of the keys. The flush stops at the first byte
`0xff` as at an empty controller, since `kbd_read_input` cannot tell the
two apart, so it drops the bytes up to and including the first `0xff`, and at
most 128 of them (`kbdFlushBuffer_eq`).

The controller is the list of the bytes it holds, the first one in its data
register; the status register's `output_ready` bit says whether that list is
empty. `putchar` appends to the console; `apic_udelay` passes no time the
model counts.
-/

namespace Mcube

namespace Keyboard

/-- `KEY_RSHIFT`. -/
def keyRshift : UInt8 := 0x36

/-- `KEY_LSHIFT`. -/
def keyLshift : UInt8 := 0x2a

/-- `KEY_NONE`: no key was pressed. -/
def keyNone : UInt8 := 0xff

/-- `RELEASE(code)`: the release code of a key, bit 7 set. -/
def release (code : UInt8) : UInt8 := code ||| 0x80

/-- `scancodes[][2]`, the AT+ (set 2) table: for each code, its character
unshifted and shifted. -/
def scancodes : List (List Char) :=
  [['\xff', '\xff'], ['\x00', '\x00'],
   ['1', '!'], ['2', '@'], ['3', '#'], ['4', '$'], ['5', '%'], ['6', '^'], ['7', '&'],
   ['8', '*'], ['9', '('], ['0', ')'], ['-', '_'], ['=', '+'], ['\x08', '\x00'], ['\t', '\x00'],
   ['q', 'Q'], ['w', 'W'], ['e', 'E'], ['r', 'R'], ['t', 'T'], ['y', 'Y'], ['u', 'U'],
   ['i', 'I'], ['o', 'O'], ['p', 'P'], ['[', '\x7b'], [']', '\x7d'], ['\n', '\x00'],
   ['\x00', '\x00'],
   ['a', 'A'], ['s', 'S'], ['d', 'D'], ['f', 'F'], ['g', 'G'], ['h', 'H'], ['j', 'J'],
   ['k', 'K'], ['l', 'L'], [';', ':'], ['\x27', '\x22'], ['\x60', '~'], ['\x00', '\x00'],
   ['\x5c', '|'],
   ['z', 'Z'], ['x', 'X'], ['c', 'C'], ['v', 'V'], ['b', 'B'], ['n', 'N'], ['m', 'M'],
   [',', '<'], ['.', '>'], ['/', '?'], ['\x00', '\x00'],
   ['\xff', '\xff'], ['\xff', '\xff'], [' ', ' ']]

example : scancodes.length = 0x3a ∧ ∀ row ∈ scancodes, row.length = 2 := by decide

/-- The controller: the bytes it holds, the first in its data register. -/
abbrev Controller := List UInt8

/-- `kbd_read_input`: the byte in the data register if `output_ready`,
`KEY_NONE` otherwise. -/
def kbdReadInput : Controller → UInt8 × Controller
  | [] => (keyNone, [])
  | b :: bs => (b, bs)

/-! ## The IRQ handler -/

/-- The handler's state: `shifted`, the controller, and what `putchar` has
printed. -/
structure State where
  shifted : ℕ
  ctrl : Controller
  out : List Char

/-- The `switch` of `__kb_handler` on the code: a shift press sets `shifted`,
a shift release clears it. -/
def shiftedAfter (code : UInt8) (shifted : ℕ) : ℕ :=
  if code = keyLshift ∨ code = keyRshift then 1
  else if code = release keyLshift ∨ code = release keyRshift then 0
  else shifted

/-- `__kb_handler`. -/
def kbHandler (s : State) : State :=
  let r := kbdReadInput s.ctrl
  let shifted := shiftedAfter r.1 s.shifted
  if scancodes.length ≤ r.1.toNat then { s with shifted := shifted, ctrl := r.2 }
  else
    let ascii := (scancodes.getD r.1.toNat []).getD shifted '\x00'
    ⟨shifted, r.2, if ascii ≠ '\x00' then s.out ++ [ascii] else s.out⟩

/-- The codes that press or release a shift key. -/
def ShiftEvent (code : UInt8) : Prop :=
  code = keyLshift ∨ code = keyRshift ∨ code = release keyLshift ∨ code = release keyRshift

instance : DecidablePred ShiftEvent := fun code => inferInstanceAs (Decidable (code = keyLshift ∨ _))

/-- The column the keys `codes` leave selected: 1 when the last press or
release of a shift key among them is a press. -/
def column (codes : List UInt8) : ℕ :=
  match codes.reverse.find? ShiftEvent with
  | some c => if c = keyLshift ∨ c = keyRshift then 1 else 0
  | none => 0

/-- What the last of the keys `pre` should print: its character in the
column the keys `pre` select, if its code is in the table and the character
is not NUL. -/
def charOf (pre : List UInt8) : Option Char :=
  match pre.getLast? with
  | some code =>
    if code.toNat < scancodes.length then
      let ascii := (scancodes.getD code.toNat []).getD (column pre) '\x00'
      if ascii ≠ '\x00' then some ascii else none
    else none
  | none => none

/-- What the keys `codes` should print, key after key. -/
def printed (codes : List UInt8) : List Char := codes.inits.filterMap charOf

section Run

variable {pre post : List UInt8} {c : UInt8}

theorem column_concat (pre : List UInt8) (c : UInt8) :
    column (pre ++ [c]) = shiftedAfter c (column pre) := by
  unfold column shiftedAfter
  rw [List.reverse_append, List.reverse_singleton, List.singleton_append, List.find?_cons]
  by_cases hc : ShiftEvent c
  · rw [decide_eq_true hc]
    rcases hc with h | h | h | h <;> simp [h, keyLshift, keyRshift, release]
  · rw [decide_eq_false hc]
    simp only [ShiftEvent, not_or] at hc
    simp only [hc.1, hc.2.1, hc.2.2.1, hc.2.2.2, or_self, if_false]

theorem printed_concat (pre : List UInt8) (c : UInt8) :
    printed (pre ++ [c]) = printed pre ++ (charOf (pre ++ [c])).toList := by
  simp only [printed, List.inits_append, List.filterMap_append]
  cases h : charOf (pre ++ [c]) <;> simp [h]

/-- **One IRQ** reads the next code and prints what the history up to it
says. -/
theorem kbHandler_cons (pre : List UInt8) (c : UInt8) (post : Controller) :
    kbHandler ⟨column pre, c :: post, printed pre⟩ =
      ⟨column (pre ++ [c]), post, printed (pre ++ [c])⟩ := by
  rw [column_concat, printed_concat, charOf, List.getLast?_concat]
  simp only [kbHandler, kbdReadInput, ← column_concat]
  by_cases hc : scancodes.length ≤ c.toNat
  · rw [if_pos hc, if_neg (Nat.not_lt.mpr hc)]
    simp
  · rw [if_neg hc, if_pos (Nat.lt_of_not_le hc)]
    split_ifs <;> simp

/-- An IRQ with nothing in the controller changes nothing. -/
theorem kbHandler_nil (k : ℕ) (out : List Char) : kbHandler ⟨k, [], out⟩ = ⟨k, [], out⟩ := by
  have hs : shiftedAfter keyNone k = k := by rw [shiftedAfter, if_neg (by decide), if_neg (by decide)]
  simp only [kbHandler, kbdReadInput, hs, if_pos (show scancodes.length ≤ keyNone.toNat by decide)]

/-- **A run of IRQs** over the codes `codes`, and any IRQs after them, prints
for each code of the table its character, unless NUL, in the column the last
shift press or release before it selects; `shifted` is 1 exactly when that
event is a press, so `scancodes[code][shifted]` stays inside its row. -/
theorem kbHandler_run (codes : List UInt8) (n : ℕ) :
    kbHandler^[codes.length + n] ⟨0, codes, []⟩ = ⟨column codes, [], printed codes⟩ := by
  have hrun : ∀ pre post, kbHandler^[post.length] ⟨column pre, post, printed pre⟩ =
      ⟨column (pre ++ post), [], printed (pre ++ post)⟩ := by
    intro pre post
    induction post generalizing pre with
    | nil => simp
    | cons c post ih =>
      rw [List.length_cons, Function.iterate_succ_apply, kbHandler_cons, ih,
        List.append_assoc, List.singleton_append]
  have hidle : ∀ m, kbHandler^[m] ⟨column codes, [], printed codes⟩ = ⟨column codes, [], printed codes⟩ :=
    fun m => Function.iterate_fixed (kbHandler_nil _ _) m
  rw [Nat.add_comm, Function.iterate_add_apply]
  exact (congrArg _ (hrun [] codes)).trans (hidle n)

end Run

/-! ## The flush -/

/-- The loop of `kbd_flush_buffer` with `trials` reads left: it stops after
a read that finds `KEY_NONE`. -/
def flushLoop : ℕ → Controller → Controller
  | 0, ctrl => ctrl
  | n + 1, ctrl =>
    if (kbdReadInput ctrl).1 = keyNone then (kbdReadInput ctrl).2 else flushLoop n (kbdReadInput ctrl).2

/-- `kbd_flush_buffer`: 128 trials. -/
def kbdFlushBuffer (ctrl : Controller) : Controller := flushLoop 128 ctrl

theorem flushLoop_eq (n : ℕ) (ctrl : Controller) :
    flushLoop n ctrl = ctrl.drop (min n ((ctrl.takeWhile (· ≠ keyNone)).length + 1)) := by
  induction n generalizing ctrl with
  | zero => rfl
  | succ n ih =>
    rcases ctrl with _ | ⟨b, bs⟩
    · simp [flushLoop, kbdReadInput]
    · simp only [flushLoop, kbdReadInput]
      by_cases hb : b = keyNone
      · rw [if_pos hb, List.takeWhile_cons_of_neg (by simpa using hb), List.length_nil,
          show min (n + 1) (0 + 1) = 0 + 1 by omega]
        rfl
      · rw [if_neg hb, ih, List.takeWhile_cons_of_pos (by simpa using hb), List.length_cons,
          show min (n + 1) ((bs.takeWhile (· ≠ keyNone)).length + 1 + 1) =
            min n ((bs.takeWhile (· ≠ keyNone)).length + 1) + 1 by omega]
        rfl

/-- **The flush drops the bytes up to and including the first `0xff`**, at
most 128 of them: a byte `0xff` in the controller ends it as an empty
controller does. -/
theorem kbdFlushBuffer_eq (ctrl : Controller) :
    kbdFlushBuffer ctrl = ctrl.drop (min 128 ((ctrl.takeWhile (· ≠ keyNone)).length + 1)) :=
  flushLoop_eq 128 ctrl

end Keyboard

end Mcube
