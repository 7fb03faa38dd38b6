import Mathlib.Data.List.Sort
import Mathlib.Data.List.DropRight
import Mathlib.Logic.Function.Basic

/-!
# The kernel shell

`kshell()` in `arch/x86/shell.c` sorts its table of commands, prints the
prompt and then runs its active mode, forever. In command mode
(`command_run`) every key read is edited into a line kept in `char cmd[256]`
and its length `cmdlen`: a printable character is stored at `cmd[cmdlen]` and
echoed while fewer than 255 are held, a backspace drops the last one, and
Enter strips the trailing spaces, writes the NUL at `cmd[cmdlen]` and hands
the string to `command_exec`, which runs the command of that name or answers
`Unknown command`. The command `kc` switches to keycode mode
(`keycode_run`), which reports every key until an Alt-Tab release brings the
prompt back.

The line lives in the array without ever being cleared: a backspace only
moves `cmdlen`, and the bytes of a longer earlier line stay behind it. What
the shell is for says nothing of arrays: the user types a line, and Enter
runs that line. `Spec` is that shell, with the line a list, and
`kshell_refines` proves that for every sequence of keys, whatever the array
held at first, the shell is in the same mode as the list-based one, has sent
the console exactly what it sent, and holds its line in `cmd[0 .. cmdlen)`:
no stale byte is ever run, and the strip loop and the NUL of `command_run`
end the string where the stripped line ends. `cmdlen` is a `Fin 256`, so a
state with it outside the array cannot be built.

`kb_getkey`, the TTY functions, `qsort` and the bodies of the commands that
read the ACPI tables or build a heap are not among the sources: a key is the
record `kb_getkey` fills, what goes to the console is the list of calls on
the TTY with their arguments, `qsort` of the table (whose names are distinct)
is the one sorted table, and each of those bodies is one output. `halt()`
only waits for the next key.
-/

namespace Mcube

namespace Shell

open Function

/-! ## Keys, the console and the commands -/

/-- `KEYBRK_DOWN` and `KEYBRK_UP`. -/
inductive KeyBrk
  | down
  | up
  deriving DecidableEq, Repr

/-- `keyboard_t`, the key `kb_getkey` reads, with the fields the shell looks at. -/
structure Key where
  ch : Char
  brk : KeyBrk
  code : ℕ
  meta : ℕ
  deriving DecidableEq, Repr

/-- The keyboard driver's `KEY_ENTER`, `KEY_BACKSPACE`, `KEY_TAB` and `META_ALT`. -/
structure Codes where
  keyEnter : ℕ
  keyBackspace : ℕ
  keyTab : ℕ
  metaAlt : ℕ

/-- An argument of `tty_printf`. -/
inductive Arg
  | str (s : List Char)
  | char (c : Char)
  | num (n : ℕ)
  deriving DecidableEq, Repr

/-- A call of the shell on `TTY_CONSOLE`, or the work of a command whose body
the model does not have. -/
inductive Out
  | print (s : String)
  | printc (c : Char)
  | printf (fmt : String) (args : List Arg)
  | body (name : String)
  deriving DecidableEq, Repr

/-- The functions of the commands. -/
inductive Action
  | displayHelp
  | displayApic
  | displayPci
  | displayPcie
  | switchToKeycodes
  | testHeap
  deriving DecidableEq, Repr

/-- `struct cmd`: the name, the help text (`NULL` for `?`) and the function. -/
structure Cmd where
  str : String
  help : Option String
  run : Action
  deriving DecidableEq, Repr

/-- `commands[]`, in the source's order. -/
def commands : List Cmd :=
  [⟨"?", none, .displayHelp⟩,
   ⟨"help", some "Show this help text", .displayHelp⟩,
   ⟨"apic", some "Show APIC configuration", .displayApic⟩,
   ⟨"pci", some "Show PCI devices", .displayPci⟩,
   ⟨"pcie", some "Show PCIexpress configuration", .displayPcie⟩,
   ⟨"kc", some "Switch to keycode display mode", .switchToKeycodes⟩,
   ⟨"heap", some "Test heap allocation", .testHeap⟩]

/-- Whether `strcmp(s₁, s₂) <= 0`: the first character that differs decides,
and a string that ends first comes first. -/
def strcmpLe : List Char → List Char → Bool
  | [], _ => true
  | _ :: _, [] => false
  | a :: s₁, b :: s₂ => if a = b then strcmpLe s₁ s₂ else a.toNat < b.toNat

/-- `cmp_cmds`: the order of `strcmp` on the names. -/
def cmpCmds (c₁ c₂ : Cmd) : Prop := strcmpLe c₁.str.toList c₂.str.toList = true

instance : DecidableRel cmpCmds := fun c₁ c₂ =>
  inferInstanceAs (Decidable (strcmpLe c₁.str.toList c₂.str.toList = true))

/-- `commands[]` after `qsort(commands, arrsize(commands), sizeof(struct cmd),
cmp_cmds)`: the names are distinct, so it is the one sorted table. -/
def sortedCommands : List Cmd := commands.insertionSort cmpCmds

example : sortedCommands.map Cmd.str = ["?", "apic", "heap", "help", "kc", "pci", "pcie"] := by
  decide

/-- `shell_mode_t`: `mode_command` and `mode_keycode`. -/
inductive Mode
  | command
  | keycode
  deriving DecidableEq, Repr

/-- `command_prompt`. -/
def commandPrompt : List Out := [.print "> "]

/-- The `start` function of a mode: `command_prompt` for `mode_command`, none
for `mode_keycode`. -/
def Mode.start : Mode → List Out
  | .command => commandPrompt
  | .keycode => []

/-- `switch_mode(mode)`: neither mode has a `stop` function. -/
def switchMode (mode : Mode) : Mode × List Out := (mode, mode.start)

/-- `cmd_display_help`: the commands that have a help text, in the table's
order. -/
def cmdDisplayHelp (table : List Cmd) : List Out :=
  .print "Available commands:\n" ::
    table.filterMap fun c => c.help.map fun h => .printf "  %-8s %s\n" [.str c.str.toList, .str h.toList]

/-- A command's function: what it sends to the console, whether the shell goes
on reading commands, and the active mode after it. -/
def runAction (table : List Cmd) (mode : Mode) : Action → List Out × Bool × Mode
  | .displayHelp => (cmdDisplayHelp table, true, mode)
  | .displayApic => ([.body "apic"], true, mode)
  | .displayPci => ([], true, mode)
  | .displayPcie => ([.body "pcie"], true, mode)
  | .switchToKeycodes =>
    (.print "Entering keycode mode. Hit Alt-Tab to exit.\n" :: (switchMode .keycode).2, false,
      (switchMode .keycode).1)
  | .testHeap => ([.body "heap"], true, mode)

/-- `command_exec(cmd)`, on the string `cmd` points to. -/
def commandExec (table : List Cmd) (mode : Mode) (cmd : List Char) : List Out × Bool × Mode :=
  if cmd = [] then ([], true, mode)
  else
    match table.find? fun c => c.str.toList = cmd with
    | some c => runAction table mode c.run
    | none => ([.printf "Unknown command: %s\n" [.str cmd]], true, mode)

/-- What `command_run` sends after Enter: the newline, the command's output,
and the prompt if the shell goes on. -/
def enterOut (out : List Out) (cont : Bool) : List Out :=
  .printc '\n' :: out ++ if cont then commandPrompt else []

/-- What `keycode_run` reports of a key. -/
def keycodeReport (key : Key) : Out :=
  let brk := if key.brk = .up then 'e' else '2'
  if key.ch ≠ Char.ofNat 0 then
    .printf "Keycode: \x1b[%c]%02x\x1b[-] meta=%02x \x27%c\x27\n"
      [.char brk, .num key.code, .num key.meta, .char key.ch]
  else .printf "Keycode: \x1b[%c]%02x\x1b[-] meta=%02x\n" [.char brk, .num key.code, .num key.meta]

/-- The key that ends keycode mode: Alt-Tab, released. -/
def AltTab (codes : Codes) (key : Key) : Prop :=
  key.brk = .up ∧ key.meta &&& codes.metaAlt ≠ 0 ∧ key.code = codes.keyTab

instance (codes : Codes) (key : Key) : Decidable (AltTab codes key) :=
  inferInstanceAs (Decidable (_ ∧ _))

/-! ## The shell -/

/-- The NUL character. -/
def nul : Char := Char.ofNat 0

/-- The characters `command_run` stores: `key.ch >= 32 && key.ch < 127`. -/
def Printable (c : Char) : Prop := 32 ≤ c.toNat ∧ c.toNat < 127

instance : DecidablePred Printable := fun c => inferInstanceAs (Decidable (32 ≤ c.toNat ∧ c.toNat < 127))

/-- The string at `cmd`: the characters before the first NUL. -/
def cString (cmd : Fin 256 → Char) : List Char := (List.ofFn cmd).takeWhile fun c => c ≠ nul

/-- `while (cmdlen > 0 && cmd[cmdlen - 1] == ' ') cmdlen--;` -/
def stripLoop (cmd : Fin 256 → Char) : (n : ℕ) → n < 256 → ℕ
  | 0, _ => 0
  | n + 1, h => if cmd ⟨n, by omega⟩ = ' ' then stripLoop cmd n (by omega) else n + 1

theorem stripLoop_le (cmd : Fin 256 → Char) : ∀ n h, stripLoop cmd n h ≤ n
  | 0, _ => le_rfl
  | n + 1, h => by
    unfold stripLoop
    split_ifs
    exacts [(stripLoop_le cmd n _).trans n.le_succ, le_rfl]

/-- The locals `cmd` and `cmdlen` of `command_run`. -/
structure Line where
  cmd : Fin 256 → Char
  cmdlen : Fin 256

/-- The shell: the active mode, the line of `command_run`, and the calls on the
console so far. -/
structure State where
  mode : Mode
  line : Line
  out : List Out

/-- A key in command mode: the body of `command_run`'s inner loop. -/
def commandKey (codes : Codes) (table : List Cmd) (s : State) (key : Key) : State :=
  if Printable key.ch then
    if h : s.line.cmdlen.val < 255 then
      { s with
        line := ⟨update s.line.cmd s.line.cmdlen key.ch, ⟨s.line.cmdlen + 1, by omega⟩⟩
        out := s.out ++ [.printc key.ch] }
    else s
  else if key.brk = .down then
    if key.code = codes.keyEnter then
      let n : Fin 256 := ⟨stripLoop s.line.cmd s.line.cmdlen s.line.cmdlen.isLt,
        (stripLoop_le _ _ _).trans_lt s.line.cmdlen.isLt⟩
      let cmd := update s.line.cmd n nul
      let r := commandExec table s.mode (cString cmd)
      ⟨r.2.2, ⟨cmd, 0⟩, s.out ++ enterOut r.1 r.2.1⟩
    else if h : key.code = codes.keyBackspace ∧ 0 < s.line.cmdlen.val then
      { s with line := ⟨s.line.cmd, ⟨s.line.cmdlen - 1, by omega⟩⟩, out := s.out ++ [.printc '\x08'] }
    else s
  else s

/-- A key in keycode mode: the body of `keycode_run`'s inner loop. Alt-Tab
switches back to command mode, whose `command_run` starts with `cmdlen = 0`. -/
def keycodeKey (codes : Codes) (s : State) (key : Key) : State :=
  if AltTab codes key then
    ⟨(switchMode .command).1, { s.line with cmdlen := 0 },
      s.out ++ keycodeReport key :: (switchMode .command).2⟩
  else { s with out := s.out ++ [keycodeReport key] }

/-- The shell reads a key: the active mode's `run` reads the keys one after
the other. -/
def step (codes : Codes) (table : List Cmd) (s : State) (key : Key) : State :=
  match s.mode with
  | .command => commandKey codes table s key
  | .keycode => keycodeKey codes s key

/-- `kshell()` after the `qsort` and `active_mode->start()`, with `cmd[]` holding
whatever the stack held. -/
def kshellInit (cmd : Fin 256 → Char) : State := ⟨.command, ⟨cmd, 0⟩, Mode.command.start⟩

/-- The shell after the keys `keys`. -/
def kshell (codes : Codes) (cmd : Fin 256 → Char) (keys : List Key) : State :=
  keys.foldl (step codes sortedCommands) (kshellInit cmd)

/-! ## The shell its user sees -/

/-- The shell with the line typed so far as a list. -/
structure Spec where
  mode : Mode
  line : List Char
  out : List Out

/-- A key of the list-based shell: a printable character is added while the
line is shorter than 255, a backspace removes the last one, and Enter runs the
line without its trailing spaces. -/
def Spec.step (codes : Codes) (table : List Cmd) (t : Spec) (key : Key) : Spec :=
  match t.mode with
  | .command =>
    if Printable key.ch then
      if t.line.length < 255 then { t with line := t.line ++ [key.ch], out := t.out ++ [.printc key.ch] }
      else t
    else if key.brk = .down then
      if key.code = codes.keyEnter then
        let r := commandExec table t.mode (t.line.rdropWhile (· = ' '))
        ⟨r.2.2, [], t.out ++ enterOut r.1 r.2.1⟩
      else if key.code = codes.keyBackspace ∧ t.line ≠ [] then
        { t with line := t.line.dropLast, out := t.out ++ [.printc '\x08'] }
      else t
    else t
  | .keycode =>
    if AltTab codes key then
      ⟨(switchMode .command).1, [], t.out ++ keycodeReport key :: (switchMode .command).2⟩
    else { t with out := t.out ++ [keycodeReport key] }

/-- The list-based shell after the keys `keys`. -/
def Spec.run (codes : Codes) (keys : List Key) : Spec :=
  keys.foldl (Spec.step codes sortedCommands) ⟨.command, [], Mode.command.start⟩

/-! ## The line in the array -/

/-- The first `n` bytes of `cmd` are the line `w`, all printable. -/
structure Holds (cmd : Fin 256 → Char) (n : ℕ) (w : List Char) : Prop where
  length : w.length = n
  get : ∀ i : Fin 256, i.val < n → w[i.val]? = some (cmd i)
  printable : ∀ c ∈ w, Printable c

section Holds

variable {cmd : Fin 256 → Char} {n : ℕ} {w : List Char}

theorem holds_nil (cmd : Fin 256 → Char) : Holds cmd 0 [] :=
  ⟨rfl, fun _ h => absurd h (Nat.not_lt_zero _), fun _ h => absurd h (List.not_mem_nil _)⟩

/-- Storing a printable character at `cmd[n]` adds it to the line. -/
theorem Holds.push (h : Holds cmd n w) {c : Char} (hc : Printable c) (hn : n < 256) :
    Holds (update cmd ⟨n, hn⟩ c) (n + 1) (w ++ [c]) := by
  refine ⟨by rw [List.length_append, h.length, List.length_singleton], fun i hi => ?_, ?_⟩
  · rcases Nat.lt_succ_iff_lt_or_eq.mp hi with hi | hi
    · rw [update_noteq (Fin.ne_of_val_ne (show i.val ≠ n by omega)),
        List.getElem?_append_left (h.length ▸ hi)]
      exact h.get i hi
    · obtain rfl : i = ⟨n, hn⟩ := Fin.ext hi
      rw [update_same]
      show (w ++ [c])[n]? = some c
      rw [← h.length, List.getElem?_concat_length]
  · simpa only [List.mem_append, List.mem_singleton] using fun c' hc' => hc'.elim (h.printable c') (· ▸ hc)

/-- A prefix of the line is held in as many bytes as it has. -/
theorem Holds.leading (h : Holds cmd n w) {p : List Char} (hp : p <+: w) : Holds cmd p.length p := by
  obtain ⟨r, rfl⟩ := hp
  refine ⟨rfl, fun i hi => ?_, fun c hc => h.printable c (List.mem_append_left r hc)⟩
  rw [← List.getElem?_append_left hi]
  exact h.get i (by rw [← h.length, List.length_append]; omega)

theorem Holds.dropLast (h : Holds cmd n w) : Holds cmd (n - 1) w.dropLast := by
  have := h.leading (List.dropLast_prefix w)
  rwa [List.length_dropLast, h.length] at this

/-- **The strip loop stops where the stripped line ends.** -/
theorem Holds.stripLoop (h : Holds cmd n w) (hn : n < 256) :
    stripLoop cmd n hn = (w.rdropWhile (· = ' ')).length := by
  induction w using List.reverseRecOn generalizing n with
  | nil => obtain rfl : n = 0 := h.length.symm; rfl
  | append_singleton w c ih =>
    obtain rfl : n = w.length + 1 := by rw [← h.length, List.length_append, List.length_singleton]
    have hk : cmd ⟨w.length, by omega⟩ = c := by
      have := h.get ⟨w.length, by omega⟩ (Nat.lt_succ_self _)
      rw [List.getElem?_concat_length, Option.some_inj] at this
      exact this.symm
    rw [Mcube.Shell.stripLoop, hk]
    by_cases hc : c = ' '
    · rw [if_pos hc, List.rdropWhile_concat_pos _ _ _ (by simpa using hc)]
      exact ih (h.leading (List.prefix_append w [c])) _
    · rw [if_neg hc, List.rdropWhile_concat_neg _ _ _ (by simpa using hc), List.length_append]
      rfl

/-- **The string at `cmd` is the line**, once the NUL is written after it. -/
theorem Holds.cString (h : Holds cmd n w) (j : Fin 256) (hj : j.val = n) :
    cString (update cmd j nul) = w := by
  obtain ⟨m, hm⟩ := j
  obtain rfl : m = n := hj
  set cmd' := update cmd ⟨m, hm⟩ nul
  have hl : (List.ofFn cmd').length = 256 := List.length_ofFn _
  have htake : (List.ofFn cmd').take m = w := by
    refine List.ext_getElem (by rw [List.length_take, hl, h.length]; omega) fun i h₁ h₂ => ?_
    have hi : i < m := h.length ▸ h₂
    have := h.get ⟨i, by omega⟩ hi
    rw [List.getElem?_eq_getElem h₂, Option.some_inj] at this
    rw [List.getElem_take, List.getElem_ofFn, this]
    exact update_noteq (Fin.ne_of_val_ne (show i ≠ m by omega)) _ _
  have hdrop : (List.ofFn cmd').drop m = nul :: (List.ofFn cmd').drop (m + 1) := by
    rw [List.drop_eq_getElem_cons (by omega), List.getElem_ofFn,
      show cmd' ⟨m, _⟩ = nul from update_same _ _ _]
  unfold Mcube.Shell.cString
  rw [← List.take_append_drop m (List.ofFn cmd'), htake, hdrop,
    List.takeWhile_append_of_pos fun c hc => ?_, List.takeWhile_cons_of_neg (by simp),
    List.append_nil]
  have := (h.printable c hc).1
  simp only [decide_eq_true_eq]
  rintro rfl
  exact absurd this (by decide)

end Holds

/-! ## The shell refines the list-based shell -/

/-- The shell and the list-based shell agree: the same mode, the same calls on
the console, and the line held in `cmd[0 .. cmdlen)`. -/
structure Refines (s : State) (t : Spec) : Prop where
  mode : s.mode = t.mode
  out : s.out = t.out
  line : Holds s.line.cmd s.line.cmdlen t.line

section Refines

variable {codes : Codes} {table : List Cmd} {s : State} {t : Spec} {key : Key}

theorem Refines.commandKey (h : Refines s t) (hm : t.mode = .command) :
    Refines (commandKey codes table s key) (t.step codes table key) := by
  have hlen : s.line.cmdlen.val = t.line.length := h.line.length.symm
  unfold Mcube.Shell.commandKey Spec.step
  rw [hm]
  dsimp only
  by_cases hp : Printable key.ch
  · rw [if_pos hp, if_pos hp]
    by_cases hl : s.line.cmdlen.val < 255
    · rw [dif_pos hl, if_pos (hlen ▸ hl)]
      exact ⟨h.mode.trans hm, by rw [h.out], h.line.push hp _⟩
    · rw [dif_neg hl, if_neg (hlen ▸ hl)]
      exact h
  rw [if_neg hp, if_neg hp]
  by_cases hd : key.brk = .down
  · rw [if_pos hd, if_pos hd]
    by_cases he : key.code = codes.keyEnter
    · rw [if_pos he, if_pos he, (h.line.leading (List.rdropWhile_prefix _ _)).cString _
        (h.line.stripLoop s.line.cmdlen.isLt), h.mode, hm]
      exact ⟨rfl, by rw [h.out], holds_nil _⟩
    rw [if_neg he, if_neg he]
    by_cases hb : key.code = codes.keyBackspace ∧ 0 < s.line.cmdlen.val
    · rw [dif_pos hb, if_pos ⟨hb.1, List.ne_nil_of_length_pos (hlen ▸ hb.2)⟩]
      exact ⟨h.mode.trans hm, by rw [h.out], h.line.dropLast⟩
    · rw [dif_neg hb, if_neg fun hb' => hb ⟨hb'.1, hlen ▸ List.length_pos.mpr hb'.2⟩]
      exact h
  · rw [if_neg hd, if_neg hd]
    exact h

theorem Refines.keycodeKey (h : Refines s t) (hm : t.mode = .keycode) :
    Refines (keycodeKey codes s key) (t.step codes table key) := by
  unfold Mcube.Shell.keycodeKey Spec.step
  rw [hm]
  dsimp only
  split_ifs
  · exact ⟨rfl, by rw [h.out], holds_nil _⟩
  · exact ⟨h.mode.trans hm, by rw [h.out], h.line⟩

theorem Refines.step (h : Refines s t) : Refines (step codes table s key) (t.step codes table key) := by
  unfold Mcube.Shell.step
  cases hm : s.mode
  · exact h.commandKey (h.mode ▸ hm)
  · exact h.keycodeKey (h.mode ▸ hm)

end Refines

/-- **The shell runs the lines its user typed.** For every sequence of keys and
whatever `cmd[]` held at first, the shell is in the mode of the list-based
shell, has made the same calls on the console, and holds its line in
`cmd[0 .. cmdlen)`. -/
theorem kshell_refines (codes : Codes) (cmd : Fin 256 → Char) (keys : List Key) :
    Refines (kshell codes cmd keys) (Spec.run codes keys) := by
  unfold kshell Spec.run
  suffices ∀ (s : State) (t : Spec), Refines s t →
      Refines (keys.foldl (step codes sortedCommands) s) (keys.foldl (Spec.step codes sortedCommands) t) from
    this _ _ ⟨rfl, rfl, holds_nil cmd⟩
  induction keys with
  | nil => exact fun _ _ h => h
  | cons key keys ih => exact fun _ _ h => ih _ _ h.step

end Shell

end Mcube
