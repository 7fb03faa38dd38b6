import Mcube.MpTables
import Mcube.Ioapic

/-!
# Parsing the MP configuration table

`mptables_init()` in `arch/x86_64/mptables.c` finds the MP floating pointer
with `get_mpf()`, checks the configuration table it points to with
`mpc_check()`, and hands the table's entries to `parse_mpc()`. That loop reads
`mpc->entries` entries one after the other, each starting with its type byte,
and copies what the kernel needs into the system-wide tables:

* `parse_cpu` the local APIC id of each enabled processor, the bootstrap one
  into `cpus[0]` and the others after it, counted by `nr_cpus`;
* `parse_bus` the id of an `"ISA"` bus into `mp_isa_busid`;
* `parse_ioapic` the id and base of each enabled I/O APIC into
  `ioapic_descs[]`, counted by `nr_ioapics`;
* `parse_irq` each I/O interrupt entry into `mp_irqs[]`, counted by
  `nr_mpcirqs`.

A second bootstrap processor and a table of any kind that is full are
`panic`s; an entry of an unknown type makes `parse_mpc` return 0, and
`mptables_init` panics then. The result is stated against the list of entries
the table holds (`entriesFrom`): `parse_mpc` succeeds exactly when every entry
has a known type and the enabled entries fit (`Admissible`), and then the
tables are the enabled entries in table order (`parsed`). These tables are
what `ioapic_init` starts from (`Mcube.Ioapic`).

`mptables.h` is not among the sources. The layout follows the MultiProcessor
Specification that the file cites: a 44-byte table header with `length` at
offset 4, `version` at 6 and `entries` at 34; processor entries of 20 bytes
(`lapic_id` at 1, `enabled` and `bsc` the bits 0 and 1 of byte 3), and bus,
I/O APIC, I/O interrupt and local interrupt entries of 8 bytes (bus `id` at 1
and its type string at 2; I/O APIC `id` at 1, `enabled` bit 0 of byte 3,
`base` at 4; the interrupt entry's type at 1 and its source bus, source IRQ,
destination I/O APIC id and pin at 4 to 7). `CPUS_MAX` and `MAX_IRQS` are
not among the sources either and are parameters. `vm_kmap`, which maps each
entry before it is read, is the identity here: memory is one byte per
physical address.
-/

namespace Mcube

namespace MpConfig

open E820 (read32)
open MpTables (mpfChecksum mpfSize searchForMpf)
open Ioapic (IoapicDesc MpIrq)
open VmMap (Fault)

/-! ## The table and its entries -/

/-- A little-endian `uint16_t` at `a`. -/
def read16 (mem : ℕ → UInt8) (a : ℕ) : ℕ := (mem a).toNat + 2 ^ 8 * (mem (a + 1)).toNat

/-- `MPC_SIGNATURE`: `"PCMP"` read as a little-endian `uint32_t`. -/
def mpcSignature : ℕ := 0x504d4350

/-- `sizeof(struct mpc_table)`. -/
def mpcTableSize : ℕ := 44

/-- `mpc_check(mpc)`: the signature, the version and the checksum of the
`length` bytes of the table. -/
def mpcCheck (mem : ℕ → UInt8) (mpc : ℕ) : Bool :=
  decide (read32 mem mpc = mpcSignature ∧
    ((mem (mpc + 6)).toNat = 0x01 ∨ (mem (mpc + 6)).toNat = 0x04) ∧
    mpfChecksum mem mpc (read16 mem (mpc + 4)) = 0)

/-- `IOAPICS_MAX`. -/
def ioapicsMax : ℕ := 8

/-- `MP_PROCESSOR`, `MP_BUS`, `MP_IOAPIC`, `MP_IOINTERRUPT` and
`MP_LINTERRUPT`. -/
def mpProcessor : ℕ := 0
def mpBus : ℕ := 1
def mpIoapic : ℕ := 2
def mpIointerrupt : ℕ := 3
def mpLinterrupt : ℕ := 4

/-- The fields of a `struct mpc_cpu` that `parse_cpu` reads. -/
structure MpcCpu where
  lapicId : ℕ
  enabled : Bool
  bsc : Bool
  deriving DecidableEq, Repr

/-- The fields of a `struct mpc_bus` that `parse_bus` reads: its id, and
whether its type starts with `"ISA"`. -/
structure MpcBus where
  id : ℕ
  isa : Bool
  deriving DecidableEq, Repr

/-- The fields of a `struct mpc_ioapic` that `parse_ioapic` reads. -/
structure MpcIoapic where
  id : ℕ
  enabled : Bool
  base : ℕ
  deriving DecidableEq, Repr

/-- `struct mpc_cpu` at `a`. -/
def MpcCpu.read (mem : ℕ → UInt8) (a : ℕ) : MpcCpu :=
  ⟨(mem (a + 1)).toNat, (mem (a + 3)).toNat.testBit 0, (mem (a + 3)).toNat.testBit 1⟩

/-- `struct mpc_bus` at `a`; `memcmp("ISA", bus->type, 3) == 0`. -/
def MpcBus.read (mem : ℕ → UInt8) (a : ℕ) : MpcBus :=
  ⟨(mem (a + 1)).toNat, decide (mem (a + 2) = 0x49 ∧ mem (a + 3) = 0x53 ∧ mem (a + 4) = 0x41)⟩

/-- `struct mpc_ioapic` at `a`. -/
def MpcIoapic.read (mem : ℕ → UInt8) (a : ℕ) : MpcIoapic :=
  ⟨(mem (a + 1)).toNat, (mem (a + 3)).toNat.testBit 0, read32 mem (a + 4)⟩

/-- `struct mpc_irq` at `a`, the fields `ioapic_isa_pin` reads. -/
def readIrq (mem : ℕ → UInt8) (a : ℕ) : MpIrq :=
  ⟨(mem (a + 1)).toNat, (mem (a + 4)).toNat, (mem (a + 5)).toNat, (mem (a + 6)).toNat,
    (mem (a + 7)).toNat⟩

/-! ## The tables the parsers fill -/

/-- What the parsers write: `cpus[0].apic_id`, `cpus[1 .. nr_cpus)`, the
static `bsc_entry_filled`, `ioapic_descs[0 .. nr_ioapics)`, `mp_isa_busid`
and `mp_irqs[0 .. nr_mpcirqs)`. Each count is the length of its list, so
`nr_cpus` is `aps.length + 1`, slot 0 being the bootstrap core's. -/
structure MpState where
  bsp : ℕ
  aps : List ℕ
  bscEntryFilled : Bool
  descs : List IoapicDesc
  isaBusid : ℤ
  irqs : List MpIrq
  deriving DecidableEq, Repr

/-- The tables before `mptables_init`: `nr_cpus = 1`, `mp_isa_busid = -1`,
the static ones zero. -/
def MpState.boot : MpState := ⟨0, [], false, [], -1, []⟩

/-- `mptables_get_nr_cpus()`; its `assert(nr_cpus > 0)` always holds. -/
def MpState.nrCpus (s : MpState) : ℕ := s.aps.length + 1

section Parsers

variable (cpusMax maxIrqs : ℕ)

/-- `parse_cpu`. -/
def parseCpu (s : MpState) (cpu : MpcCpu) : Except Fault MpState :=
  if !cpu.enabled then pure s
  else if cpu.bsc then
    if s.bscEntryFilled then
      throw (.panic "Two `bootstrap' cores in the MP tables! Either the BIOS or our parser is buggy.")
    else pure { s with bsp := cpu.lapicId, bscEntryFilled := true }
  else if cpusMax ≤ s.nrCpus then throw (.panic "Only %d logical CPU cores supported\n")
  else pure { s with aps := s.aps ++ [cpu.lapicId] }

/-- `parse_bus`. -/
def parseBus (s : MpState) (bus : MpcBus) : MpState :=
  if bus.isa then { s with isaBusid := bus.id } else s

/-- `parse_ioapic`: the slot it fills keeps the zero `version` and `max_irq`
of the static array. -/
def parseIoapic (s : MpState) (ioapic : MpcIoapic) : Except Fault MpState :=
  if !ioapic.enabled then pure s
  else if ioapicsMax ≤ s.descs.length then throw (.panic "Only %d IO APICs supported")
  else pure { s with descs := s.descs ++ [{ (default : IoapicDesc) with id := ioapic.id, base := ioapic.base }] }

/-- `parse_irq`. -/
def parseIrq (s : MpState) (irq : MpIrq) : Except Fault MpState :=
  if maxIrqs ≤ s.irqs.length then throw (.panic "Only %d IRQ sources supported")
  else pure { s with irqs := s.irqs ++ [irq] }

/-- The `for` loop of `parse_mpc`, with `n` entries left to read at `entry`:
`false` is the `return 0` of an unknown entry type. -/
def parseLoop (mem : ℕ → UInt8) : ℕ → ℕ → MpState → Except Fault (Bool × MpState)
  | 0, _, s => pure (true, s)
  | n + 1, entry, s =>
    let type := (mem entry).toNat
    if type = mpProcessor then do
      let s ← parseCpu cpusMax s (MpcCpu.read mem entry)
      parseLoop mem n (entry + 20) s
    else if type = mpBus then
      parseLoop mem n (entry + 8) (parseBus s (MpcBus.read mem entry))
    else if type = mpIoapic then do
      let s ← parseIoapic s (MpcIoapic.read mem entry)
      parseLoop mem n (entry + 8) s
    else if type = mpIointerrupt then do
      let s ← parseIrq maxIrqs s (readIrq mem entry)
      parseLoop mem n (entry + 8) s
    else if type = mpLinterrupt then parseLoop mem n (entry + 8) s
    else pure (false, s)

/-- `parse_mpc(mpc)`: `mpc->entries` entries, from just after the header. -/
def parseMpc (mem : ℕ → UInt8) (mpc : ℕ) (s : MpState) : Except Fault (Bool × MpState) :=
  parseLoop cpusMax maxIrqs mem (read16 mem (mpc + 34)) (mpc + mpcTableSize) s

end Parsers

/-! ## The entries of a table -/

/-- An entry of the configuration table, as its parser reads it. -/
inductive MpcEntry
  | cpu (cpu : MpcCpu)
  | bus (bus : MpcBus)
  | ioapic (ioapic : MpcIoapic)
  | irq (irq : MpIrq)
  | lint
  deriving DecidableEq, Repr

/-- The entry at `a` and the size `parse_mpc` steps over it by; `none` for
an unknown type. -/
def entryAt (mem : ℕ → UInt8) (a : ℕ) : Option (MpcEntry × ℕ) :=
  let type := (mem a).toNat
  if type = mpProcessor then some (.cpu (MpcCpu.read mem a), 20)
  else if type = mpBus then some (.bus (MpcBus.read mem a), 8)
  else if type = mpIoapic then some (.ioapic (MpcIoapic.read mem a), 8)
  else if type = mpIointerrupt then some (.irq (readIrq mem a), 8)
  else if type = mpLinterrupt then some (.lint, 8)
  else none

/-- The `n` entries from `a`, up to the first of an unknown type, and whether
all `n` have a known type. -/
def entriesFrom (mem : ℕ → UInt8) : ℕ → ℕ → List MpcEntry × Bool
  | 0, _ => ([], true)
  | n + 1, a =>
    match entryAt mem a with
    | none => ([], false)
    | some (e, size) => ((entriesFrom mem n (a + size)).1.cons e, (entriesFrom mem n (a + size)).2)

/-- The entries of the table at `mpc`, as `parse_mpc` counts them. -/
def mpcEntries (mem : ℕ → UInt8) (mpc : ℕ) : List MpcEntry × Bool :=
  entriesFrom mem (read16 mem (mpc + 34)) (mpc + mpcTableSize)

section Entries

variable (cpusMax maxIrqs : ℕ)

/-- An entry through its parser. -/
def parseEntry (s : MpState) : MpcEntry → Except Fault MpState
  | .cpu cpu => parseCpu cpusMax s cpu
  | .bus bus => pure (parseBus s bus)
  | .ioapic ioapic => parseIoapic s ioapic
  | .irq irq => parseIrq maxIrqs s irq
  | .lint => pure s

end Entries

/-! ## The loop is the entries through their parsers -/

/-- `Except`'s `bind` succeeds when both of its parts do. -/
theorem bind_eq_ok {ε α β : Type} {x : Except ε α} {f : α → Except ε β} {b : β} :
    x >>= f = .ok b ↔ ∃ a, x = .ok a ∧ f a = .ok b := by
  cases x <;> simp [bind, Except.bind]

section Loop

variable {cpusMax maxIrqs : ℕ} {mem : ℕ → UInt8}

theorem parseLoop_succ (n a : ℕ) (s : MpState) :
    parseLoop cpusMax maxIrqs mem (n + 1) a s =
      match entryAt mem a with
      | none => pure (false, s)
      | some (e, size) => parseEntry cpusMax maxIrqs s e >>= parseLoop cpusMax maxIrqs mem n (a + size) := by
  simp only [parseLoop, entryAt]
  generalize (mem a).toNat = type
  rcases type with _ | _ | _ | _ | _ | type <;> rfl

/-- **The loop of `parse_mpc` reads the entries and runs their parsers**, in
table order, up to the first entry of an unknown type. -/
theorem parseLoop_eq (n a : ℕ) (s : MpState) :
    parseLoop cpusMax maxIrqs mem n a s = (fun s => ((entriesFrom mem n a).2, s)) <$>
      (entriesFrom mem n a).1.foldlM (parseEntry cpusMax maxIrqs) s := by
  induction n generalizing a s with
  | zero => rfl
  | succ n ih =>
    rw [parseLoop_succ, entriesFrom]
    rcases entryAt mem a with _ | ⟨e, size⟩
    · rfl
    · simp only [List.foldlM_cons, map_bind, ← ih]

end Loop

/-! ## What the parsers leave

The tables a parse leaves, and when it panics, stated over the list of
entries: the enabled entries of each kind, in table order. -/

namespace MpcEntry

/-- The local APIC id an enabled processor other than the bootstrap one
adds to `cpus[1 ..]`. -/
def apOf : MpcEntry → Option ℕ
  | cpu c => if c.enabled && !c.bsc then some c.lapicId else none
  | _ => none

/-- The local APIC id of an enabled bootstrap processor. -/
def bscOf : MpcEntry → Option ℕ
  | cpu c => if c.enabled && c.bsc then some c.lapicId else none
  | _ => none

/-- The descriptor `parse_ioapic` makes of an enabled I/O APIC. -/
def ioapicOf : MpcEntry → Option IoapicDesc
  | ioapic io =>
    if io.enabled then some { (default : IoapicDesc) with id := io.id, base := io.base } else none
  | _ => none

/-- An I/O interrupt entry. -/
def irqOf : MpcEntry → Option MpIrq
  | irq e => some e
  | _ => none

/-- The id of an `"ISA"` bus. -/
def isaBusOf : MpcEntry → Option ℤ
  | bus b => if b.isa then some b.id else none
  | _ => none

end MpcEntry

/-- The tables after the entries `l`: the id of the last bootstrap
processor, the other enabled processors, I/O APICs and interrupt entries
appended in table order, and the id of the last `"ISA"` bus. -/
def parsed (s : MpState) (l : List MpcEntry) : MpState where
  bsp := (l.filterMap MpcEntry.bscOf).getLastD s.bsp
  aps := s.aps ++ l.filterMap MpcEntry.apOf
  bscEntryFilled := s.bscEntryFilled || !(l.filterMap MpcEntry.bscOf).isEmpty
  descs := s.descs ++ l.filterMap MpcEntry.ioapicOf
  isaBusid := (l.filterMap MpcEntry.isaBusOf).getLastD s.isaBusid
  irqs := s.irqs ++ l.filterMap MpcEntry.irqOf

@[simp] theorem parsed_nil (s : MpState) : parsed s [] = s := by
  simp [parsed]

/-- `k` more entries fit in a table of capacity `cap` holding `m`. -/
def Fits (m k cap : ℕ) : Prop := k = 0 ∨ m + k ≤ cap

instance (m k cap : ℕ) : Decidable (Fits m k cap) := inferInstanceAs (Decidable (_ ∨ _))

/-- **No parser panics on the entries `l`**: one bootstrap processor at most,
and the other processors, the I/O APICs and the interrupt entries fit in
`cpus[CPUS_MAX]`, `ioapic_descs[IOAPICS_MAX]` and `mp_irqs[MAX_IRQS]`. -/
def Admissible (cpusMax maxIrqs : ℕ) (s : MpState) (l : List MpcEntry) : Prop :=
  (l.filterMap MpcEntry.bscOf).length + s.bscEntryFilled.toNat ≤ 1 ∧
    Fits s.nrCpus (l.filterMap MpcEntry.apOf).length cpusMax ∧
    Fits s.descs.length (l.filterMap MpcEntry.ioapicOf).length ioapicsMax ∧
    Fits s.irqs.length (l.filterMap MpcEntry.irqOf).length maxIrqs

instance (cpusMax maxIrqs : ℕ) (s : MpState) (l : List MpcEntry) :
    Decidable (Admissible cpusMax maxIrqs s l) :=
  inferInstanceAs (Decidable (_ ∧ _ ∧ _ ∧ _))

@[simp] theorem admissible_nil (cpusMax maxIrqs : ℕ) (s : MpState) :
    Admissible cpusMax maxIrqs s [] := by
  simp [Admissible, Fits, Bool.toNat_le]

/-! ### Tables compose over the entries

`parsed` is the entries' effect applied in order, and admissibility splits
at any point of the table, so a whole parse is the parses of its entries one
after the other. -/

theorem getLastD_append {α : Type} (l₁ l₂ : List α) (d : α) :
    (l₁ ++ l₂).getLastD d = l₂.getLastD (l₁.getLastD d) := by
  induction l₁ generalizing d with
  | nil => rfl
  | cons a l₁ ih => simp only [List.cons_append, List.getLastD_cons, ih]

theorem parsed_append (s : MpState) (l₁ l₂ : List MpcEntry) :
    parsed s (l₁ ++ l₂) = parsed (parsed s l₁) l₂ := by
  simp only [parsed, List.filterMap_append, getLastD_append, List.append_assoc, Bool.or_assoc,
    MpState.mk.injEq, and_true, true_and]
  cases l₁.filterMap MpcEntry.bscOf <;> rfl

@[simp] theorem nrCpus_parsed (s : MpState) (l : List MpcEntry) :
    (parsed s l).nrCpus = s.nrCpus + (l.filterMap MpcEntry.apOf).length := by
  simp only [MpState.nrCpus, parsed, List.length_append]
  omega

theorem fits_add {m k₁ k₂ cap : ℕ} : Fits m (k₁ + k₂) cap ↔ Fits m k₁ cap ∧ Fits (m + k₁) k₂ cap := by
  unfold Fits; omega

/-- One bootstrap processor at most, counted over two parts of a table. -/
theorem bsc_append {L₁ L₂ : List ℕ} {filled : Bool} :
    L₁.length + L₂.length + filled.toNat ≤ 1 ↔
      L₁.length + filled.toNat ≤ 1 ∧ L₂.length + (filled || !L₁.isEmpty).toNat ≤ 1 := by
  cases L₁ <;> cases filled <;>
    simp only [List.length_cons, List.length_nil, List.isEmpty_nil, List.isEmpty_cons,
      Bool.not_true, Bool.not_false, Bool.or_false, Bool.or_true, Bool.toNat_true,
      Bool.toNat_false] <;> omega

theorem admissible_append {cpusMax maxIrqs : ℕ} (s : MpState) (l₁ l₂ : List MpcEntry) :
    Admissible cpusMax maxIrqs s (l₁ ++ l₂) ↔
      Admissible cpusMax maxIrqs s l₁ ∧ Admissible cpusMax maxIrqs (parsed s l₁) l₂ := by
  simp only [Admissible, List.filterMap_append, List.length_append, bsc_append, fits_add,
    nrCpus_parsed]
  simp only [parsed, List.length_append]
  constructor
  · rintro ⟨⟨b₁, b₂⟩, ⟨c₁, c₂⟩, ⟨d₁, d₂⟩, i₁, i₂⟩
    exact ⟨⟨b₁, c₁, d₁, i₁⟩, b₂, c₂, d₂, i₂⟩
  · rintro ⟨⟨b₁, c₁, d₁, i₁⟩, b₂, c₂, d₂, i₂⟩
    exact ⟨⟨b₁, b₂⟩, ⟨c₁, c₂⟩, ⟨d₁, d₂⟩, i₁, i₂⟩

section Step

variable {cpusMax maxIrqs : ℕ}

/-- **One entry through its parser**: it returns exactly when the entry
alone is admissible, with the tables `parsed` of the entry alone. -/
theorem parseEntry_eq_ok {s s₁ : MpState} {e : MpcEntry} :
    parseEntry cpusMax maxIrqs s e = .ok s₁ ↔
      Admissible cpusMax maxIrqs s [e] ∧ s₁ = parsed s [e] := by
  obtain ⟨bsp, aps, filled, descs, isaBusid, irqs⟩ := s
  cases e <;>
    simp only [parseEntry, parseCpu, parseBus, parseIoapic, parseIrq, pure, Except.pure, throw,
      throwThe, MonadExceptOf.throw] <;>
    (try split_ifs) <;>
    simp_all [Admissible, parsed, MpcEntry.apOf, MpcEntry.bscOf, MpcEntry.ioapicOf, MpcEntry.irqOf,
      MpcEntry.isaBusOf, MpState.nrCpus, Fits, Bool.toNat_le, @eq_comm _ s₁] <;>
    intros <;> omega

/-- **A parse of the entries `l`** returns exactly when they are
admissible, and then leaves the tables `parsed`. -/
theorem foldlM_parseEntry_eq_ok {s s' : MpState} {l : List MpcEntry} :
    l.foldlM (parseEntry cpusMax maxIrqs) s = .ok s' ↔
      Admissible cpusMax maxIrqs s l ∧ s' = parsed s l := by
  induction l generalizing s with
  | nil => simp [pure, Except.pure, eq_comm]
  | cons e l ih =>
    rw [List.foldlM_cons, bind_eq_ok, ← List.singleton_append, admissible_append, parsed_append]
    simp only [parseEntry_eq_ok, ih]
    constructor
    · rintro ⟨_, ⟨h₁, rfl⟩, h₂, rfl⟩
      exact ⟨⟨h₁, h₂⟩, rfl⟩
    · rintro ⟨⟨h₁, h₂⟩, rfl⟩
      exact ⟨_, ⟨h₁, rfl⟩, h₂, rfl⟩

end Step

section Loop

variable {cpusMax maxIrqs : ℕ} {mem : ℕ → UInt8}

/-- **`parse_mpc` returns 1 exactly when** every entry of the table has a
known type and the entries are admissible; the tables are then the entries'
`parsed` ones. -/
theorem parseMpc_eq_ok {mpc : ℕ} {s s' : MpState} :
    parseMpc cpusMax maxIrqs mem mpc s = .ok (true, s') ↔
      (mpcEntries mem mpc).2 = true ∧ Admissible cpusMax maxIrqs s (mpcEntries mem mpc).1 ∧
        s' = parsed s (mpcEntries mem mpc).1 := by
  rw [parseMpc, parseLoop_eq, ← mpcEntries, ← foldlM_parseEntry_eq_ok]
  cases (mpcEntries mem mpc).1.foldlM (parseEntry cpusMax maxIrqs) s <;>
    simp only [Functor.map, Except.map, Except.ok.injEq, Prod.mk.injEq, reduceCtorEq, false_iff,
      and_false, not_false_eq_true]

end Loop

/-! ## Finding the table -/

/-- `get_mpf()`: the first kilobyte of the EBDA, whose segment is the `uint16_t`
at `0x40e`, then the last kilobyte of base memory, then the BIOS ROM.
`none` is a search that outlasts its fuel. -/
def getMpf (mem : ℕ → UInt8) (fuel : ℕ) : Option (Option ℕ) :=
  (searchForMpf mem (read16 mem 0x40e * 2 ^ 4) 0x400 fuel).bind fun
    | some mpf => some (some mpf)
    | none => (searchForMpf mem (639 * 0x400) 0x400 fuel).bind fun
      | some mpf => some (some mpf)
      | none => searchForMpf mem 0xf0000 0x10000 fuel

/-- The floating-pointer candidates of the three areas, in the order
`get_mpf` searches them. -/
def mpfAreas (mem : ℕ → UInt8) : List ℕ :=
  MpTables.candidates (read16 mem 0x40e * 2 ^ 4) 64 ++ MpTables.candidates (639 * 0x400) 64 ++
    MpTables.candidates 0xf0000 0x1000

/-- **`get_mpf` returns**, with the first valid floating pointer of the three
areas, or `NULL` when there is none: each area is a whole number of 16-byte
candidates, so none of the searches runs past its end. -/
theorem getMpf_eq_find (mem : ℕ → UInt8) {fuel : ℕ} (hfuel : 0x1000 < fuel) :
    getMpf mem fuel = some ((mpfAreas mem).find? (MpTables.mpfValid mem)) := by
  have h₁ : searchForMpf mem (read16 mem 0x40e * 2 ^ 4) 0x400 fuel = _ :=
    MpTables.searchForMpf_eq_find mem _ 64 fuel (by decide) (by omega)
  have h₂ : searchForMpf mem (639 * 0x400) 0x400 fuel = _ :=
    MpTables.searchForMpf_eq_find mem _ 64 fuel (by decide) (by omega)
  have h₃ : searchForMpf mem 0xf0000 0x10000 fuel = _ :=
    MpTables.searchForMpf_eq_find mem _ 0x1000 fuel (by decide) hfuel
  simp only [getMpf, h₁, h₂, h₃, Option.some_bind, mpfAreas, List.find?_append]
  split <;> (try split) <;> simp_all only [Option.none_or, Option.or_some]

/-- `mptables_init()`, from the tables `s` (`mptables_check`, not among the
sources, is left out). The floating pointer's `feature1` is its byte 11 and
`conf_physaddr` the `uint32_t` at 4. `none` is a search that outlasts its
fuel. -/
def mptablesInit (cpusMax maxIrqs : ℕ) (mem : ℕ → UInt8) (fuel : ℕ) (s : MpState) :
    Option (Except Fault MpState) :=
  (getMpf mem fuel).map fun
    | none => throw (.panic "No compliant MP pointer found")
    | some mpf =>
      if (mem (mpf + 11)).toNat ≠ 0 then
        throw (.panic "MP: Spec `default configuration' is not supported")
      else if read32 mem (mpf + 4) = 0 then
        throw (.panic "MP: Spec configuration table does not exist")
      else
        let mpc := read32 mem (mpf + 4)
        if !mpcCheck mem mpc then throw (.panic "Buggy MP conf table header")
        else do
          let (ok, s) ← parseMpc cpusMax maxIrqs mem mpc s
          if ok then pure s else throw (.panic "Can not parse MP conf table")

/-- A firmware image: an MP floating pointer at 0 that names a configuration
table at `0x10`, whose five entries are a bootstrap processor, one other
processor, an `"ISA"` bus, an I/O APIC at `0xfec00000` and one I/O
interrupt entry. -/
def sampleTables : List UInt8 :=
  [0x5f, 0x4d, 0x50, 0x5f, 0x10, 0, 0, 0, 1, 4, 0x90, 0, 0, 0, 0, 0] ++
    [0x50, 0x43, 0x4d, 0x50, 108, 0, 4, 0x15] ++ List.replicate 26 0 ++ [5, 0] ++
    List.replicate 8 0 ++ [0, 0, 0x14, 3] ++ List.replicate 16 0 ++ [0, 1, 0x14, 1] ++
    List.replicate 16 0 ++ [1, 0, 0x49, 0x53, 0x41, 0x20, 0x20, 0x20] ++
    [2, 2, 0x11, 1, 0, 0, 0xc0, 0xfe] ++ [3, 0, 0, 0, 0, 0, 2, 2]

/-- Memory holding `sampleTables` from address 0, and zero above. -/
def sampleMem (a : ℕ) : UInt8 := sampleTables.getD a 0

/-- The tables `mptables_init` leaves on `sampleMem`. -/
def sampleParsed : MpState :=
  ⟨0, [1], true, [⟨2, 0, 0xfec00000, 0⟩], 0, [⟨0, 0, 0, 2, 2⟩]⟩

set_option maxRecDepth 2000 in
theorem mptablesInit_sampleMem_eq :
    mptablesInit 8 16 sampleMem 0x1001 MpState.boot = some (.ok sampleParsed) := rfl

section Init

variable {cpusMax maxIrqs : ℕ}

/-- **`mptables_init` returns exactly when** `get_mpf` finds a floating
pointer that names a configuration table, the table passes `mpc_check`, and
`parse_mpc` accepts it; the tables are then its entries' `parsed` ones. -/
theorem mptablesInit_eq_ok (mem : ℕ → UInt8) {fuel : ℕ} (hfuel : 0x1000 < fuel) (s s' : MpState) :
    mptablesInit cpusMax maxIrqs mem fuel s = some (.ok s') ↔
      ∃ mpf, (mpfAreas mem).find? (MpTables.mpfValid mem) = some mpf ∧
        (mem (mpf + 11)).toNat = 0 ∧ read32 mem (mpf + 4) ≠ 0 ∧
        mpcCheck mem (read32 mem (mpf + 4)) = true ∧
        (mpcEntries mem (read32 mem (mpf + 4))).2 = true ∧
        Admissible cpusMax maxIrqs s (mpcEntries mem (read32 mem (mpf + 4))).1 ∧
        s' = parsed s (mpcEntries mem (read32 mem (mpf + 4))).1 := by
  rw [mptablesInit, getMpf_eq_find mem hfuel, Option.map_some', Option.some.injEq]
  cases (mpfAreas mem).find? (MpTables.mpfValid mem) with
  | none => simp [throw, throwThe, MonadExceptOf.throw]
  | some mpf =>
    simp only [Option.some.injEq, exists_eq_left']
    split_ifs with h₁ h₂ h₃
    · simp [h₁, throw, throwThe, MonadExceptOf.throw]
    · simp [h₂, throw, throwThe, MonadExceptOf.throw]
    · simp_all [throw, throwThe, MonadExceptOf.throw]
    · have hc : mpcCheck mem (read32 mem (mpf + 4)) = true := by simpa using h₃
      simp only [ne_eq, not_not] at h₁
      simp only [h₁, h₂, hc, ne_eq, not_false_eq_true, true_and, ← parseMpc_eq_ok]
      rcases parseMpc cpusMax maxIrqs mem (read32 mem (mpf + 4)) s with _ | ⟨_ | _, _⟩ <;>
        simp [bind, Except.bind, pure, Except.pure, throw, throwThe, MonadExceptOf.throw, eq_comm]

theorem mptablesInit_sampleMem :
    mptablesInit 8 16 sampleMem 0x1001 MpState.boot = some (.ok sampleParsed) ∧
      sampleParsed = parsed MpState.boot (mpcEntries sampleMem 0x10).1 := by
  obtain ⟨mpf, hf, -, -, -, -, -, hs⟩ :=
    (mptablesInit_eq_ok sampleMem (by decide) _ _).mp mptablesInit_sampleMem_eq
  obtain rfl : mpf = 0 := Option.some.inj (hf.symm.trans rfl)
  exact ⟨mptablesInit_sampleMem_eq, hs⟩

end Init

/-! ## The tables stay inside their arrays -/

/-- The counts stay within the arrays they index: `nr_cpus ≤ CPUS_MAX`,
`nr_ioapics ≤ IOAPICS_MAX` and `nr_mpcirqs ≤ MAX_IRQS`. -/
structure Bounded (cpusMax maxIrqs : ℕ) (s : MpState) : Prop where
  cpus : s.nrCpus ≤ cpusMax
  ioapics : s.descs.length ≤ ioapicsMax
  irqs : s.irqs.length ≤ maxIrqs

section Bounds

variable {cpusMax maxIrqs : ℕ}

theorem Bounded.boot (h : 0 < cpusMax) : Bounded cpusMax maxIrqs MpState.boot :=
  ⟨h, by decide, Nat.zero_le _⟩

/-- Admissible entries fill their slots only below the ends of the arrays. -/
theorem Bounded.parsed {s : MpState} {l : List MpcEntry} (hs : Bounded cpusMax maxIrqs s)
    (ha : Admissible cpusMax maxIrqs s l) : Bounded cpusMax maxIrqs (parsed s l) := by
  obtain ⟨h₁, h₂, h₃⟩ := hs
  obtain ⟨-, hc, hd, hi⟩ := ha
  unfold Fits at hc hd hi
  refine ⟨?_, ?_, ?_⟩
  · rw [nrCpus_parsed]; omega
  all_goals simp only [MpConfig.parsed, List.length_append]; omega

/-- However `parse_mpc` ends, the tables it leaves are inside their arrays. -/
theorem Bounded.of_parseMpc {mem : ℕ → UInt8} {mpc : ℕ} {s s' : MpState} {ok : Bool}
    (hs : Bounded cpusMax maxIrqs s) (h : parseMpc cpusMax maxIrqs mem mpc s = .ok (ok, s')) :
    Bounded cpusMax maxIrqs s' := by
  rw [parseMpc, parseLoop_eq] at h
  cases hf : (entriesFrom mem (read16 mem (mpc + 34)) (mpc + mpcTableSize)).1.foldlM
      (parseEntry cpusMax maxIrqs) s <;>
    simp only [hf, Functor.map, Except.map, reduceCtorEq, Except.ok.injEq, Prod.mk.injEq] at h
  obtain ⟨ha, rfl⟩ := foldlM_parseEntry_eq_ok.mp hf
  exact h.2 ▸ hs.parsed ha

/-- **The MP tables never overflow their arrays**: whatever the firmware's
tables hold, the counts `mptables_init` leaves are at most `CPUS_MAX`,
`IOAPICS_MAX` and `MAX_IRQS`, so that every slot a parser wrote lies inside
its array. -/
theorem mptablesInit_bounded {mem : ℕ → UInt8} {fuel : ℕ} {s : MpState} (hcpus : 0 < cpusMax)
    (h : mptablesInit cpusMax maxIrqs mem fuel MpState.boot = some (.ok s)) :
    Bounded cpusMax maxIrqs s := by
  obtain ⟨_ | mpf, -, h⟩ := Option.map_eq_some'.mp h
  · cases h
  dsimp only at h
  split_ifs at h
  cases hp : parseMpc cpusMax maxIrqs mem (read32 mem (mpf + 4)) MpState.boot with
  | error err => simp [hp, bind, Except.bind] at h
  | ok r =>
    obtain ⟨_ | _, s'⟩ := r <;> simp [hp, bind, Except.bind, pure, Except.pure, throw, throwThe,
      MonadExceptOf.throw] at h
    exact h ▸ (Bounded.boot hcpus).of_parseMpc hp

theorem mptablesInit_bounded_sampleMem :
    mptablesInit 8 16 sampleMem 0x1001 MpState.boot = some (.ok sampleParsed) ∧
      Bounded 8 16 sampleParsed :=
  ⟨mptablesInit_sampleMem_eq, mptablesInit_bounded (by decide) mptablesInit_sampleMem_eq⟩

end Bounds

/-! ## What `ioapic_init` finds -/

/-- What `ioapic_init` reads of the MP tables: `mp_isa_busid` and
`mp_irqs`. -/
def MpState.mpTables (s : MpState) : Ioapic.MpTables := ⟨s.isaBusid, s.irqs⟩

/-- `ioapic_descs[]` as the MP parsers leave it, with the chips' registers
`regs` and `i8259_pin`. -/
def MpState.ioapicState (s : MpState) (regs : ℤ → ℕ → ℕ) (pin : Ioapic.IoapicPin) :
    Ioapic.IoapicState :=
  ⟨s.descs, regs, pin⟩

theorem MpcEntry.isaBusOf_nonneg {e : MpcEntry} {z : ℤ} (h : e.isaBusOf = some z) : 0 ≤ z := by
  cases e <;> simp [MpcEntry.isaBusOf] at h
  omega

/-- `mp_isa_busid` stays `-1` exactly when no bus of the table is `"ISA"`. -/
theorem isaBusid_parsed_boot (l : List MpcEntry) :
    (parsed MpState.boot l).isaBusid = -1 ↔ ∀ e ∈ l, e.isaBusOf = none := by
  rw [← List.filterMap_eq_nil_iff]
  show (l.filterMap MpcEntry.isaBusOf).getLastD (-1) = -1 ↔ _
  rcases List.eq_nil_or_concat (l.filterMap MpcEntry.isaBusOf) with h | ⟨L, z, h⟩
  · simp [h]
  · obtain ⟨e, -, he⟩ := List.mem_filterMap.mp (show z ∈ l.filterMap MpcEntry.isaBusOf by simp [h])
    have := MpcEntry.isaBusOf_nonneg he
    simp [h]
    omega

/-- **`ioapic_init` after the MP parsers**: it returns exactly when the table
lists an `"ISA"` bus, and it then programs one I/O APIC per enabled I/O APIC
entry of the table, in table order, each with the entry's id and base. -/
theorem ioapicInit_parsed (l : List MpcEntry) (regs : ℤ → ℕ → ℕ) (pin : Ioapic.IoapicPin) :
    ((Ioapic.ioapicInit (parsed MpState.boot l).mpTables
        ((parsed MpState.boot l).ioapicState regs pin)).isSome ↔
        ∃ e ∈ l, e.isaBusOf ≠ none) ∧
      ∀ s', Ioapic.ioapicInit (parsed MpState.boot l).mpTables
          ((parsed MpState.boot l).ioapicState regs pin) = some s' →
        s'.descs.map (fun d => (d.id, d.base)) =
          (l.filterMap MpcEntry.ioapicOf).map fun d => (d.id, d.base) := by
  have hbus : (parsed MpState.boot l).mpTables.isaBusid = -1 ↔ ∀ e ∈ l, e.isaBusOf = none :=
    isaBusid_parsed_boot l
  refine ⟨by rw [Ioapic.ioapicInit_isSome_iff, Ne, hbus]; simp, fun s' h => ?_⟩
  have hne : (parsed MpState.boot l).mpTables.isaBusid ≠ -1 := by
    rw [← Ioapic.ioapicInit_isSome_iff, h]; rfl
  obtain ⟨s'', h', hl, hd, -⟩ := Ioapic.ioapicInit_spec _ _ hne
  obtain rfl : s' = s'' := Option.some.inj (h.symm.trans h')
  refine List.ext_getElem (by simpa using hl) fun a h₁ h₂ => ?_
  have ha : a < ((parsed MpState.boot l).ioapicState regs pin).descs.length := by simpa [hl] using h₁
  have := hd a ha
  simp only [List.getD_eq_getElem?_getD,
    List.getElem?_eq_getElem (show a < s'.descs.length by simpa using h₁), Option.getD_some] at this
  simp [this, Ioapic.initedDesc, MpState.ioapicState, parsed, MpState.boot,
    List.getElem?_eq_getElem (show a < (l.filterMap MpcEntry.ioapicOf).length by simpa using h₂)]

end MpConfig

end Mcube
