import Mcube.Spinlock.Defs
import Mathlib.Data.List.Nodup

/-!
# Mutual exclusion

A CPU holds a lock from the test-and-set that found it free until its
`spin_unlock` stores `_SPIN_UNLOCKED`: the lock is in the ghost `held` of one
of its contexts. In every interleaving of any number of CPUs, with interrupt
handlers or without, and whatever order locks are released in, at most one CPU
holds a lock, `lock->val` is `_SPIN_LOCKED` exactly when one does, and
`spin_trylock` returns `true` exactly when its own test-and-set acquired the
lock (`spinlock_exclusive`).

What a step can do to the locks is said once (`runCtx_spec`, `stepCpu_spec`):
change no lock word and no holding, acquire a lock whose word was clear, or
release a lock it held, clearing the word. The invariant `Exclusive` follows
by induction over the run.
-/

namespace Mcube

namespace Spinlock

open Function

/-- The locks held by interrupted contexts. -/
def savedHeld (saved : List (Ctx × Bool)) : List (ℕ × Bool) := (saved.map fun p => p.1.held).flatten

/-- Every lock a CPU's contexts hold. -/
def Cpu.allHeld (cpu : Cpu) : List (ℕ × Bool) := cpu.ctx.held ++ savedHeld cpu.saved

/-- **CPU `cpu` holds lock `l`.** -/
def Holds (cpu : Cpu) (l : ℕ) : Prop := l ∈ keys cpu.allHeld

instance {cpu : Cpu} {l : ℕ} : Decidable (Holds cpu l) := inferInstanceAs (Decidable (_ ∈ _))

/-- What a context knows about the lock it works on: before its
test-and-set it does not hold it, after a won one and in `spin_unlock` it
does, and `spin_trylock` returns `true` exactly when it holds it. -/
def PcHolds (x : Ctx) : Prop :=
  match x.pc with
  | .lockTas l _ | .lockRestore l _ | .lockSpin l _ | .lockDisable l _
  | .tryTas l _ | .tryRestore l _ => l ∉ keys x.held
  | .lockStore l _ | .tryStore l _ | .unlockStore l _ => l ∈ keys x.held
  | .tryRet l b _ => (b = true ↔ l ∈ keys x.held)
  | _ => True

/-- **What one step does to the lock words and a context's holdings**:
nothing; or it wins the test-and-set of a free lock; or it releases a lock
it held. -/
def HeldEffect (locks locks' : ℕ → LockSpin) (h h' : List (ℕ × Bool)) : Prop :=
  ((∀ l, (locks' l).val = (locks l).val) ∧ h' = h) ∨
  (∃ l r, (locks l).val = false ∧ (∀ l', (locks' l').val = if l' = l then true else (locks l').val) ∧
    h' = (l, r) :: h) ∨
  (∃ l, l ∈ keys h ∧ (∀ l', (locks' l').val = if l' = l then false else (locks l').val) ∧
    h' = h.filter fun e => e.1 != l)

@[simp] theorem keys_cons (e : ℕ × Bool) (h : List (ℕ × Bool)) : keys (e :: h) = e.1 :: keys h := rfl

@[simp] theorem keys_nil : keys [] = [] := rfl

variable {locks locks' : ℕ → LockSpin} {irq irq' : Bool} {x x' : Ctx} {cpu cpu' : Cpu}
  {lifo : Bool} {a : Act}

theorem mem_keys_of_canUnlock {l : ℕ} {held : List (ℕ × Bool)} (h : canUnlock lifo l held = true) :
    l ∈ keys held := by
  unfold canUnlock at h
  split at h
  · obtain ⟨e, he, rfl⟩ := Option.map_eq_some'.1 (of_decide_eq_true h)
    exact List.mem_map_of_mem _ (List.mem_of_mem_head? he)
  · exact of_decide_eq_true h

theorem heldEffect_refl : HeldEffect locks locks x.held x.held := Or.inl ⟨fun _ => rfl, rfl⟩

/-- **One step of a context**: what it knows of its lock stays true, and it
changes the lock words and its holdings as `HeldEffect` allows. -/
theorem runCtx_spec (h : runCtx locks irq x = some (locks', irq', x')) (hx : PcHolds x) :
    PcHolds x' ∧ HeldEffect locks locks' x.held x'.held := by
  obtain ⟨pc, held⟩ := x
  cases pc <;> simp only [runCtx, atomicBitTestAndSet] at h
  case idle => cases h
  case lockTas l r | tryTas l r =>
    split at h <;> rename_i hv <;> cases h
    · exact ⟨hx, Or.inl ⟨fun l' => by by_cases e : l' = l <;> simp [update_apply, e, hv], rfl⟩⟩
    · exact ⟨by simp [PcHolds], Or.inr (Or.inl ⟨l, r, by simpa using hv,
        fun l' => by by_cases e : l' = l <;> simp [update_apply, e], rfl⟩)⟩
  case lockSpin l r =>
    split at h <;> cases h
    exacts [⟨hx, heldEffect_refl⟩, ⟨hx, heldEffect_refl⟩]
  case lockStore l r | tryStore l r =>
    cases h
    exact ⟨by first | trivial | simpa [PcHolds] using hx,
      Or.inl ⟨fun l' => by by_cases e : l' = l <;> simp [update_apply, e], rfl⟩⟩
  case unlockStore l r =>
    cases h
    exact ⟨trivial, Or.inr (Or.inr ⟨l, hx, fun l' => by by_cases e : l' = l <;> simp [update_apply, e], rfl⟩)⟩
  all_goals cases h
  all_goals first
    | exact ⟨hx, heldEffect_refl⟩
    | exact ⟨trivial, heldEffect_refl⟩
    | exact ⟨by simpa [PcHolds] using hx, heldEffect_refl⟩

@[simp] theorem rflags_update_val (l : ℕ) (v : Bool) (l' : ℕ) :
    (update locks l { locks l with val := v } l').rflags = (locks l').rflags := by
  by_cases e : l' = l <;> simp [update_apply, e]

/-- **Only the holder writes `lock->rflags`.** -/
theorem runCtx_rflags (h : runCtx locks irq x = some (locks', irq', x')) (hx : PcHolds x) (l : ℕ)
    (hl : (locks' l).rflags ≠ (locks l).rflags) : l ∈ keys x.held := by
  obtain ⟨pc, held⟩ := x
  cases pc <;> simp only [runCtx, atomicBitTestAndSet] at h <;> (try split at h) <;>
    cases h
  all_goals first
    | (simp at hl; done)
    | rename_i l₀ _
      by_cases e : l = l₀
      · exact e ▸ hx
      · simp [update_noteq e] at hl

/-! ## One CPU -/

/-- **What a CPU's step does to each lock**: leave its word and the CPU's
holding of it alone, acquire it while its word was clear, or release it,
clearing the word. -/
def LockEffect (locks locks' : ℕ → LockSpin) (cpu cpu' : Cpu) : Prop :=
  ∀ l, ((locks' l).val = (locks l).val ∧ (Holds cpu' l ↔ Holds cpu l)) ∨
    ((locks l).val = false ∧ (locks' l).val = true ∧ Holds cpu' l) ∨
    (Holds cpu l ∧ (locks' l).val = false ∧ ¬Holds cpu' l)

/-- What a CPU knows of its contexts' locks: no lock is held twice, and each
context's knowledge of the lock it works on. -/
structure CpuHolds (cpu : Cpu) : Prop where
  nodup : (keys cpu.allHeld).Nodup
  running : PcHolds cpu.ctx
  saved : ∀ p ∈ cpu.saved, PcHolds p.1

theorem lockEffect_of_eq (hv : ∀ l, (locks' l).val = (locks l).val) (hh : cpu'.allHeld = cpu.allHeld) :
    LockEffect locks locks' cpu cpu' :=
  fun l => Or.inl ⟨hv l, by rw [Holds, hh, Holds]⟩

/-- **One step of a CPU** keeps what it knows of its contexts' locks, and
changes each lock as `LockEffect` allows. A test-and-set may only be won on
a lock the CPU does not hold, which the word being clear ensures. -/
theorem stepCpu_spec (h : stepCpu locks lifo cpu a = some (locks', cpu')) (hok : CpuHolds cpu)
    (hfree : ∀ l, (locks l).val = false → ¬Holds cpu l) :
    CpuHolds cpu' ∧ LockEffect locks locks' cpu cpu' := by
  obtain ⟨irq, ⟨pc, held⟩, saved⟩ := cpu
  cases a with
  | spinLock l | spinTrylock l | spinUnlock l =>
    simp only [stepCpu] at h
    split at h <;> rename_i hg <;> cases h
    refine ⟨⟨hok.nodup, ?_, hok.saved⟩, lockEffect_of_eq (fun _ => rfl) rfl⟩
    first
      | exact hg.2
      | exact mem_keys_of_canUnlock hg.2
  | run =>
    simp only [stepCpu, Option.map_eq_some'] at h
    obtain ⟨⟨locks'', irq', x'⟩, hr, he⟩ := h
    cases he
    obtain ⟨hx', heff⟩ := runCtx_spec hr hok.running
    have hnd := hok.nodup
    simp only [Cpu.allHeld, keys, List.map_append] at hnd
    rcases heff with ⟨hv, hh⟩ | ⟨l, r, hv0, hv, hh⟩ | ⟨l, hl, hv, hh⟩
    · exact ⟨⟨by simpa [Cpu.allHeld, hh] using hok.nodup, hx', hok.saved⟩,
        lockEffect_of_eq hv (by simp [Cpu.allHeld, hh])⟩
    · refine ⟨⟨?_, hx', hok.saved⟩, fun l' => ?_⟩
      · simpa [Cpu.allHeld, hh] using List.nodup_cons.2 ⟨hfree l hv0, hok.nodup⟩
      · by_cases e : l' = l
        · subst e
          exact Or.inr (Or.inl ⟨hv0, by simp [hv], by simp [Holds, Cpu.allHeld, hh]⟩)
        · exact Or.inl ⟨by simp [hv, e], by simp [Holds, Cpu.allHeld, hh, e]⟩
    · have hls : l ∉ keys (savedHeld saved) :=
        List.disjoint_of_nodup_append hnd hl
      refine ⟨⟨?_, hx', hok.saved⟩, fun l' => ?_⟩
      · refine hok.nodup.sublist ?_
        simp only [Cpu.allHeld, hh, keys]
        exact ((List.filter_sublist _).append (List.Sublist.refl _)).map _
      · by_cases e : l' = l
        · subst e
          refine Or.inr (Or.inr ⟨by simpa [Holds, Cpu.allHeld, keys] using Or.inl hl, by simp [hv], ?_⟩)
          simp only [Holds, Cpu.allHeld, hh, keys, List.map_append, List.mem_append, not_or]
          exact ⟨by simp, hls⟩
        · exact Or.inl ⟨by simp [hv, e], by simp [Holds, Cpu.allHeld, hh, keys, e]⟩
  | irq =>
    simp only [stepCpu] at h
    split at h <;> cases h
    refine ⟨⟨by simpa [Cpu.allHeld, savedHeld] using hok.nodup, trivial, ?_⟩,
      lockEffect_of_eq (fun _ => rfl) (by simp [Cpu.allHeld, savedHeld])⟩
    intro p hp
    rcases List.mem_cons.1 hp with rfl | hp
    exacts [hok.running, hok.saved p hp]
  | iret =>
    cases saved with
    | nil => simp [stepCpu] at h
    | cons p rest =>
      obtain ⟨x, f⟩ := p
      simp only [stepCpu] at h
      split at h <;> rename_i hg <;> cases h
      have hh : (⟨f, x, rest⟩ : Cpu).allHeld = (⟨irq, ⟨pc, held⟩, (x, f) :: rest⟩ : Cpu).allHeld := by
        simp [Cpu.allHeld, savedHeld, hg.2]
      exact ⟨⟨by rw [hh]; exact hok.nodup, hok.saved _ (List.mem_cons_self _ _),
        fun p hp => hok.saved p (List.mem_cons_of_mem _ hp)⟩, lockEffect_of_eq (fun _ => rfl) hh⟩

/-! ## Every interleaving -/

/-- **The mutual-exclusion invariant**: what each CPU knows of its locks, a
lock word set exactly when some CPU holds the lock, and never two CPUs
holding one. -/
structure Exclusive (s : State) : Prop where
  cpu : ∀ c, CpuHolds (s.cpus c)
  val : ∀ l, (s.locks l).val = true ↔ ∃ c, Holds (s.cpus c) l
  unique : ∀ l c c', Holds (s.cpus c) l → Holds (s.cpus c') l → c = c'

variable {s s' : State} {c : ℕ}

theorem exclusive_init (locks₀ : ℕ → LockSpin) (irq₀ : ℕ → Bool) : Exclusive (init locks₀ irq₀) :=
  ⟨fun _ => ⟨by simp [init, Cpu.allHeld, savedHeld], trivial, by simp [init]⟩,
    fun _ => by simp [init, spinInit, Holds, Cpu.allHeld, savedHeld],
    fun _ _ _ h => by simp [init, Holds, Cpu.allHeld, savedHeld] at h⟩

/-- **Every step keeps mutual exclusion.** -/
theorem Exclusive.step (hs : Exclusive s) (h : step lifo s c a = some s') : Exclusive s' := by
  simp only [Spinlock.step, Option.map_eq_some'] at h
  obtain ⟨⟨locks', cpu'⟩, hc, rfl⟩ := h
  obtain ⟨hcpu, heff⟩ := stepCpu_spec hc (hs.cpu c) fun l hv hh => by
    simpa [hv] using (hs.val l).2 ⟨c, hh⟩
  have hother : ∀ c' l, c' ≠ c → (Holds (update s.cpus c cpu' c') l ↔ Holds (s.cpus c') l) :=
    fun c' l e => by rw [update_noteq e]
  -- each lock keeps its word and holders, is acquired by `c`, or is released
  have key : ∀ l, ((locks' l).val = (s.locks l).val ∧
        ∀ c', (Holds (update s.cpus c cpu' c') l ↔ Holds (s.cpus c') l)) ∨
      ((locks' l).val = true ∧ ∀ c', (Holds (update s.cpus c cpu' c') l ↔ c' = c)) ∨
      ((locks' l).val = false ∧ ∀ c', ¬Holds (update s.cpus c cpu' c') l) := fun l => by
    rcases heff l with ⟨hv, hh⟩ | ⟨hv0, hv1, hh⟩ | ⟨hh0, hv, hh⟩
    · refine Or.inl ⟨hv, fun c' => ?_⟩
      by_cases e : c' = c
      · subst e; simpa using hh
      · exact hother c' l e
    · refine Or.inr (Or.inl ⟨hv1, fun c' => ⟨fun h' => ?_, fun e => by subst e; simpa using hh⟩⟩)
      by_contra e
      have := (hs.val l).2 ⟨c', (hother c' l e).1 h'⟩
      simp [hv0] at this
    · refine Or.inr (Or.inr ⟨hv, fun c' h' => ?_⟩)
      by_cases e : c' = c
      · subst e; simp at h'; exact hh h'
      · exact e (hs.unique l c' c ((hother c' l e).1 h') hh0)
  refine ⟨fun c' => ?_, fun l => ?_, fun l c₁ c₂ => ?_⟩
  · by_cases e : c' = c
    · subst e; simpa using hcpu
    · simpa [update_noteq e] using hs.cpu c'
  · rcases key l with ⟨hv, hall⟩ | ⟨hv, hall⟩ | ⟨hv, hnone⟩
    · simpa only [hv, hall] using hs.val l
    · exact ⟨fun _ => ⟨c, (hall c).2 rfl⟩, fun _ => hv⟩
    · simpa [hv] using hnone
  · rcases key l with ⟨-, hall⟩ | ⟨-, hall⟩ | ⟨-, hnone⟩
    · simpa only [hall] using hs.unique l c₁ c₂
    · exact fun h₁ h₂ => ((hall c₁).1 h₁).trans ((hall c₂).1 h₂).symm
    · exact fun h₁ => absurd h₁ (hnone c₁)

/-- **Mutual exclusion holds along every run.** -/
theorem Reachable.exclusive (hr : Reachable lifo s) : Exclusive s := by
  induction hr with
  | init locks₀ irq₀ => exact exclusive_init locks₀ irq₀
  | step c a _ h ih => exact ih.step h

section MutualExclusion

/-- **Mutual exclusion**, as the callers see it: never two CPUs holding a
lock, the lock word set exactly when a CPU holds it, and `spin_trylock`
returning `true` exactly when the context returning holds the lock, which
it did not when it called. -/
def SpinlockExclusion (s : State) : Prop :=
  (∀ l c c', Holds (s.cpus c) l → Holds (s.cpus c') l → c = c') ∧
  (∀ l, (s.locks l).val = true ↔ ∃ c, Holds (s.cpus c) l) ∧
  (∀ c, ∀ x ∈ (s.cpus c).ctx :: (s.cpus c).saved.map Prod.fst, ∀ l b r,
    x.pc = .tryRet l b r → (b = true ↔ l ∈ keys x.held))

end MutualExclusion

/-- **The spinlock excludes**, in every interleaving of any number of CPUs. -/
theorem spinlock_exclusive (hr : Reachable lifo s) : SpinlockExclusion s := by
  obtain ⟨hcpu, hval, huniq⟩ := hr.exclusive
  refine ⟨huniq, hval, fun c x hx l b r hpc => ?_⟩
  have hpx : PcHolds x := by
    rcases List.mem_cons.1 hx with rfl | hx
    · exact (hcpu c).running
    · obtain ⟨p, hp, rfl⟩ := List.mem_map.1 hx
      exact (hcpu c).saved p hp
  simpa only [PcHolds, hpc] using hpx

/-- CPU `0` takes lock `0`; CPU `1` then calls `spin_lock(0)`, loses the
test-and-set and goes on to restore its flag and spin. -/
theorem spinlock_exclusive_contended :
    ∃ s, runSchedule false (init (fun _ => ⟨false, false⟩) fun _ => true)
        [(0, .spinLock 0), (0, .run), (1, .spinLock 0), (1, .run)] = some s ∧
      Reachable false s ∧ Holds (s.cpus 0) 0 ∧ (s.cpus 1).ctx.pc = .lockRestore 0 true ∧
      SpinlockExclusion s := by
  have hs : runSchedule false (init (fun _ => ⟨false, false⟩) fun _ => true)
      [(0, .spinLock 0), (0, .run), (1, .spinLock 0), (1, .run)] = some _ := rfl
  have hr := (Reachable.init _ _).runSchedule hs
  exact ⟨_, hs, hr, by decide, rfl, spinlock_exclusive hr⟩

end Spinlock

end Mcube
